/-!
# Diagnostics

The diagnostics that the modelled passes report: a code and a message.
-/

set_option autoImplicit false

namespace Wrela

inductive Code where
  | SEM0066
  | SEM0046
  | SEM0077
  | SEM0078
  | SEM0083
  | SEM0097
  | SEM0099
  | SEM0100
  | SEM0101
  | SEM0102
  | SEM0103
  | SEM0104
  | SEM0105
  | SEM0117
  | SEM0121
  | SEM0025
  | SEM0031
  | SEM0057
  | SEM0058
  | SEM0086
  | SEM0087
  | SEM0088
  | SEM0089
  | CG0001
  | ASM0001
  | ASM0002
  deriving DecidableEq, Repr

structure Diagnostic where
  code : Code
  message : String
  deriving DecidableEq, Repr

theorem bind_eq_ok_iff {ε α β : Type} {x : Except ε α} {f : α → Except ε β} {b : β} :
    (x >>= f) = .ok b ↔ ∃ a, x = .ok a ∧ f a = .ok b := by
  cases x with
  | error e => exact ⟨nofun,nofun⟩
  | ok a =>
    constructor
    · intro h
      exact ⟨a,rfl,h⟩
    · rintro ⟨_,⟨⟩,h⟩
      exact h

theorem bind_eq_ok {ε α β : Type} {x : Except ε α} {f : α → Except ε β} {b : β}
    (h : (x >>= f) = .ok b) : ∃ a, x = .ok a ∧ f a = .ok b := bind_eq_ok_iff.mp h

theorem map_eq_ok {ε α β : Type} {x : Except ε α} {f : α → β} {b : β} (h : x.map f = .ok b) :
    ∃ a, x = .ok a ∧ f a = b := by
  cases x with
  | error e => cases h
  | ok a =>
    cases h
    exact ⟨a,rfl,rfl⟩

end Wrela

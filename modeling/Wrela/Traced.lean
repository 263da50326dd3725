import Mathlib.Data.List.Basic

/-!
# Runs that record what they read

A run has a list of what it read and ends in a state or stops for a reason. Two
runs agree if they read the same and end alike; runs that are put together from
parts that agree do too.
-/

set_option autoImplicit false

structure Traced (τ ε σ : Type) where
  trace : List τ
  outcome : Except ε σ

namespace Traced
open List
variable {τ ε σ ρ : Type} {r : Traced τ ε σ} {f : σ → Traced τ ε ρ}
  {turn : σ → Traced τ ε (σ ⊕ σ)}

def pure (s : σ) : Traced τ ε σ := ⟨[],.ok s⟩

def stop (e : ε) : Traced τ ε σ := ⟨[],.error e⟩

def record (xs : List τ) (s : σ) : Traced τ ε σ := ⟨xs,.ok s⟩

def bind (r : Traced τ ε σ) (f : σ → Traced τ ε ρ) : Traced τ ε ρ :=
  match r.outcome with
  | .error e => ⟨r.trace,.error e⟩
  | .ok s => ⟨r.trace++(f s).trace,(f s).outcome⟩

/-- A loop of at most `fuel` turns. A turn ends it with a state on the left. -/
def iterate (exhausted : ε) (turn : σ → Traced τ ε (σ ⊕ σ)) : ℕ → σ → Traced τ ε σ
  | 0, _ => stop exhausted
  | fuel+1, s => (turn s).bind fun
    | .inl t => pure t
    | .inr t => iterate exhausted turn fuel t

theorem bind_pure_left (s : σ) (f : σ → Traced τ ε ρ) : (pure s).bind f = f s := rfl

theorem bind_pure_right (r : Traced τ ε σ) : r.bind pure = r := by
  obtain ⟨trace,outcome⟩ := r
  cases outcome with
  | error e => rfl
  | ok s => simp [bind, pure]

theorem bind_assoc {π : Type} (r : Traced τ ε σ) (f : σ → Traced τ ε ρ) (g : ρ → Traced τ ε π) :
    (r.bind f).bind g = r.bind fun s => (f s).bind g := by
  obtain ⟨trace,outcome⟩ := r
  cases outcome with
  | error e => rfl
  | ok s =>
    simp only [bind]
    cases (f s).outcome with
    | error e => rfl
    | ok t => simp

section
variable {σ' ρ' : Type} {R : σ → σ' → Prop} {Q : ρ → ρ' → Prop} {s' : σ'} {r' : Traced τ ε σ'}

def Related (R : σ → σ' → Prop) : Except ε σ → Except ε σ' → Prop
  | .ok s, .ok s' => R s s'
  | .error e, .error e' => e = e'
  | _, _ => False

/-- Two runs that read the same and end in related states or for one reason. -/
def Agrees (R : σ → σ' → Prop) (r : Traced τ ε σ) (r' : Traced τ ε σ') : Prop :=
  r.trace = r'.trace ∧ Related R r.outcome r'.outcome

theorem Agrees.pure {s : σ} (h : R s s') :
    Agrees R (Traced.pure s : Traced τ ε σ) (Traced.pure s') := ⟨rfl,h⟩

theorem Agrees.stop (e : ε) : Agrees R (Traced.stop e : Traced τ ε σ) (Traced.stop e) := ⟨rfl,rfl⟩

theorem Agrees.record (xs : List τ) {s : σ} (h : R s s') :
    Agrees R (Traced.record xs s : Traced τ ε σ) (Traced.record xs s') := ⟨rfl,h⟩

theorem Agrees.mono (h : Agrees R r r') {R' : σ → σ' → Prop} (hr : ∀ s s', R s s' → R' s s') :
    Agrees R' r r' := by
  refine ⟨h.1,?_⟩
  have hrel := h.2
  revert hrel
  cases r.outcome <;> cases r'.outcome <;> first | exact hr _ _ | exact id

theorem Agrees.bind (h : Agrees R r r') {f' : σ' → Traced τ ε ρ'}
    (hf : ∀ s s', R s s' → Agrees Q (f s) (f' s')) : Agrees Q (r.bind f) (r'.bind f') := by
  obtain ⟨trace,outcome⟩ := r
  obtain ⟨trace',outcome'⟩ := r'
  obtain ⟨rfl,hrel⟩ := h
  cases outcome with
  | error e =>
    cases outcome' with
    | error e' => exact ⟨rfl,hrel⟩
    | ok s' => exact hrel.elim
  | ok s =>
    cases outcome' with
    | error e' => exact hrel.elim
    | ok s' =>
      obtain ⟨htrace,hout⟩ := hf s s' hrel
      exact ⟨congrArg (trace++·) htrace,hout⟩

theorem Agrees.bind_pure (r : Traced τ ε σ) {g : σ → σ'} (h : ∀ s, R s (g s)) :
    Agrees R r (r.bind fun s => .pure (g s)) := by
  obtain ⟨trace,outcome⟩ := r
  cases outcome with
  | error e => exact ⟨rfl,rfl⟩
  | ok s => exact ⟨(append_nil trace).symm,h s⟩

theorem Agrees.iterate {turn' : σ' → Traced τ ε (σ' ⊕ σ')} (e : ε)
    (ht : ∀ s s', R s s' → Agrees (Sum.LiftRel R R) (turn s) (turn' s')) (fuel : ℕ) {s : σ}
    (h : R s s') : Agrees R (Traced.iterate e turn fuel s) (Traced.iterate e turn' fuel s') := by
  induction fuel generalizing s s' with
  | zero => exact .stop e
  | succ fuel ih =>
    refine (ht s s' h).bind fun t t' hr => ?_
    cases hr with
    | inl hr => exact .pure hr
    | inr hr => exact ih hr

end

section
variable {A : List τ → Prop} {P : List τ → σ → Prop} {Q : List τ → ρ → Prop}

/-- With what was recorded before it, the run ends in a state that meets `P`, or
stops with a trace that meets `A`. -/
def Leads (A : List τ → Prop) (P : List τ → σ → Prop) (before : List τ) (r : Traced τ ε σ) : Prop :=
  match r.outcome with
  | .ok s => P (before++r.trace) s
  | .error _ => A (before++r.trace)

variable {before : List τ}

theorem Leads.pure {s : σ} (h : P before s) : Leads A P before (Traced.pure s : Traced τ ε σ) := by
  simpa [Leads, Traced.pure] using h

theorem Leads.stop {e : ε} (h : A before) : Leads A P before (Traced.stop e : Traced τ ε σ) := by
  simpa [Leads, Traced.stop] using h

theorem Leads.record {before xs : List τ} {s : σ} (h : P (before++xs) s) :
    Leads A P before (Traced.record xs s : Traced τ ε σ) := h

theorem Leads.bind (h : Leads A P before r) (hf : ∀ xs s, P xs s → Leads A Q xs (f s)) :
    Leads A Q before (r.bind f) := by
  obtain ⟨trace,outcome⟩ := r
  cases outcome with
  | error e => exact h
  | ok s =>
    have hs := hf _ s h
    simp only [Leads, append_assoc] at hs
    exact hs

/-- The invariant of a loop holds between its turns; a loop that has used up its
turns stops. -/
theorem Leads.iterate {P' : List τ → σ → Prop} (e : ε) (hA : ∀ xs s, P xs s → A xs)
    (ht : ∀ xs s, P xs s → Leads A (fun xs => Sum.elim (P' xs) (P xs)) xs (turn s))
    (fuel : ℕ) {s : σ} (h : P before s) : Leads A P' before (Traced.iterate e turn fuel s) := by
  induction fuel generalizing before s with
  | zero => exact .stop (hA _ _ h)
  | succ fuel ih =>
    refine (ht before s h).bind fun xs t hr => ?_
    cases t with
    | inl t => exact .pure hr
    | inr t => exact ih hr

end

end Traced

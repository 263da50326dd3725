import Mathlib.Algebra.BigOperators.Group.List.Basic
import Wrela.X86.Instr

/-!
# Code with relative jumps

Instructions and near jumps at byte positions, for an arbitrary encoding of the
instructions. Positions are relative to the start of the code; the machine has
halted when it arrives at the position right behind it.
-/

set_option autoImplicit false

namespace X86
open Option

/-- An instruction, or a jump to a target of type `τ`: a label before jumps are
resolved, a distance from the next instruction afterwards. -/
inductive Item (τ : Type) where
  | instr (i : Instr)
  | jmp (target : τ)
  | jcc (cond : UInt8) (target : τ)
  deriving DecidableEq, Repr

structure Encoding where
  length : Instr → ℕ
  length_pos : ∀ i, 0 < length i

abbrev Config := ℕ × State

namespace Encoding
variable (enc : Encoding) {is : List (Item ℤ)} {n : ℕ}

def itemSize {τ : Type} : Item τ → ℕ
  | .instr i => enc.length i
  | .jmp _ => 5
  | .jcc _ _ => 6

def size {τ : Type} (code : List (Item τ)) : ℕ := (code.map enc.itemSize).sum

def fetch : List (Item ℤ) → ℕ → Option (Item ℤ)
  | [], _ => none
  | i::is, ip =>
    if ip = 0 then some i
    else if ip < enc.itemSize i then none
    else fetch is (ip-enc.itemSize i)

variable (code : List (Item ℤ))

def step (c : Config) : Option Config :=
  match enc.fetch code c.1 with
  | none => none
  | some (.instr i) => (exec c.2 i).map fun t => (c.1+enc.length i, t)
  | some (.jmp rel) => some ((c.1+5+rel : ℤ).toNat, c.2)
  | some (.jcc cond rel) =>
    c.2.flags.map fun f => (if holds cond f then (c.1+6+rel : ℤ).toNat else c.1+6, c.2)

def steps (code : List (Item ℤ)) : ℕ → Config → Option Config
  | 0, c => some c
  | n+1, c => (enc.step code c).bind (steps code n)

def HaltsIn (n : ℕ) (c : Config) (t : State) : Prop :=
  enc.steps code n c = some (enc.size code, t)

def Halts (s t : State) : Prop := ∃ n, enc.HaltsIn code n (0, s) t

def Reaches (c c' : Config) : Prop := ∃ n, enc.steps code n c = some c'

section
variable {τ : Type}

@[simp] theorem size_nil : enc.size ([] : List (Item τ)) = 0 := rfl

@[simp] theorem size_cons (i : Item τ) (is : List (Item τ)) :
    enc.size (i::is) = enc.itemSize i+enc.size is := by
  simp [size]

@[simp] theorem size_append (is js : List (Item τ)) :
    enc.size (is++js) = enc.size is+enc.size js := by
  simp [size]

theorem itemSize_pos (i : Item τ) : 0 < enc.itemSize i := by
  cases i with
  | instr i => exact enc.length_pos i
  | jmp _ | jcc _ _ => exact Nat.succ_pos _

end

def CodeAt (pos : ℕ) (frag : List (Item ℤ)) : Prop :=
  ∃ pre post, code = pre++frag++post ∧ enc.size pre = pos

section
variable {code : List (Item ℤ)} {pos : ℕ} {i : Item ℤ}

theorem fetch_append (pre post : List (Item ℤ)) (i : Item ℤ) :
    enc.fetch (pre++i::post) (enc.size pre) = some i := by
  induction pre with
  | nil => simp [fetch]
  | cons j pre ih =>
    have hj := enc.itemSize_pos j
    rw [List.cons_append, fetch, size_cons, if_neg (by omega), if_neg (by omega),
      Nat.add_sub_cancel_left]
    exact ih

theorem fetch_size (code : List (Item ℤ)) : enc.fetch code (enc.size code) = none := by
  induction code with
  | nil => rfl
  | cons j code ih =>
    have hj := enc.itemSize_pos j
    rw [fetch, size_cons, if_neg (by omega), if_neg (by omega), Nat.add_sub_cancel_left]
    exact ih

variable {enc}

theorem CodeAt.whole (code : List (Item ℤ)) : enc.CodeAt code 0 code :=
  ⟨[],[],by simp,rfl⟩

theorem CodeAt.left {f g : List (Item ℤ)} (h : enc.CodeAt code pos (f++g)) :
    enc.CodeAt code pos f := by
  obtain ⟨pre,post,rfl,hpos⟩ := h
  exact ⟨pre,g++post,by simp,hpos⟩

theorem CodeAt.right {f g : List (Item ℤ)} (h : enc.CodeAt code pos (f++g)) :
    enc.CodeAt code (pos+enc.size f) g := by
  obtain ⟨pre,post,rfl,hpos⟩ := h
  exact ⟨pre++f,post,by simp,by rw [size_append, hpos]⟩

theorem CodeAt.tail {i : Instr} {is : List Instr} (h : enc.CodeAt code pos ((i::is).map .instr)) :
    enc.CodeAt code (pos+enc.length i) (is.map .instr) := by
  simpa [itemSize] using CodeAt.right (f := [.instr i]) h

theorem CodeAt.fetch (h : enc.CodeAt code pos (i::is)) : enc.fetch code pos = some i := by
  obtain ⟨pre,post,rfl,rfl⟩ := h
  rw [List.append_assoc, List.cons_append]
  exact enc.fetch_append pre (is++post) i

theorem CodeAt.ne_size (h : enc.CodeAt code pos (i::is)) : pos ≠ enc.size code := by
  intro hp
  have hf := h.fetch
  rw [hp, fetch_size] at hf
  cases hf

end

section
variable (code : List (Item ℤ)) {c d : Config} {t : State}

theorem steps_add (m n : ℕ) (c : Config) :
    enc.steps code (m+n) c = (enc.steps code m c).bind (enc.steps code n) := by
  induction m generalizing c with
  | zero => rw [zero_add]; rfl
  | succ m ih =>
    rw [Nat.succ_add, steps, steps]
    cases enc.step code c with
    | none => rfl
    | some d => exact ih d

theorem Reaches.refl (c : Config) : enc.Reaches code c c := ⟨0,rfl⟩

variable {enc code}

theorem Reaches.trans {e : Config} (h : enc.Reaches code c d) (h' : enc.Reaches code d e) :
    enc.Reaches code c e := by
  obtain ⟨m,hm⟩ := h
  obtain ⟨n,hn⟩ := h'
  exact ⟨m+n,by rw [steps_add, hm, bind_some, hn]⟩

theorem Reaches.step (h : enc.step code c = some d) : enc.Reaches code c d :=
  ⟨1,by rw [steps, h]; rfl⟩

theorem step_size (t : State) : enc.step code (enc.size code, t) = none := by
  rw [Encoding.step, fetch_size]

theorem HaltsIn.step (h : enc.HaltsIn code n c t) (hc : c.1 ≠ enc.size code) :
    ∃ d m, n = m+1 ∧ enc.step code c = some d ∧ enc.HaltsIn code m d t := by
  rw [HaltsIn] at h
  cases n with
  | zero =>
    cases h
    exact absurd rfl hc
  | succ m =>
    rw [steps, bind_eq_some_iff] at h
    obtain ⟨d,hd,hm⟩ := h
    exact ⟨d,m,rfl,hd,hm⟩

theorem HaltsIn.stop {s : State} (h : enc.HaltsIn code n (enc.size code, s) t) : s = t := by
  rw [HaltsIn] at h
  cases n with
  | zero =>
    cases h
    rfl
  | succ m =>
    rw [steps, step_size] at h
    cases h

theorem HaltsIn.of_reaches (h : enc.HaltsIn code n c t)
    (hr : enc.Reaches code c d) : ∃ m ≤ n, enc.HaltsIn code m d t := by
  obtain ⟨k,hk⟩ := hr
  induction k generalizing n c with
  | zero =>
    cases hk
    exact ⟨n,le_refl n,h⟩
  | succ k ih =>
    rw [steps, bind_eq_some_iff] at hk
    obtain ⟨c',hc,hk⟩ := hk
    have hne : c.1 ≠ enc.size code := by
      intro hend
      rw [show c = (enc.size code, c.2) from Prod.ext hend rfl, step_size] at hc
      cases hc
    obtain ⟨d',m,rfl,hd,hm⟩ := h.step hne
    rw [hc] at hd
    cases hd
    obtain ⟨j,hj,hh⟩ := ih hm hk
    exact ⟨j,by omega,hh⟩

end

section
variable {enc} {code : List (Item ℤ)} {pos : ℕ} {s t : State} {rel : ℤ}

theorem CodeAt.step_instr {i : Instr} (h : enc.CodeAt code pos (.instr i::is)) :
    enc.step code (pos, s) = (exec s i).map fun t => (pos+enc.length i, t) := by
  rw [Encoding.step, h.fetch]

theorem CodeAt.step_jmp (h : enc.CodeAt code pos (.jmp rel::is)) :
    enc.step code (pos, s) = some ((pos+5+rel : ℤ).toNat, s) := by
  rw [Encoding.step, h.fetch]

theorem CodeAt.step_jcc {cond : UInt8} (h : enc.CodeAt code pos (.jcc cond rel::is)) :
    enc.step code (pos, s) = s.flags.map fun f =>
      (if holds cond f then (pos+6+rel : ℤ).toNat else pos+6, s) := by
  rw [Encoding.step, h.fetch]

theorem HaltsIn.run {is : List Instr} (hh : enc.HaltsIn code n (pos, s) t)
    (h : enc.CodeAt code pos (is.map .instr)) :
    ∃ u m, m ≤ n ∧ X86.run s is = some u ∧
      enc.HaltsIn code m (pos+enc.size (is.map (Item.instr (τ := ℤ))), u) t := by
  induction is generalizing pos s n with
  | nil => exact ⟨s,n,le_refl n,rfl,hh⟩
  | cons i is ih =>
    obtain ⟨d,m,hn,hd,hm⟩ := hh.step h.ne_size
    rw [h.step_instr, map_eq_some_iff] at hd
    obtain ⟨u,hu,rfl⟩ := hd
    obtain ⟨v,k,hk,hv,hh'⟩ := ih hm h.tail
    refine ⟨v,k,by omega,by rw [run_cons, hu, bind_some, hv],?_⟩
    simpa [itemSize, add_assoc] using hh'

end

end Encoding

/-! ### Calls of routines -/

inductive Block (ι : Type) where
  | code (is : List Instr)
  | call (routine : ι) (ret : Word)

namespace State
variable (s : State)

def push (v : Word) : State :=
  (s.setMem (store s.mem (s.reg .rsp-8) 8 v)).setReg .rsp (s.reg .rsp-8)

def popped : State := s.setReg .rsp (s.reg .rsp+8)

end State

section
variable {ι : Type} (routine : ι → State → State → Prop)

inductive Runs : List (Block ι) → State → State → Prop
  | nil (s : State) : Runs [] s s
  | code {is : List Instr} {bs : List (Block ι)} {s t u : State} (h : run s is = some t)
      (rest : Runs bs t u) : Runs (.code is::bs) s u
  | call {r : ι} {ret : Word} {bs : List (Block ι)} {s t u : State}
      (h : routine r (s.push ret) t) (hret : load t.mem (t.reg .rsp) 8 = ret)
      (rest : Runs bs t.popped u) : Runs (.call r ret::bs) s u

variable {routine}

theorem Runs.append {bs cs : List (Block ι)} {s t u : State} (h : Runs routine bs s t)
    (h' : Runs routine cs t u) : Runs routine (bs++cs) s u := by
  induction h with
  | nil s => exact h'
  | code h _ ih => exact .code h (ih h')
  | call h hret _ ih => exact .call h hret (ih h')

theorem Runs.unique {bs : List (Block ι)} {s t t' : State} (h : Runs routine bs s t)
    (hdet : ∀ r s t t', routine r s t → routine r s t' → t = t') (h' : Runs routine bs s t') :
    t = t' := by
  induction h with
  | nil s =>
    cases h'
    rfl
  | code h _ ih =>
    cases h' with
    | code h1 rest =>
      rw [h] at h1
      cases h1
      exact ih rest
  | call h _ _ ih =>
    cases h' with
    | call h1 _ rest =>
      cases hdet _ _ _ _ h h1
      exact ih rest

end

namespace Encoding

theorem Halts.unique {enc : Encoding} {code : List (Item ℤ)} {s t t' : State}
    (h : enc.Halts code s t) (h' : enc.Halts code s t') : t = t' := by
  obtain ⟨n,hn⟩ := h
  obtain ⟨m,hm⟩ := h'
  obtain ⟨k,-,hk⟩ := hm.of_reaches ⟨n,hn⟩
  exact hk.stop

end Encoding

/-! ### The bytes that are read and written, in order -/

inductive Access where
  | read (a : Word)
  | write (a : Word)
  deriving DecidableEq, Repr

def Access.span (access : Word → Access) (a : Word) : ℕ → List Access
  | 0 => []
  | n+1 => access a::span access (a+1) n

open Access in
def accesses (s : State) : Instr → List Access
  | .load size _ base disp => span .read (s.address base disp) size
  | .store size base disp _ => span .write (s.address base disp) size
  | .storeImm base disp _ => span .write (s.address base disp) 8
  | .cmpMem _ base disp => span .read (s.address base disp) 8
  | .loadByteIndexed _ base index => [.read (s.reg base+s.reg index)]
  | .push _ => span .write (s.reg .rsp-8) 8
  | .pop _ => span .read (s.reg .rsp) 8
  | _ => []

def runAccesses (s : State) : List Instr → List Access
  | [] => []
  | i::is => accesses s i++(exec s i).elim [] fun t => runAccesses t is

def Instr.quiet : Instr → Bool
  | .load .. | .store .. | .storeImm .. | .cmpMem .. => false
  | .loadByteIndexed .. | .push _ | .pop _ => false
  | _ => true

theorem accesses_quiet {i : Instr} (h : i.quiet) (s : State) : accesses s i = [] := by
  cases i <;> first | rfl | cases h

variable {is : List Instr}

theorem runAccesses_quiet (h : is.all Instr.quiet) (s : State) : runAccesses s is = [] := by
  induction is generalizing s with
  | nil => rfl
  | cons i is ih =>
    rw [List.all_cons, Bool.and_eq_true] at h
    rw [runAccesses, accesses_quiet h.1]
    cases exec s i with
    | none => rfl
    | some t => exact ih h.2 t

namespace Encoding
variable (enc : Encoding) {c d : Config} {pos : ℕ}

def stepAccesses (code : List (Item ℤ)) (c : Config) : List Access :=
  match enc.fetch code c.1 with
  | some (.instr i) => accesses c.2 i
  | _ => []

def trace (code : List (Item ℤ)) : ℕ → Config → List Access
  | 0, _ => []
  | n+1, c => enc.stepAccesses code c++(enc.step code c).elim [] (trace code n)

def Performs (code : List (Item ℤ)) (c d : Config) (xs : List Access) : Prop :=
  ∃ n, enc.steps code n c = some d ∧ enc.trace code n c = xs

variable {enc} {code : List (Item ℤ)}

theorem trace_add {m : ℕ} (n : ℕ) (h : enc.steps code m c = some d) :
    enc.trace code (m+n) c = enc.trace code m c++enc.trace code n d := by
  induction m generalizing c with
  | zero =>
    rw [zero_add, Option.some.inj h]
    rfl
  | succ m ih =>
    rw [steps, bind_eq_some_iff] at h
    obtain ⟨c',hc,h⟩ := h
    rw [Nat.succ_add, trace, trace, hc, elim_some, elim_some, ih h, List.append_assoc]

theorem Performs.refl (c : Config) : enc.Performs code c c [] := ⟨0,rfl,rfl⟩

theorem Performs.trans {e : Config} {xs ys : List Access} (h : enc.Performs code c d xs)
    (h' : enc.Performs code d e ys) : enc.Performs code c e (xs++ys) := by
  obtain ⟨m,hm,rfl⟩ := h
  obtain ⟨n,hn,rfl⟩ := h'
  exact ⟨m+n,by rw [steps_add, hm, bind_some, hn],trace_add n hm⟩

theorem Performs.step (h : enc.step code c = some d) :
    enc.Performs code c d (enc.stepAccesses code c) :=
  ⟨1,by rw [steps, h]; rfl,by rw [trace, h]; exact List.append_nil _⟩

section
variable {s t : State} (h : enc.CodeAt code pos (is.map .instr)) (hr : X86.run s is = some t)
include h hr

theorem CodeAt.performs :
    enc.Performs code (pos, s) (pos+enc.size (is.map (Item.instr (τ := ℤ))), t)
      (runAccesses s is) := by
  induction is generalizing pos s with
  | nil =>
    cases hr
    exact Performs.refl _
  | cons i is ih =>
    rw [run_cons, bind_eq_some_iff] at hr
    obtain ⟨u,hu,hr⟩ := hr
    have hstep : enc.step code (pos, s) = some (pos+enc.length i, u) := by
      rw [CodeAt.step_instr h, hu, map_some]
    have := (Performs.step hstep).trans (ih h.tail hr)
    rw [stepAccesses, h.fetch] at this
    simpa [itemSize, add_assoc, runAccesses, hu] using this

theorem CodeAt.run : enc.Reaches code (pos, s) (pos+enc.size (is.map (Item.instr (τ := ℤ))), t) :=
  (h.performs hr).imp fun _ hn => hn.1

end

end Encoding

end X86

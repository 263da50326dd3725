import Mathlib.Data.List.Basic

/-!
# Shared memory: interleaved accesses and store buffers

A thread is given by the action of each of its local states: one memory access,
a fence, a move of its own, or an interrupt sent to another core. Here are the
two memory systems such actions run against: one memory in which every access
takes effect at once, and the total-store-order memory in which each core has a
first-in first-out buffer of stores that reach memory later, while the core
itself already sees them.
-/

set_option autoImplicit false

namespace SharedMemory
open Option
variable {Loc Val Core σ τ : Type*}

/-- `outside` is a load of memory that is not modelled: it may give any value. -/
inductive Action (Loc Val Core σ : Type*) where
  | read (l : Loc) (k : Val → σ)
  | write (l : Loc) (v : Val) (s : σ)
  | fence (s : σ)
  | jump (s : σ)
  | outside (k : Val → σ)
  | signal (c : Core) (s : σ)

def Action.map (f : σ → τ) : Action Loc Val Core σ → Action Loc Val Core τ
  | .read l k => .read l (f∘k)
  | .write l v s => .write l v (f s)
  | .fence s => .fence (f s)
  | .jump s => .jump (f s)
  | .outside k => .outside (f∘k)
  | .signal c s => .signal c (f s)

def Action.target : Action Loc Val Core σ → Option Loc
  | .write l _ _ => some l
  | _ => none

variable (f : σ → τ) (b : List (Loc × Val)) (x : Val) (m : Loc → Val) (a : Action Loc Val Core σ)

theorem target_map : (a.map f).target = a.target := by
  cases a <;> rfl

def Action.signalled : Action Loc Val Core σ → Option Core
  | .signal c _ => some c
  | _ => none

theorem signalled_map : (a.map f).signalled = a.signalled := by
  cases a <;> rfl

variable [DecidableEq Loc]

def Action.perform (x : Val) (m : Loc → Val) : Action Loc Val Core σ → σ × (Loc → Val)
  | .read l k => (k (m l), m)
  | .write l v s => (s, Function.update m l v)
  | .fence s => (s, m)
  | .jump s => (s, m)
  | .outside k => (k x, m)
  | .signal _ s => (s, m)

theorem perform_map : (a.map f).perform x m = (f (a.perform x m).1, (a.perform x m).2) := by
  cases a <;> rfl

theorem perform_of_target_ne (l : Loc) (h : a.target ≠ some l) : (a.perform x m).2 l = m l := by
  cases a with
  | write l' v s => exact Function.update_of_ne (fun he => h (by rw [he]; rfl)) _ _
  | _ => rfl

/-- Memory once a buffer, oldest store first, has reached it. The owner of the
buffer reads this memory. -/
def flush (buffer : List (Loc × Val)) (m : Loc → Val) : Loc → Val :=
  buffer.foldl (fun m e => Function.update m e.1 e.2) m

@[simp] theorem flush_nil : flush [] m = m := rfl

@[simp] theorem flush_cons (e : Loc × Val) (b : List (Loc × Val)) (m : Loc → Val) :
    flush (e::b) m = flush b (Function.update m e.1 e.2) := rfl

theorem flush_append (b c : List (Loc × Val)) (m : Loc → Val) :
    flush (b++c) m = flush c (flush b m) := by
  simp [flush, List.foldl_append]

theorem flush_other (l : Loc) (h : ∀ e ∈ b, e.1 ≠ l) : flush b m l = m l := by
  induction b generalizing m with
  | nil => rfl
  | cons e b ih =>
    rw [flush_cons, ih _ (fun f hf => h f (by simp [hf])),
      Function.update_of_ne (Ne.symm (h e (by simp)))]

theorem flush_congr {m m' : Loc → Val} {l : Loc} (h : m l = m' l) : flush b m l = flush b m' l := by
  induction b generalizing m m' with
  | nil => exact h
  | cons e b ih =>
    apply ih
    by_cases he : l = e.1
    · simp [he]
    · simp [Function.update_of_ne he, h]

theorem flush_of_mem {l : Loc} {v : Val} (h : (l,v) ∈ b) : (l, flush b m l) ∈ b := by
  induction b generalizing m v with
  | nil => simp at h
  | cons e b ih =>
    rw [flush_cons]
    by_cases hb : ∃ w, (l,w) ∈ b
    · obtain ⟨w,hw⟩ := hb
      exact List.mem_cons_of_mem _ (ih _ hw)
    · -- the only store to the cell is the oldest one
      rcases List.mem_cons.mp h with he | hm
      · rw [flush_other b _ l (fun f hf he' => hb ⟨f.2,he' ▸ hf⟩), ← he]
        simp
      · exact absurd ⟨v,hm⟩ hb

/-- One action of a core against memory and its own store buffer. A fence waits
for the buffer to empty. -/
def Action.performBuffered (x : Val) (m : Loc → Val) (b : List (Loc × Val)) :
    Action Loc Val Core σ → Option (σ × List (Loc × Val))
  | .read l k => some (k (flush b m l), b)
  | .write l v s => some (s, b++[(l,v)])
  | .fence s => if b.isEmpty then some (s, b) else none
  | .jump s => some (s, b)
  | .outside k => some (k x, b)
  | .signal _ s => some (s, b)

theorem performBuffered_map (b : List (Loc × Val)) (a : Action Loc Val Core σ) :
    (a.map f).performBuffered x m b = (a.performBuffered x m b).map (fun p => (f p.1, p.2)) := by
  cases a with
  | fence s =>
    simp only [Action.map, Action.performBuffered]
    split <;> rfl
  | _ => rfl

theorem performBuffered_view (b b' : List (Loc × Val)) (a : Action Loc Val Core σ) (s : σ)
    (h : a.performBuffered x m b = some (s, b')) : a.perform x (flush b m) = (s, flush b' m) := by
  cases a with
  | write l v t =>
    simp only [Action.performBuffered, some.injEq, Prod.mk.injEq] at h
    obtain ⟨rfl,rfl⟩ := h
    rw [flush_append]
    rfl
  | fence t =>
    simp only [Action.performBuffered, ite_none_right_eq_some, some.injEq,
      Prod.mk.injEq] at h
    obtain ⟨-,rfl,rfl⟩ := h
    rfl
  | _ =>
    simp only [Action.performBuffered, some.injEq, Prod.mk.injEq] at h
    obtain ⟨rfl,rfl⟩ := h
    rfl

theorem performBuffered_buffer (b b' : List (Loc × Val))
    (a : Action Loc Val Core σ) (s : σ) (h : a.performBuffered x m b = some (s, b')) :
    b' = b ∨ ∃ l v, a.target = some l ∧ b' = b++[(l,v)] := by
  cases a with
  | write l v t =>
    simp only [Action.performBuffered, some.injEq, Prod.mk.injEq] at h
    exact .inr ⟨l,v,rfl,h.2.symm⟩
  | fence t =>
    simp only [Action.performBuffered, ite_none_right_eq_some, some.injEq,
      Prod.mk.injEq] at h
    exact .inl h.2.2.symm
  | _ =>
    simp only [Action.performBuffered, some.injEq, Prod.mk.injEq] at h
    exact .inl h.2.symm

end SharedMemory

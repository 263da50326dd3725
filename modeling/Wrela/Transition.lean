import Mathlib.Data.List.Basic
import Mathlib.Logic.Relation

/-!
# Runs and reachable states

Rules shared by the state machines of the development. Nothing here depends on
a particular machine. Partial step functions are run on lists of events;
nondeterministic systems are step relations with a set of initial states. Loops
run with a bound on their turns, and end within it if a measure goes down.
-/

set_option autoImplicit false

namespace Transition
open List Option

section
variable {σ ε : Type*} (step : σ → ε → Option σ)

def run : σ → List ε → Option σ
  | s, [] => some s
  | s, e::es => (step s e).bind (fun t => run t es)

theorem run_append (s : σ) (es fs : List ε) :
    run step s (es++fs) = (run step s es).bind (fun t => run step t fs) := by
  induction es generalizing s with
  | nil => rfl
  | cons e es ih =>
    simp only [cons_append, run]
    cases step s e with
    | none => rfl
    | some t => exact ih t

theorem run_take_succ (s : σ) (es : List ε) (n : ℕ) (e : ε) (h : es[n]? = some e) :
    run step s (es.take (n+1)) = (run step s (es.take n)).bind (fun t => step t e) := by
  rw [take_add_one, h, toList_some, run_append]
  congr
  funext t
  simp [run]

theorem run_take_some (s : σ) (es : List ε) (n : ℕ) (h : (run step s es).isSome) :
    (run step s (es.take n)).isSome := by
  rw [← take_append_drop n es, run_append] at h
  cases hr : run step s (es.take n) with
  | none => simp [hr] at h
  | some t => rfl

variable {step} in
theorem run_invariant {P : σ → Prop} (hstep : ∀ s e t, P s → step s e = some t → P t)
    {s t : σ} (hs : P s) (es : List ε) (h : run step s es = some t) : P t := by
  induction es generalizing s with
  | nil =>
    simp only [run, some.injEq] at h
    exact h ▸ hs
  | cons e es ih =>
    obtain ⟨u,hu,h⟩ := bind_eq_some_iff.mp h
    exact ih (hstep s e u hs hu) h

variable {P : σ → Prop} {G : σ → ε → Prop}

/-- Every state of a run is good when each of its steps meets a condition under
which steps from good states are good. -/
theorem run_good (hstep : ∀ s e t, P s → step s e = some t → G s e → P t) (s : σ) (es : List ε)
    (hs : P s) (h : ∀ n e t, es[n]? = some e → run step s (es.take n) = some t → G t e) :
    ∀ n t, run step s (es.take n) = some t → P t := by
  intro n
  induction n with
  | zero =>
    intro t ht
    simp only [take_zero, run, some.injEq] at ht
    exact ht ▸ hs
  | succ n ih =>
    intro t ht
    cases he : es[n]? with
    | none =>
      rw [List.getElem?_eq_none_iff] at he
      rw [take_of_length_le (by omega)] at ht
      exact ih t (by rwa [take_of_length_le he])
    | some e =>
      rw [run_take_succ step s es n e he] at ht
      obtain ⟨u,hu,hut⟩ := bind_eq_some_iff.mp ht
      exact hstep u e t (ih u hu) hut (h n e u he hu)

/-- When the events of a run are such that each step from a good state is good
exactly under a condition on that step, the whole run stays good exactly when
every one of its steps meets it. -/
theorem run_good_iff_of_mem (es : List ε)
    (hstep : ∀ s, ∀ e ∈ es, ∀ t, P s → step s e = some t → (P t ↔ G s e))
    (s : σ) (hs : P s) (hrun : (run step s es).isSome) :
    (∀ n, ∀ t, run step s (es.take n) = some t → P t) ↔
    (∀ n e t, es[n]? = some e → run step s (es.take n) = some t → G t e) := by
  constructor
  · intro h n e t he ht
    have hsome := run_take_some step s es (n+1) hrun
    rw [run_take_succ step s es n e he, ht, bind_some] at hsome
    obtain ⟨u,hu⟩ := isSome_iff_exists.mp hsome
    apply (hstep t e (mem_of_getElem? he) u (h n t ht) hu).mp
    apply h (n+1)
    rw [run_take_succ step s es n e he, ht, bind_some, hu]
  · intro h
    have hgood := run_good step (G := fun s e => e ∈ es ∧ G s e)
      (fun s e t hp he hg => (hstep s e hg.1 t hp he).mpr hg.2) s es hs
    exact hgood fun n e t he ht => ⟨mem_of_getElem? he,h n e t he ht⟩

theorem run_good_iff (hstep : ∀ s e t, P s → step s e = some t → (P t ↔ G s e))
    (s : σ) (es : List ε) (hs : P s) (hrun : (run step s es).isSome) :
    (∀ n, ∀ t, run step s (es.take n) = some t → P t) ↔
    (∀ n e t, es[n]? = some e → run step s (es.take n) = some t → G t e) :=
  run_good_iff_of_mem step es (fun s e _ t => hstep s e t) s hs hrun

end

section
variable {σ : Type*} {init : σ → Prop}

def Reachable (init : σ → Prop) (step : σ → σ → Prop) (s : σ) : Prop :=
  ∃ s₀, init s₀ ∧ Relation.ReflTransGen step s₀ s

theorem Reachable.invariant {step : σ → σ → Prop} {P : σ → Prop} (hinit : ∀ s, init s → P s)
    (hstep : ∀ s t, P s → step s t → P t) {s : σ} (h : Reachable init step s) : P s := by
  obtain ⟨s₀,h₀,hr⟩ := h
  induction hr with
  | refl => exact hinit _ h₀
  | tail _ hst ih => exact hstep _ _ ih hst

variable {ε : Type*}

def Steps (step : σ → ε → Option σ) (s t : σ) : Prop := ∃ e, step s e = some t

def guarded (G : σ → ε → Prop) [∀ s e, Decidable (G s e)] (step : σ → ε → Option σ)
    (s : σ) (e : ε) : Option σ :=
  if G s e then step s e else none

variable {step : σ → ε → Option σ}

theorem guarded_eq_some {G : σ → ε → Prop} [∀ s e, Decidable (G s e)] {s t : σ} {e : ε} :
    guarded G step s e = some t ↔ G s e ∧ step s e = some t := by
  simp [guarded, ite_none_right_eq_some]

theorem Reachable.of_run {s t : σ} (hs : Reachable init (Steps step) s) (es : List ε)
    (h : run step s es = some t) : Reachable init (Steps step) t := by
  induction es generalizing s with
  | nil =>
    simp only [run, some.injEq] at h
    exact h ▸ hs
  | cons e es ih =>
    obtain ⟨u,hu,hrun⟩ := bind_eq_some_iff.mp h
    obtain ⟨s₀,h₀,hr⟩ := hs
    exact ih ⟨s₀,h₀,hr.tail ⟨e,hu⟩⟩ hrun

/-- Each event as often as its number says. -/
def repeated (es : List (ℕ × ε)) : List ε := es.flatMap fun (n, e) => replicate n e

theorem Reachable.of_run_property (step : σ → ε → Option σ) (s : σ) (es : List ε) (P : σ → Prop)
    (h : ∃ t, run step s es = some t ∧ P t) : ∃ t, Reachable (· = s) (Steps step) t ∧ P t := by
  obtain ⟨t,hr,hp⟩ := h
  exact ⟨t,Reachable.of_run ⟨s,rfl,.refl⟩ es hr,hp⟩

end

end Transition

namespace WhileLoop
variable {σ ρ : Type*} {P : σ → Prop} {s : σ}

def run (cond : σ → Bool) (body : σ → Option (σ ⊕ ρ)) : ℕ → σ → Option (σ ⊕ ρ)
  | 0, _ => none
  | turns+1, s =>
    if cond s then
      (body s).bind fun
        | .inl t => run cond body turns t
        | .inr r => some (.inr r)
    else some (.inl s)

variable (cond : σ → Bool) (body : σ → Option (σ ⊕ ρ))

/-- A body that keeps `P` and lowers the measure, or returns with `Q`, ends the
loop with `Q`. -/
theorem run_total {Q : σ ⊕ ρ → Prop} (measure : σ → ℕ) (turns : ℕ)
    (hbody : ∀ s, P s → cond s → ∃ r, body s = some r ∧
      r.elim (fun t => P t ∧ measure t < measure s) (fun x => Q (.inr x)))
    (hexit : ∀ s, P s → cond s = false → Q (.inl s)) (hs : P s) (ht : measure s < turns) :
    ∃ r, run cond body turns s = some r ∧ Q r := by
  induction turns generalizing s with
  | zero => omega
  | succ turns ih =>
    rw [run]
    cases hc : cond s with
    | false => exact ⟨_,rfl,hexit s hs hc⟩
    | true =>
      obtain ⟨r,hr,hq⟩ := hbody s hs hc
      rw [if_pos rfl, hr, Option.bind_some]
      cases r with
      | inl t => exact ih hq.1 (by have := hq.2; omega)
      | inr x => exact ⟨_,rfl,hq⟩

theorem run_eq {z : σ ⊕ ρ} (measure : σ → ℕ) (turns : ℕ)
    (hbody : ∀ s, P s → cond s → ∃ r, body s = some r ∧
      r.elim (fun t => P t ∧ measure t < measure s) (fun x => Sum.inr x = z))
    (hexit : ∀ s, P s → cond s = false → Sum.inl s = z)
    (hs : P s) (ht : measure s < turns) : run cond body turns s = some z := by
  obtain ⟨r,hr,rfl⟩ := run_total cond body (Q := (· = z)) measure turns hbody hexit hs ht
  exact hr

def loop (cond : σ → Bool) (body : σ → Option σ) (turns : ℕ) (s : σ) : Option σ :=
  (run cond (fun s => (body s).map Sum.inl) turns s).map (Sum.elim id Empty.elim)

theorem loop_total (cond : σ → Bool) (body : σ → Option σ) {Q : σ → Prop} (measure : σ → ℕ)
    (turns : ℕ)
    (hbody : ∀ s, P s → cond s → ∃ t, body s = some t ∧ P t ∧ measure t < measure s)
    (hexit : ∀ s, P s → cond s = false → Q s) (hs : P s) (ht : measure s < turns) :
    ∃ t, loop cond body turns s = some t ∧ Q t := by
  obtain ⟨r,hr,hq⟩ := run_total cond (fun s => (body s).map Sum.inl)
    (Q := fun r : σ ⊕ Empty => Q (r.elim id Empty.elim)) measure turns
    (fun s hs hc => by
      obtain ⟨t,hb,ht⟩ := hbody s hs hc
      exact ⟨.inl t,by rw [hb]; rfl,ht⟩)
    hexit hs ht
  exact ⟨_,by rw [loop, hr]; rfl,hq⟩

end WhileLoop

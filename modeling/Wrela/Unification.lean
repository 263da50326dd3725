import Mathlib.Algebra.GroupWithZero.Nat
import Mathlib.Data.Finset.Card
import Mathlib.Data.Finset.Union

/-!
# First-order terms and unification

Terms with variables, substitutions, and a decision procedure for equations
between terms. Nothing here depends on what the heads and variables are.
-/

set_option autoImplicit false

namespace Unification
open List

inductive Term (η ν : Type) where
  | var (x : ν)
  | app (head : η) (args : List (Term η ν))

section
variable {η ν μ π : Type} {ts : List (Term η ν)}

@[elab_as_elim]
theorem Term.induction {motive : Term η ν → Prop} (var : ∀ x, motive (.var x))
    (app : ∀ head args, (∀ a ∈ args, motive a) → motive (.app head args)) (t : Term η ν) :
    motive t :=
  @Term.rec η ν motive (fun ts => ∀ a ∈ ts, motive a) var app
    (fun _ h => absurd h not_mem_nil)
    (fun _ _ ht hts => forall_mem_cons.mpr ⟨ht,hts⟩) t

mutual

def Term.decEq [DecidableEq η] [DecidableEq ν] : (s t : Term η ν) → Decidable (s = t)
  | .var x, .var y => decidable_of_iff (x = y) (by rw [Term.var.injEq])
  | .var _, .app _ _ => isFalse (nomatch ·)
  | .app _ _, .var _ => isFalse (nomatch ·)
  | .app head as, .app head' bs =>
    have : Decidable (as = bs) := decEqs as bs
    decidable_of_iff (head = head' ∧ as = bs) (by rw [Term.app.injEq])

def decEqs [DecidableEq η] [DecidableEq ν] : (as bs : List (Term η ν)) → Decidable (as = bs)
  | [], [] => isTrue rfl
  | [], _::_ => isFalse (nomatch ·)
  | _::_, [] => isFalse (nomatch ·)
  | a::as, b::bs =>
    have : Decidable (a = b) := a.decEq b
    have : Decidable (as = bs) := decEqs as bs
    decidable_of_iff (a = b ∧ as = bs) (by rw [List.cons.injEq])

end

instance [DecidableEq η] [DecidableEq ν] : DecidableEq (Term η ν) := Term.decEq

mutual

def Term.subst (σ : ν → Term η μ) : Term η ν → Term η μ
  | .var x => σ x
  | .app head args => .app head (substs σ args)

def substs (σ : ν → Term η μ) : List (Term η ν) → List (Term η μ)
  | [] => []
  | t::ts => t.subst σ::substs σ ts

end

mutual

def Term.vars : Term η ν → List ν
  | .var x => [x]
  | .app _ args => varsOf args

def varsOf : List (Term η ν) → List ν
  | [] => []
  | t::ts => t.vars++varsOf ts

end

mutual

def Term.size : Term η ν → ℕ
  | .var _ => 1
  | .app _ args => sizes args+1

def sizes : List (Term η ν) → ℕ
  | [] => 0
  | t::ts => t.size+sizes ts

end

variable (σ : ν → Term η μ) {t : Term η ν}

theorem substs_eq_map (ts : List (Term η ν)) : substs σ ts = ts.map (Term.subst σ) := by
  induction ts with
  | nil => rfl
  | cons t ts ih => rw [substs, ih, map_cons]

theorem mem_varsOf {x : ν} : x ∈ varsOf ts ↔ ∃ t ∈ ts, x ∈ t.vars := by
  induction ts with
  | nil => simp [varsOf]
  | cons t ts ih => simp [varsOf, ih]

@[simp] theorem subst_var (x : ν) : (Term.var x).subst σ = σ x := rfl

theorem subst_app (head : η) (args : List (Term η ν)) :
    (Term.app head args).subst σ = .app head (args.map (Term.subst σ)) := by
  rw [Term.subst, substs_eq_map]

theorem subst_congr {σ τ : ν → Term η μ} (t : Term η ν) (h : ∀ x ∈ t.vars, σ x = τ x) :
    t.subst σ = t.subst τ := by
  induction t using Term.induction with
  | var x => exact h x (mem_singleton_self x)
  | app head args ih =>
    rw [subst_app, subst_app]
    refine congrArg _ (map_congr_left fun a ha => ih a ha fun x hx => ?_)
    exact h x (mem_varsOf.mpr ⟨a,ha,hx⟩)

theorem subst_subst (τ : μ → Term η π) (t : Term η ν) :
    (t.subst σ).subst τ = t.subst fun x => (σ x).subst τ := by
  induction t using Term.induction with
  | var x => rfl
  | app head args ih =>
    rw [subst_app, subst_app, subst_app, map_map]
    exact congrArg _ (map_congr_left ih)

theorem mem_vars_subst {σ : ν → Term η μ} {y : μ} :
    y ∈ (t.subst σ).vars ↔ ∃ x ∈ t.vars, y ∈ (σ x).vars := by
  induction t using Term.induction with
  | var x => simp [Term.vars]
  | app head args ih =>
    rw [subst_app, Term.vars, mem_varsOf, Term.vars]
    constructor
    · rintro ⟨b,hb,hy⟩
      obtain ⟨a,ha,rfl⟩ := mem_map.mp hb
      obtain ⟨x,hx,hy⟩ := (ih a ha).mp hy
      exact ⟨x,mem_varsOf.mpr ⟨a,ha,hx⟩,hy⟩
    · rintro ⟨x,hx,hy⟩
      obtain ⟨a,ha,hx⟩ := mem_varsOf.mp hx
      exact ⟨_,mem_map_of_mem ha,(ih a ha).mpr ⟨x,hx,hy⟩⟩

theorem size_le_sizes (h : t ∈ ts) : t.size ≤ sizes ts := by
  induction ts with
  | nil => cases h
  | cons u ts ih =>
    rw [sizes]
    rcases mem_cons.mp h with rfl | h
    · exact Nat.le_add_right _ _
    · exact Nat.le_trans (ih h) (Nat.le_add_left _ _)

/-- What a variable stands for is not larger than what a term with it stands for. -/
theorem size_subst_le {σ : ν → Term η μ} {x : ν} (h : x ∈ t.vars) :
    (σ x).size ≤ (t.subst σ).size := by
  induction t using Term.induction with
  | var y => rw [mem_singleton.mp h, subst_var]
  | app head args ih =>
    obtain ⟨a,ha,hx⟩ := mem_varsOf.mp h
    have hle : (a.subst σ).size ≤ sizes (args.map (Term.subst σ)) :=
      size_le_sizes (mem_map_of_mem ha)
    rw [subst_app, Term.size]
    exact le_trans (ih a ha hx) (Nat.le_succ_of_le hle)

/-- The occurs check: a variable is not equal to a larger term that has it. -/
theorem subst_ne_of_occurs {σ : ν → Term η μ} {head : η} {args : List (Term η ν)} {x : ν}
    (h : x ∈ (Term.app head args).vars) : σ x ≠ (Term.app head args).subst σ := by
  intro heq
  obtain ⟨a,ha,hx⟩ := mem_varsOf.mp h
  have hle := size_subst_le (σ := σ) hx
  have hlt : (a.subst σ).size ≤ sizes (args.map (Term.subst σ)) := size_le_sizes (mem_map_of_mem ha)
  have hsize := congrArg Term.size heq
  rw [subst_app, Term.size] at hsize
  omega

end

/-! ### Equations -/

section
variable {η ν μ : Type} {e : Term η ν × Term η ν} {t : Term η ν}

abbrev Equations (η ν : Type) := List (Term η ν × Term η ν)

def Unifies (σ : ν → Term η μ) (es : Equations η ν) : Prop :=
  ∀ e ∈ es, e.1.subst σ = e.2.subst σ

variable {es : Equations η ν} {σ : ν → Term η μ}

theorem unifies_cons : Unifies σ (e::es) ↔ e.1.subst σ = e.2.subst σ ∧ Unifies σ es := forall_mem_cons

/-- Equal heads and equally many arguments: the arguments are left to compare. -/
theorem unifies_app {head : η} {as bs : List (Term η ν)} (hlen : as.length = bs.length) :
    Unifies σ ((.app head as, .app head bs)::es) ↔ Unifies σ (as.zip bs++es) := by
  have hargs : as.map (Term.subst σ) = bs.map (Term.subst σ) ↔ Unifies σ (as.zip bs) := by
    induction as generalizing bs with
    | nil =>
      cases bs with
      | nil => exact iff_of_true rfl fun _ h => absurd h not_mem_nil
      | cons b bs => cases hlen
    | cons a as ih =>
      cases bs with
      | nil => cases hlen
      | cons b bs =>
        rw [map_cons, map_cons, List.cons.injEq, ih (Nat.succ.inj hlen),
          zip_cons_cons, unifies_cons]
  rw [unifies_cons, subst_app, subst_app, Term.app.injEq, hargs]
  simp only [true_and, Unifies, forall_mem_append]

def sizeIn (es : Equations η ν) : ℕ := (es.map fun e => e.1.size+e.2.size).sum

theorem sizeIn_zip_lt (head head' : η) (as bs : List (Term η ν)) (es : Equations η ν) :
    sizeIn (as.zip bs++es) < sizeIn ((.app head as, .app head' bs)::es) := by
  have hzip : sizeIn (as.zip bs) ≤ sizes as+sizes bs := by
    induction as generalizing bs with
    | nil => exact Nat.zero_le _
    | cons a as ih =>
      cases bs with
      | nil => exact Nat.zero_le _
      | cons b bs =>
        have := ih bs
        simp only [sizeIn, zip_cons_cons, map_cons, sum_cons, sizes] at this ⊢
        omega
  simp only [sizeIn, map_append, sum_append, map_cons, sum_cons, Term.size] at hzip ⊢
  omega

variable [DecidableEq ν]

def single (x : ν) (t : Term η ν) : ν → Term η ν := fun y => if y = x then t else .var y

def eliminate (x : ν) (t : Term η ν) (es : Equations η ν) : Equations η ν :=
  es.map fun e => (e.1.subst (single x t), e.2.subst (single x t))

def varsIn (es : Equations η ν) : Finset ν :=
  (es.flatMap fun e => e.1.vars++e.2.vars).toFinset

theorem mem_varsIn {x : ν} : x ∈ varsIn es ↔ ∃ e ∈ es, x ∈ e.1.vars ∨ x ∈ e.2.vars := by
  simp [varsIn]

/-- A variable that does not occur in a term is gone once the term replaces it. -/
theorem card_varsIn_eliminate {x : ν} (hx : x ∉ t.vars)
    (he : ∀ y, y ∈ e.1.vars ∨ y ∈ e.2.vars ↔ y = x ∨ y ∈ t.vars) (es : Equations η ν) :
    (varsIn (eliminate x t es)).card < (varsIn (e::es)).card := by
  have hkeep (u : Term η ν) {y : ν} (hy : y ∈ (u.subst (single x t)).vars) :
      y ≠ x ∧ (y ∈ u.vars ∨ y ∈ t.vars) := by
    obtain ⟨z,hz,hyz⟩ := mem_vars_subst.mp hy
    rw [single] at hyz
    split_ifs at hyz with hzx
    · exact ⟨fun h => hx (h ▸ hyz),.inr hyz⟩
    · rw [mem_singleton.mp hyz]
      exact ⟨hzx,.inl hz⟩
  have hmem {y : ν} (hy : y ∈ varsIn (eliminate x t es)) :
      y ≠ x ∧ y ∈ varsIn (e::es) := by
    obtain ⟨q,hq,hy⟩ := mem_varsIn.mp hy
    obtain ⟨p,hp,rfl⟩ := mem_map.mp hq
    have hcases : y ≠ x ∧ ((y ∈ p.1.vars ∨ y ∈ p.2.vars) ∨ y ∈ t.vars) := by
      rcases hy with hy | hy
      · exact ⟨(hkeep p.1 hy).1,(hkeep p.1 hy).2.imp_left .inl⟩
      · exact ⟨(hkeep p.2 hy).1,(hkeep p.2 hy).2.imp_left .inr⟩
    refine ⟨hcases.1,mem_varsIn.mpr ?_⟩
    rcases hcases.2 with h | h
    · exact ⟨p,mem_cons_of_mem _ hp,h⟩
    · exact ⟨e,mem_cons_self,(he y).mpr (.inr h)⟩
  refine Finset.card_lt_card ⟨fun y hy => (hmem hy).2,fun hsub => ?_⟩
  have hbefore : x ∈ varsIn (e::es) := mem_varsIn.mpr ⟨e,mem_cons_self,(he x).mpr (.inl rfl)⟩
  exact (hmem (hsub hbefore)).1 rfl

theorem card_varsIn_tail (e : Term η ν × Term η ν) (es : Equations η ν) :
    (varsIn es).card ≤ (varsIn (e::es)).card := by
  refine Finset.card_le_card fun y hy => ?_
  obtain ⟨p,hp,hy⟩ := mem_varsIn.mp hy
  exact mem_varsIn.mpr ⟨p,mem_cons_of_mem _ hp,hy⟩

theorem card_varsIn_zip (head head' : η) (as bs : List (Term η ν)) (es : Equations η ν) :
    (varsIn (as.zip bs++es)).card ≤ (varsIn ((.app head as, .app head' bs)::es)).card := by
  refine Finset.card_le_card fun y hy => ?_
  obtain ⟨p,hp,hy⟩ := mem_varsIn.mp hy
  rw [mem_varsIn]
  rcases mem_append.mp hp with hp | hp
  · refine ⟨_,mem_cons_self,hy.imp (fun h => ?_) fun h => ?_⟩
    · exact mem_varsOf.mpr ⟨p.1,(of_mem_zip hp).1,h⟩
    · exact mem_varsOf.mpr ⟨p.2,(of_mem_zip hp).2,h⟩
  · exact ⟨p,mem_cons_of_mem _ hp,hy⟩

variable [DecidableEq η]

/-- Whether some substitution makes both sides of every equation the same. -/
def unifiable : Equations η ν → Bool
  | [] => true
  | (.var x, .var y)::es =>
    if x = y then unifiable es else unifiable (eliminate x (.var y) es)
  | (.var x, .app head args)::es =>
    if x ∈ (Term.app head args).vars then false else unifiable (eliminate x (.app head args) es)
  | (.app head args, .var x)::es =>
    if x ∈ (Term.app head args).vars then false else unifiable (eliminate x (.app head args) es)
  | (.app head as, .app head' bs)::es =>
    if head = head' ∧ as.length = bs.length then unifiable (as.zip bs++es) else false
termination_by es => ((varsIn es).card, sizeIn es)
decreasing_by
  · refine Prod.Lex.right' _ (card_varsIn_tail _ es) ?_
    simp only [sizeIn, List.map_cons, List.sum_cons, Term.size]
    omega
  · refine Prod.Lex.left _ _ (card_varsIn_eliminate ?_ ?_ es)
    · simpa [Term.vars] using ‹¬ x = y›
    · simp [Term.vars]
  · refine Prod.Lex.left _ _ (card_varsIn_eliminate ‹_› ?_ es)
    simp [Term.vars]
  · refine Prod.Lex.left _ _ (card_varsIn_eliminate ‹_› ?_ es)
    simp [Term.vars, or_comm]
  · exact Prod.Lex.right' _ (card_varsIn_zip head head' as bs es)
      (sizeIn_zip_lt head head' as bs es)

omit [DecidableEq η] in
/-- A substitution that makes a variable and a term the same does not see the
difference when the term replaces the variable. -/
theorem subst_single {x : ν} (h : σ x = t.subst σ)
    (u : Term η ν) : (u.subst (single x t)).subst σ = u.subst σ := by
  rw [subst_subst]
  refine subst_congr u fun y _ => ?_
  rw [single]
  split_ifs with hy
  · rw [hy, h]
  · rfl

omit [DecidableEq η] in
theorem unifies_eliminate {σ : ν → Term η μ} {x : ν} (h : σ x = t.subst σ)
    (es : Equations η ν) : Unifies σ (eliminate x t es) ↔ Unifies σ es := by
  simp only [Unifies, eliminate, forall_mem_map, subst_single h]

omit [DecidableEq η] in
theorem exists_unifies_eliminate {σ : ν → Term η ν} {x : ν} (hx : x ∉ t.vars) {es : Equations η ν}
    (h : Unifies σ (eliminate x t es)) : ∃ τ : ν → Term η ν, τ x = t.subst τ ∧ Unifies τ es := by
  have hother (y : ν) (hy : y ≠ x) : (single x t y).subst σ = σ y := by
    rw [single, if_neg hy, subst_var]
  have hself : (single x t x).subst σ = t.subst fun y => (single x t y).subst σ := by
    rw [single, if_pos rfl]
    refine subst_congr t fun y hy => (hother y fun h => hx (h ▸ hy)).symm
  refine ⟨fun y => (single x t y).subst σ,hself,?_⟩
  intro e he
  have := h _ (mem_map_of_mem he)
  rwa [subst_subst, subst_subst] at this

theorem exists_unifies (h : unifiable es) : ∃ σ : ν → Term η ν, Unifies σ es := by
  induction es using unifiable.induct with
  | case1 => exact ⟨.var,fun _ he => absurd he not_mem_nil⟩
  | case2 y es ih =>
    rw [unifiable, if_pos rfl] at h
    obtain ⟨σ,hσ⟩ := ih h
    exact ⟨σ,unifies_cons.mpr ⟨rfl,hσ⟩⟩
  | case3 x y es hxy ih =>
    rw [unifiable, if_neg hxy] at h
    obtain ⟨σ,hσ⟩ := ih h
    obtain ⟨τ,hx,hτ⟩ := exists_unifies_eliminate (by simpa [Term.vars] using hxy) hσ
    exact ⟨τ,unifies_cons.mpr ⟨hx,hτ⟩⟩
  | case4 x head args es hx | case6 head args x es hx =>
    rw [unifiable, if_pos hx] at h
    cases h
  | case5 x head args es hx ih =>
    rw [unifiable, if_neg hx] at h
    obtain ⟨σ,hσ⟩ := ih h
    obtain ⟨τ,hx,hτ⟩ := exists_unifies_eliminate hx hσ
    exact ⟨τ,unifies_cons.mpr ⟨hx,hτ⟩⟩
  | case7 head args x es hx ih =>
    rw [unifiable, if_neg hx] at h
    obtain ⟨σ,hσ⟩ := ih h
    obtain ⟨τ,hx,hτ⟩ := exists_unifies_eliminate hx hσ
    exact ⟨τ,unifies_cons.mpr ⟨hx.symm,hτ⟩⟩
  | case8 head as head' bs es heq ih =>
    rw [unifiable, if_pos heq] at h
    obtain ⟨σ,hσ⟩ := ih h
    obtain ⟨rfl,hlen⟩ := heq
    exact ⟨σ,(unifies_app hlen).mpr hσ⟩
  | case9 head as head' bs es heq =>
    rw [unifiable, if_neg heq] at h
    cases h

/-- Equations with a solution, over whatever variables, get a positive answer. -/
theorem unifiable_of_unifies (h : Unifies σ es) : unifiable es := by
  induction es using unifiable.induct with
  | case1 => rw [unifiable]
  | case2 y es ih =>
    rw [unifiable, if_pos rfl]
    exact ih (unifies_cons.mp h).2
  | case3 x y es hx ih | case5 x head args es hx ih =>
    obtain ⟨he,hes⟩ := unifies_cons.mp h
    rw [unifiable, if_neg hx]
    exact ih ((unifies_eliminate he es).mpr hes)
  | case4 x head args es hx => exact absurd (unifies_cons.mp h).1 (subst_ne_of_occurs hx)
  | case6 head args x es hx => exact absurd (unifies_cons.mp h).1.symm (subst_ne_of_occurs hx)
  | case7 head args x es hx ih =>
    obtain ⟨he,hes⟩ := unifies_cons.mp h
    rw [unifiable, if_neg hx]
    exact ih ((unifies_eliminate he.symm es).mpr hes)
  | case8 head as head' bs es heq ih =>
    rw [unifiable, if_pos heq]
    obtain ⟨rfl,hlen⟩ := heq
    exact ih ((unifies_app hlen).mp h)
  | case9 head as head' bs es heq =>
    have he := (unifies_cons.mp h).1
    rw [subst_app, subst_app, Term.app.injEq] at he
    refine absurd ⟨he.1,?_⟩ heq
    simpa using congrArg List.length he.2

end

end Unification

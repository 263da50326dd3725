import Mathlib.Data.Finset.Card
import Mathlib.Data.Nat.Find

/-!
# Searches to a bound

Places hold items, and an item leads to further places. The search lists the items of
a place, each followed by what lies behind it, and gives up below a depth. It keeps no
marks, so an item that is reached in several ways is listed as often. Where every element
leads to one other, as many steps as there are different elements find what there is.
-/

set_option autoImplicit false

namespace DepthSearch
open List

section
variable {γ δ : Type}

/-- The lists of all elements together, if each has one. -/
def gather (f : γ → Option (List δ)) : List γ → Option (List δ)
  | [] => some []
  | x::xs => (f x).bind fun ys => (gather f xs).map (ys++·)

variable {f : γ → Option (List δ)}

theorem gather_isSome_iff {xs : List γ} :
    (gather f xs).isSome ↔ ∀ x ∈ xs, (f x).isSome := by
  induction xs with
  | nil => simp [gather]
  | cons x xs ih =>
    rw [gather, forall_mem_cons, ← ih]
    cases f x <;> simp

theorem mem_gather {xs : List γ} {ys : List δ} (h : gather f xs = some ys) {y : δ} :
    y ∈ ys ↔ ∃ x ∈ xs, ∃ zs, f x = some zs ∧ y ∈ zs := by
  induction xs generalizing ys with
  | nil =>
    cases h
    simp
  | cons x xs ih =>
    rw [gather] at h
    obtain ⟨zs,hzs,h⟩ := Option.bind_eq_some_iff.mp h
    obtain ⟨rest,hrest,rfl⟩ := Option.map_eq_some_iff.mp h
    simp [ih hrest, hzs]

variable {σ : Type}

/-- Steps over what an element lists, for each element, are steps over all that is
gathered. -/
theorem foldlM_gather {step : σ → δ → Option σ} {visit : σ → γ → Option σ}
    (h : ∀ s x, visit s x = (f x).bind fun ys => ys.foldlM step s) (xs : List γ) (s : σ) :
    xs.foldlM visit s = (gather f xs).bind fun ys => ys.foldlM step s := by
  induction xs generalizing s with
  | nil => rfl
  | cons x xs ih =>
    rw [foldlM_cons, h, gather]
    cases f x with
    | none => rfl
    | some ys =>
      simp only [Option.bind_some]
      cases hgather : gather f xs with
      | none =>
        rw [Option.map_none, Option.bind_none]
        cases hsteps : ys.foldlM step s with
        | none => rfl
        | some s' =>
          have := ih s'
          rw [hgather] at this
          exact this
      | some zs =>
        rw [Option.map_some, Option.bind_some, foldlM_append]
        refine bind_congr fun s' => ?_
        rw [ih, hgather]
        rfl

theorem foldlM_flatMap {step : σ → δ → Option σ} {g : γ → List δ} (xs : List γ) (s : σ) :
    (xs.flatMap g).foldlM step s = xs.foldlM (fun s x => (g x).foldlM step s) s := by
  induction xs generalizing s with
  | nil => rfl
  | cons x xs ih =>
    rw [flatMap_cons, foldlM_append, foldlM_cons]
    exact bind_congr fun s' => ih s'

theorem foldlM_congr {step step' : σ → γ → Option σ} {xs : List γ}
    (h : ∀ x ∈ xs, ∀ s, step s x = step' s x) (s : σ) : xs.foldlM step s = xs.foldlM step' s := by
  induction xs generalizing s with
  | nil => rfl
  | cons x xs ih =>
    rw [foldlM_cons, foldlM_cons, h x mem_cons_self]
    exact bind_congr fun s' => ih (fun y hy => h y (mem_cons_of_mem _ hy)) s'

theorem foldlM_skip {step : σ → γ → Option σ} {xs : List γ} {s : σ}
    (h : ∀ x ∈ xs, step s x = some s) : xs.foldlM step s = some s := by
  induction xs with
  | nil => rfl
  | cons x xs ih =>
    rw [foldlM_cons, h x mem_cons_self]
    exact ih fun y hy => h y (mem_cons_of_mem _ hy)

end

section
variable {α β : Type} (items : β → List α) (next : α → List β)

def walk : ℕ → β → Option (List α)
  | 0, _ => none
  | k+1, b => gather (fun a => (gather (walk k) (next a)).map (a::·)) (items b)

def Behind (b n : β) : Prop := ∃ a ∈ items b, n ∈ next a

def Nested : ℕ → β → Prop
  | 0, b => ∀ n, ¬ Behind items next b n
  | k+1, b => ∀ n, Behind items next b n → Nested k n

variable {items next}

theorem walk_isSome_iff (k : ℕ) (b : β) :
    (walk items next (k+1) b).isSome ↔ Nested items next k b := by
  induction k generalizing b with
  | zero =>
    simp only [walk, gather_isSome_iff, Option.isSome_map, Nested, Behind]
    constructor
    · rintro h n ⟨a,ha,hn⟩
      exact absurd (h a ha n hn) Bool.false_ne_true
    · intro h a ha n hn
      exact absurd ⟨a,ha,hn⟩ (h n)
  | succ k ih =>
    rw [walk, gather_isSome_iff, Nested]
    simp only [Option.isSome_map, gather_isSome_iff, ih]
    constructor
    · rintro h n ⟨a,ha,hn⟩
      exact h a ha n hn
    · intro h a ha n hn
      exact h n ⟨a,ha,hn⟩

theorem mem_walk_iff {k : ℕ} {b : β} {as : List α} (h : walk items next k b = some as) {a : α} :
    a ∈ as ↔ ∃ b', Relation.ReflTransGen (Behind items next) b b' ∧ a ∈ items b' := by
  induction k generalizing b as with
  | zero => cases h
  | succ k ih =>
    rw [walk] at h
    rw [mem_gather h]
    constructor
    · rintro ⟨first,hfirst,listed,hlisted,ha⟩
      obtain ⟨behind,hbehind,rfl⟩ := Option.map_eq_some_iff.mp hlisted
      obtain rfl|ha := mem_cons.mp ha
      · exact ⟨b,.refl,hfirst⟩
      · obtain ⟨n,hn,zs,hzs,ha⟩ := (mem_gather hbehind).mp ha
        obtain ⟨b',hreach,ha⟩ := (ih hzs).mp ha
        exact ⟨b',.head ⟨first,hfirst,hn⟩ hreach,ha⟩
    · rintro ⟨b',hreach,ha⟩
      have hlisted : ∀ first ∈ items b, ∃ behind, gather (walk items next k) (next first) =
          some behind := by
        intro first hfirst
        have hsome := gather_isSome_iff.mp (Option.isSome_iff_exists.mpr ⟨_,h⟩) first hfirst
        rw [Option.isSome_map] at hsome
        exact Option.isSome_iff_exists.mp hsome
      obtain rfl|⟨n,⟨first,hfirst,hn⟩,hreach⟩ := Relation.ReflTransGen.cases_head hreach
      · obtain ⟨behind,hbehind⟩ := hlisted a ha
        exact ⟨a,ha,a::behind,by rw [hbehind]; rfl,mem_cons_self⟩
      · obtain ⟨behind,hbehind⟩ := hlisted first hfirst
        refine ⟨first,hfirst,first::behind,by rw [hbehind]; rfl,mem_cons_of_mem _ ?_⟩
        obtain ⟨zs,hzs⟩ := Option.isSome_iff_exists.mp
          (gather_isSome_iff.mp (Option.isSome_iff_exists.mpr ⟨_,hbehind⟩) n hn)
        exact (mem_gather hbehind).mpr ⟨n,hn,zs,hzs,(ih hzs).mpr ⟨b',hreach,ha⟩⟩

variable (items next) {σ : Type} (step : σ → α → Option σ)

def visit : ℕ → β → σ → Option σ
  | 0, _, _ => none
  | k+1, b, s => (items b).foldlM (fun s a =>
      (step s a).bind fun s => (next a).foldlM (fun s n => visit k n s) s) s

theorem visit_eq (k : ℕ) (b : β) (s : σ) :
    visit items next step k b s = (walk items next k b).bind fun as => as.foldlM step s := by
  induction k generalizing b s with
  | zero => rfl
  | succ k ih =>
    rw [visit, walk]
    refine foldlM_gather (fun s a => ?_) (items b) s
    have hbehind := fun s => foldlM_gather (fun s n => ih n s) (next a) s
    simp only [hbehind]
    cases gather (walk items next k) (next a) with
    | none =>
      simp
    | some behind => rfl

end

end DepthSearch

namespace ChainSearch
variable {α : Type}

/-- A hit, the end of the chain, or no steps left. -/
inductive Outcome (α : Type) where
  | found (a : α)
  | ended
  | exhausted

section
variable (next : α → α) (ends hit : α → Prop)

def search [DecidablePred ends] [DecidablePred hit] : ℕ → α → Outcome α
  | 0, _ => .exhausted
  | n+1, a => if ends a then .ended else if hit a then .found a else search n (next a)

/-- The chain has an element at a place. -/
def Inside (a : α) (n : ℕ) : Prop := ∀ i ≤ n, ¬ ends (next^[i] a)

/-- The first hit is at a place of the chain. -/
structure First (a : α) (n : ℕ) : Prop where
  inside : Inside next ends a n
  before : ∀ i < n, ¬ hit (next^[i] a)
  reached : hit (next^[n] a)

end

variable {next : α → α} {ends hit : α → Prop} {a : α}

theorem First.succ {n : ℕ} (hends : ¬ ends a) (hhit : ¬ hit a)
    (h : First next ends hit (next a) n) : First next ends hit a (n+1) := by
  refine ⟨fun i hi => ?_,fun i hi => ?_,h.reached⟩
  · cases i with
    | zero => exact hends
    | succ i => exact h.inside i (by omega)
  · cases i with
    | zero => exact hhit
    | succ i => exact h.before i (by omega)

theorem search_eq_found_iff [DecidablePred ends] [DecidablePred hit] {n : ℕ} {b : α} :
    search next ends hit n a = .found b ↔ ∃ k < n, First next ends hit a k ∧ next^[k] a = b := by
  induction n generalizing a with
  | zero => simp [search]
  | succ n ih =>
    rw [search]
    split_ifs with hends hhit
    · refine iff_of_false nofun ?_
      rintro ⟨k,_,h,_⟩
      exact h.inside 0 k.zero_le hends
    · constructor
      · rintro ⟨⟩
        exact ⟨0,by omega,⟨fun i hi => by rwa [Nat.le_zero.mp hi],nofun,hhit⟩,rfl⟩
      · rintro ⟨k,_,h,rfl⟩
        cases k with
        | zero => rfl
        | succ k => exact absurd hhit (h.before 0 (by omega))
    · rw [ih]
      constructor
      · rintro ⟨k,hk,h,rfl⟩
        exact ⟨k+1,by omega,h.succ hends hhit,rfl⟩
      · rintro ⟨k,hk,h,rfl⟩
        cases k with
        | zero => exact absurd h.reached hhit
        | succ k =>
          exact ⟨k,by omega,⟨fun i hi => h.inside (i+1) (by omega),
            fun i hi => h.before (i+1) (by omega),h.reached⟩,rfl⟩

/-- Two equal elements up to the first hit would repeat it at an earlier place. -/
theorem First.lt_card {n : ℕ} {s : Finset α} (h : First next ends hit a n)
    (hs : ∀ i, Inside next ends a i → next^[i] a ∈ s) : n < s.card := by
  have hapart : ∀ i j, i < j → j ≤ n → next^[i] a ≠ next^[j] a := by
    intro i j hij hj heq
    refine h.before (n-j+i) (by omega) ?_
    rw [Function.iterate_add_apply, heq, ← Function.iterate_add_apply, Nat.sub_add_cancel hj]
    exact h.reached
  have hcard : (Finset.range (n+1)).card ≤ s.card := by
    refine Finset.card_le_card_of_injOn (fun i => next^[i] a) (fun i hi => ?_) ?_
    · have := Finset.mem_range.mp hi
      exact hs i fun k hk => h.inside k (by omega)
    · intro i hi j hj heq
      have := Finset.mem_range.mp hi
      have := Finset.mem_range.mp hj
      obtain hij|rfl|hij := lt_trichotomy i j
      · exact absurd heq (hapart i j hij (by omega))
      · rfl
      · exact absurd heq.symm (hapart j i hij (by omega))
  rwa [Finset.card_range] at hcard

theorem exists_first_iff [DecidablePred hit] :
    (∃ n, First next ends hit a n) ↔ ∃ n, Inside next ends a n ∧ hit (next^[n] a) := by
  constructor
  · rintro ⟨n,h⟩
    exact ⟨n,h.inside,h.reached⟩
  · rintro ⟨n,hn,hhit⟩
    have hex : ∃ k, hit (next^[k] a) := ⟨n,hhit⟩
    have hle := Nat.find_le (h := hex) hhit
    exact ⟨Nat.find hex,fun i hi => hn i (hi.trans hle),fun i => Nat.find_min hex,
      Nat.find_spec hex⟩

end ChainSearch

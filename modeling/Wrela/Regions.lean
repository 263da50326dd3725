import Mathlib.Data.List.Pairwise
import Mathlib.Data.Set.Lattice
import Mathlib.Order.CompletePartialOrder

/-!
# Nested regions

Regions that are opened one inside another and closed in stack order, over sets
of an arbitrary type. Level zero is the region everything is taken from. A
region that is closed gives back all that was free in its parent when it was
opened, so what the parent handed out in the meantime is lost; as long as a
region hands nothing out while one opened from it is open, whatever is held
from open regions stays apart.
-/

set_option autoImplicit false

namespace Regions
open Function

variable {α : Type*}

/-- `rest` is what was free in the parent when the region was opened; `live`
holds what was taken, with the level it was taken from. -/
structure Nest (α : Type*) where
  depth : ℕ
  parent : ℕ → ℕ
  free : ℕ → Set α
  rest : ℕ → Set α
  live : List (ℕ × Set α)

namespace Nest

variable (n : Nest α)

def allocate (j : ℕ) (taken left : Set α) : Nest α :=
  {n with free := update n.free j left, live := (j, taken)::n.live}

def push (p : ℕ) (inside left : Set α) : Nest α where
  depth := n.depth+1
  parent := update n.parent (n.depth+1) p
  free := update (update n.free p left) (n.depth+1) inside
  rest := update n.rest (n.depth+1) (n.free p)
  live := n.live

def pop : Nest α where
  depth := n.depth-1
  parent := n.parent
  free := update n.free (n.parent n.depth) (n.rest n.depth)
  rest := n.rest
  live := n.live.filter (·.1 ≠ n.depth)

def Childless (j : ℕ) : Prop := ∀ d, 0 < d → d ≤ n.depth → n.parent d ≠ j

structure Separated (n : Nest α) : Prop where
  parent_lt : ∀ d, 0 < d → d ≤ n.depth → n.parent d < d
  level_le : ∀ a ∈ n.live, a.1 ≤ n.depth
  apart : n.live.Pairwise fun a b => Disjoint a.2 b.2
  live_free : ∀ a ∈ n.live, ∀ l ≤ n.depth, Disjoint a.2 (n.free l)
  free_free : ∀ l ≤ n.depth, ∀ k ≤ n.depth, l ≠ k → Disjoint (n.free l) (n.free k)
  live_rest : ∀ d, 0 < d → d ≤ n.depth → ∀ a ∈ n.live, a.1 < d → Disjoint a.2 (n.rest d)
  free_rest : ∀ d, 0 < d → d ≤ n.depth → ∀ l < d, l ≠ n.parent d → Disjoint (n.free l) (n.rest d)
  rest_rest : ∀ d, 0 < d → ∀ e ≤ n.depth, d < e → n.parent e < d → n.parent e ≠ n.parent d →
    Disjoint (n.rest e) (n.rest d)

variable {n : Nest α}

namespace Separated

theorem single (n : Nest α) (hd : n.depth = 0) (hl : n.live = []) : n.Separated where
  parent_lt := by omega
  level_le := by simp [hl]
  apart := by simp [hl]
  live_free := by simp [hl]
  free_free := by omega
  live_rest := by omega
  free_rest := by omega
  rest_rest := by omega

theorem allocate (h : n.Separated) {j : ℕ} {taken left : Set α} (hj : j ≤ n.depth)
    (hc : n.Childless j) (ht : taken ⊆ n.free j) (hl : left ⊆ n.free j)
    (hd : Disjoint taken left) : (n.allocate j taken left).Separated where
  parent_lt := h.parent_lt
  level_le a ha := by
    rcases List.mem_cons.mp ha with rfl | ha
    · exact hj
    · exact h.level_le a ha
  apart := by
    refine List.pairwise_cons.mpr ⟨fun a ha => ?_,h.apart⟩
    exact (h.live_free a ha j hj).symm.mono_left ht
  live_free a ha l hle := by
    simp only [Nest.allocate, update_apply]
    rcases List.mem_cons.mp ha with rfl | ha
    · split_ifs with hlj
      · exact hd
      · exact (h.free_free j hj l hle (Ne.symm hlj)).mono_left ht
    · split_ifs with hlj
      · exact (h.live_free a ha j hj).mono_right hl
      · exact h.live_free a ha l hle
  free_free l hle k hke hne := by
    simp only [Nest.allocate, update_apply]
    split_ifs with hlj hkj hkj
    · exact absurd (hlj.trans hkj.symm) hne
    · exact (h.free_free j hj k hke (Ne.symm hkj)).mono_left hl
    · exact (h.free_free l hle j hj hlj).mono_right hl
    · exact h.free_free l hle k hke hne
  live_rest d hd0 hde a ha had := by
    rcases List.mem_cons.mp ha with rfl | ha
    · exact (h.free_rest d hd0 hde j had (hc d hd0 hde).symm).mono_left ht
    · exact h.live_rest d hd0 hde a ha had
  free_rest d hd0 hde l hld hlp := by
    simp only [Nest.allocate, update_apply]
    split_ifs with hlj
    · exact (h.free_rest d hd0 hde j (hlj ▸ hld) (hlj ▸ hlp)).mono_left hl
    · exact h.free_rest d hd0 hde l hld hlp
  rest_rest := h.rest_rest

theorem push (h : n.Separated) {p : ℕ} {inside left : Set α} (hp : p ≤ n.depth)
    (hi : inside ⊆ n.free p) (hl : left ⊆ n.free p) (hd : Disjoint inside left) :
    (n.push p inside left).Separated where
  parent_lt d hd0 hde := by
    simp only [Nest.push, update_apply] at hde ⊢
    split_ifs with hdn
    · omega
    · exact h.parent_lt d hd0 (by omega)
  level_le a ha := Nat.le_succ_of_le (h.level_le a ha)
  apart := h.apart
  live_free a ha l hle := by
    simp only [Nest.push, update_apply] at hle ⊢
    split_ifs with hln hlp
    · exact (h.live_free a ha p hp).mono_right hi
    · exact (h.live_free a ha p hp).mono_right hl
    · exact h.live_free a ha l (by omega)
  free_free l hle k hke hne := by
    simp only [Nest.push, update_apply] at hle hke ⊢
    split_ifs with hln hkn hkp hlp hkn hkp hkn hkp
    · exact absurd (hln.trans hkn.symm) hne
    · exact hd
    · exact (h.free_free p hp k (by omega) (Ne.symm hkp)).mono_left hi
    · exact hd.symm
    · exact absurd (hlp.trans hkp.symm) hne
    · exact (h.free_free p hp k (by omega) (Ne.symm hkp)).mono_left hl
    · exact (h.free_free l (by omega) p hp hlp).mono_right hi
    · exact (h.free_free l (by omega) p hp hlp).mono_right hl
    · exact h.free_free l (by omega) k (by omega) hne
  live_rest d hd0 hde a ha had := by
    simp only [Nest.push, update_apply] at hde ⊢
    split_ifs with hdn
    · exact h.live_free a ha p hp
    · exact h.live_rest d hd0 (by omega) a ha had
  free_rest d hd0 hde l hld hlp := by
    simp only [Nest.push, update_apply] at hde hlp ⊢
    rw [if_neg (show ¬ l = n.depth+1 by omega)]
    by_cases hdn : d = n.depth+1
    · rw [if_pos hdn] at hlp ⊢
      rw [if_neg hlp]
      exact h.free_free l (by omega) p hp hlp
    · rw [if_neg hdn] at hlp ⊢
      split_ifs with hlp'
      · exact (h.free_rest d hd0 (by omega) p (hlp' ▸ hld) (hlp' ▸ hlp)).mono_left hl
      · exact h.free_rest d hd0 (by omega) l hld hlp
  rest_rest d hd0 e hee hde hpe hne := by
    simp only [Nest.push, update_apply] at hee hpe hne ⊢
    rw [if_neg (show ¬ d = n.depth+1 by omega)] at hne ⊢
    by_cases hen : e = n.depth+1
    · rw [if_pos hen] at hpe hne ⊢
      exact h.free_rest d hd0 (by omega) p hpe hne
    · rw [if_neg hen] at hpe hne ⊢
      exact h.rest_rest d hd0 e (by omega) hde hpe hne

theorem pop (h : n.Separated) (hn : 0 < n.depth) : n.pop.Separated := by
  have hlive : ∀ a ∈ n.pop.live, a ∈ n.live ∧ a.1 < n.depth := by
    intro a ha
    simp only [Nest.pop, List.mem_filter, decide_eq_true_eq] at ha
    exact ⟨ha.1,lt_of_le_of_ne (h.level_le a ha.1) ha.2⟩
  -- the parent has what it had when the region was opened
  have hrest : ∀ l < n.depth, l ≠ n.parent n.depth → Disjoint (n.free l) (n.rest n.depth) :=
    h.free_rest n.depth hn le_rfl
  constructor
  case parent_lt =>
    intro d hd0 hde
    exact h.parent_lt d hd0 (hde.trans (Nat.sub_le _ _))
  case level_le =>
    intro a ha
    exact Nat.le_sub_one_of_lt (hlive a ha).2
  case apart => exact h.apart.filter _
  case live_free =>
    intro a ha l hle
    obtain ⟨ha,hlt⟩ := hlive a ha
    simp only [Nest.pop, update_apply] at hle ⊢
    split_ifs with hlp
    · exact h.live_rest n.depth hn le_rfl a ha hlt
    · exact h.live_free a ha l (by omega)
  case free_free =>
    intro l hle k hke hne
    simp only [Nest.pop, update_apply] at hle hke ⊢
    split_ifs with hlp hkp hkp
    · exact absurd (hlp.trans hkp.symm) hne
    · exact (hrest k (by omega) hkp).symm
    · exact hrest l (by omega) hlp
    · exact h.free_free l (by omega) k (by omega) hne
  case live_rest =>
    intro d hd0 hde a ha had
    exact h.live_rest d hd0 (hde.trans (Nat.sub_le _ _)) a (hlive a ha).1 had
  case free_rest =>
    intro d hd0 hde l hld hlp
    simp only [Nest.pop, update_apply] at hde hlp ⊢
    split_ifs with hl
    · subst hl
      exact h.rest_rest d hd0 n.depth le_rfl (by omega) hld hlp
    · exact h.free_rest d hd0 (by omega) l hld hlp
  case rest_rest =>
    intro d hd0 e hee
    exact h.rest_rest d hd0 e (hee.trans (Nat.sub_le _ _))

theorem congr {m : Nest α} (h : n.Separated) (hd : m.depth = n.depth) (hl : m.live = n.live)
    (hp : ∀ d, 0 < d → d ≤ n.depth → m.parent d = n.parent d)
    (hf : ∀ l ≤ n.depth, m.free l = n.free l)
    (hr : ∀ d, 0 < d → d ≤ n.depth → m.rest d = n.rest d) : m.Separated where
  parent_lt d hd0 hde := by
    rw [hd] at hde
    rw [hp d hd0 hde]
    exact h.parent_lt d hd0 hde
  level_le a ha := by
    rw [hl] at ha
    rw [hd]
    exact h.level_le a ha
  apart := hl ▸ h.apart
  live_free a ha l hle := by
    rw [hl] at ha
    rw [hd] at hle
    rw [hf l hle]
    exact h.live_free a ha l hle
  free_free l hle k hke hne := by
    rw [hd] at hle hke
    rw [hf l hle, hf k hke]
    exact h.free_free l hle k hke hne
  live_rest d hd0 hde a ha had := by
    rw [hl] at ha
    rw [hd] at hde
    rw [hr d hd0 hde]
    exact h.live_rest d hd0 hde a ha had
  free_rest d hd0 hde l hld hlp := by
    rw [hd] at hde
    rw [hp d hd0 hde] at hlp
    rw [hf l (by omega), hr d hd0 hde]
    exact h.free_rest d hd0 hde l hld hlp
  rest_rest d hd0 e hee hde hpe hne := by
    rw [hd] at hee
    rw [hp e (by omega) hee] at hpe hne
    rw [hp d hd0 (by omega)] at hne
    rw [hr e (by omega) hee, hr d hd0 (by omega)]
    exact h.rest_rest d hd0 e hee hde hpe hne

end Separated

end Nest

end Regions

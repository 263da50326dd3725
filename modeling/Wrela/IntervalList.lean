import Mathlib.Order.Interval.Finset.Nat
import Mathlib.Algebra.GroupWithZero.Nat

/-!
# Lists of intervals

Half-open intervals of a linear order, kept in a list from left to right. A set
that is a finite union of intervals has exactly one canonical list, the one of
its maximal intervals: neighbours of such a list have a gap between them. Going
through a list of disjoint intervals once and joining neighbours that touch
gives that list.
-/

set_option autoImplicit false

namespace IntervalList
open List

variable {α : Type*} [LinearOrder α]

def Has (i : α × α) (x : α) : Prop := i.1 ≤ x ∧ x < i.2

variable (l : List (α × α))

def Covers (x : α) : Prop := ∃ i ∈ l, Has i x

def Proper : Prop := ∀ i ∈ l, i.1 < i.2

def Spread : Prop := l.Pairwise fun i j => i.2 ≤ j.1

structure Canonical (l : List (α × α)) : Prop where
  proper : Proper l
  gaps : l.Pairwise fun i j => i.2 < j.1

def Apart (i j : α × α) : Prop := ∀ x, ¬ (Has i x ∧ Has j x)

def joinFrom : α × α → List (α × α) → List (α × α)
  | cur, [] => [cur]
  | cur, i::l => if cur.2 = i.1 then joinFrom (cur.1,i.2) l else cur::joinFrom i l

/-! ## Disjoint intervals -/

section
variable {i j : α × α} {l l' : List (α × α)} {x : α}

theorem spread_cons : Spread (i::l) ↔ (∀ j ∈ l, i.2 ≤ j.1) ∧ Spread l := pairwise_cons

theorem apart_iff (hi : i.1 < i.2) (hj : j.1 < j.2) : Apart i j ↔ i.2 ≤ j.1 ∨ j.2 ≤ i.1 := by
  constructor
  · intro h
    by_contra hno
    rw [not_or, not_le, not_le] at hno
    -- the later of the two starts lies in both
    apply h (max i.1 j.1)
    exact ⟨⟨le_max_left _ _,max_lt hi hno.1⟩,⟨le_max_right _ _,max_lt hno.2 hj⟩⟩
  · rintro (h | h) x ⟨⟨hi1,hi2⟩,hj1,hj2⟩
    · exact absurd (hi2.trans_le (h.trans hj1)) (lt_irrefl x)
    · exact absurd (hj2.trans_le (h.trans hi1)) (lt_irrefl x)

theorem Apart.symm (h : Apart i j) : Apart j i := fun x hx => h x ⟨hx.2,hx.1⟩

/-- In a list ordered by starts it is enough to compare ends with later starts. -/
theorem spread_iff_apart (hp : Proper l) (hs : l.Pairwise fun i j => i.1 ≤ j.1) :
    Spread l ↔ l.Pairwise Apart := by
  induction l with
  | nil => exact ⟨fun _ => .nil,fun _ => .nil⟩
  | cons i l ih =>
    obtain ⟨hle,hs⟩ := pairwise_cons.mp hs
    have hi : i.1 < i.2 := hp i (by simp)
    have hl : Proper l := fun j hj => hp j (by simp [hj])
    have hhead : (∀ j ∈ l, i.2 ≤ j.1) ↔ ∀ j ∈ l, Apart i j := by
      refine forall₂_congr fun j hj => ?_
      rw [apart_iff hi (hl j hj)]
      refine ⟨Or.inl,fun h => h.resolve_right fun hji => ?_⟩
      exact absurd (((hl j hj).trans_le hji).trans_le (hle j hj)) (lt_irrefl _)
    rw [spread_cons, pairwise_cons, hhead]
    exact and_congr_right fun _ => ih hl hs

theorem covers_perm (h : l.Perm l') : Covers l x ↔ Covers l' x := by
  simp [Covers, h.mem_iff]

end

/-! ## The canonical list of a set -/

section
variable {i j : α × α} {l l' : List (α × α)} {x : α}

theorem covers_cons : Covers (i::l) x ↔ Has i x ∨ Covers l x := by simp [Covers]

theorem Canonical.tail (h : Canonical (i::l)) : Canonical l :=
  ⟨fun j hj => h.proper j (by simp [hj]),(pairwise_cons.mp h.gaps).2⟩

theorem Canonical.spread (h : Canonical l) : Spread l := h.gaps.imp le_of_lt

section
variable (h : Canonical (i::l))
include h

theorem Canonical.above (hx : Covers l x) : i.2 < x := by
  obtain ⟨j,hj,hjx,_⟩ := hx
  exact ((pairwise_cons.mp h.gaps).1 j hj).trans_le hjx

theorem Canonical.not_covers_stop : ¬ Covers (i::l) i.2 := by
  rw [covers_cons]
  rintro (hi | hl)
  · exact absurd hi.2 (lt_irrefl _)
  · exact absurd (h.above hl) (lt_irrefl _)

theorem Canonical.covers_start : Covers (i::l) i.1 :=
  covers_cons.mpr (.inl ⟨le_rfl,h.proper i (by simp)⟩)

theorem Canonical.start_le (hx : Covers (i::l) x) : i.1 ≤ x := by
  obtain hi | hl := covers_cons.mp hx
  · exact hi.1
  · exact ((h.proper i (by simp)).trans (h.above hl)).le

end

theorem stop_le (hx : i.1 ≤ x) (hn : ¬ Covers (i::l) x) : i.2 ≤ x := by
  by_contra hlt
  exact hn (covers_cons.mpr (.inl ⟨hx,not_le.mp hlt⟩))

theorem Canonical.head_eq (h : Canonical (i::l)) (h' : Canonical (j::l'))
    (hc : ∀ x, Covers (i::l) x ↔ Covers (j::l') x) : i = j := by
  have hstart : i.1 = j.1 :=
    le_antisymm (h.start_le ((hc _).mpr h'.covers_start)) (h'.start_le ((hc _).mp h.covers_start))
  have hij : i.2 ≤ j.2 := by
    apply stop_le (l := l)
    · exact hstart ▸ (h'.proper j (by simp)).le
    · exact fun hx => h'.not_covers_stop ((hc _).mp hx)
  have hji : j.2 ≤ i.2 := by
    apply stop_le (l := l')
    · exact hstart ▸ (h.proper i (by simp)).le
    · exact fun hx => h.not_covers_stop ((hc _).mpr hx)
  exact Prod.ext hstart (le_antisymm hij hji)

theorem Canonical.covers_tail_iff (h : Canonical (i::l)) :
    Covers l x ↔ Covers (i::l) x ∧ i.2 < x := by
  constructor
  · intro hx
    exact ⟨covers_cons.mpr (.inr hx),h.above hx⟩
  · rintro ⟨hx,hlt⟩
    exact (covers_cons.mp hx).resolve_left fun hi => absurd (hi.2.trans hlt) (lt_irrefl x)

theorem Canonical.take (h : Canonical l) (n : ℕ) : Canonical (l.take n) :=
  ⟨fun j hj => h.proper j (mem_of_mem_take hj),h.gaps.sublist (take_sublist n l)⟩

theorem Covers.of_take {n : ℕ} (h : Covers (l.take n) x) : Covers l x := by
  obtain ⟨j,hj,hx⟩ := h
  exact ⟨j,mem_of_mem_take hj,hx⟩

theorem Canonical.ext (h : Canonical l) (h' : Canonical l')
    (hc : ∀ x, Covers l x ↔ Covers l' x) : l = l' := by
  induction l generalizing l' with
  | nil =>
    cases l' with
    | nil => rfl
    | cons j l' =>
      obtain ⟨i,hi,_⟩ := (hc j.1).mpr h'.covers_start
      cases hi
  | cons i l ih =>
    cases l' with
    | nil =>
      obtain ⟨j,hj,_⟩ := (hc i.1).mp h.covers_start
      cases hj
    | cons j l' =>
      obtain rfl := h.head_eq h' hc
      have htail : l = l' := by
        apply ih h.tail h'.tail
        intro x
        rw [h.covers_tail_iff, h'.covers_tail_iff, hc x]
      rw [htail]

end

/-! ## Joining neighbours -/

section
variable {cur i : α × α} {l : List (α × α)} {x : α}

theorem Spread.joined (hp : Proper (cur::i::l)) (hs : Spread (cur::i::l)) :
    Proper ((cur.1,i.2)::l) ∧ Spread ((cur.1,i.2)::l) := by
  obtain ⟨hcur,hs⟩ := spread_cons.mp hs
  obtain ⟨hi,hs⟩ := spread_cons.mp hs
  have hfirst : cur.1 < cur.2 := hp cur (by simp)
  have hsecond : i.1 < i.2 := hp i (by simp)
  refine ⟨fun j hj => ?_,spread_cons.mpr ⟨hi,hs⟩⟩
  obtain rfl | hj := mem_cons.mp hj
  · exact hfirst.trans_le ((hcur i (by simp)).trans hsecond.le)
  · exact hp j (by simp [hj])

theorem Spread.tail (hs : Spread (cur::l)) : Spread l := (spread_cons.mp hs).2

section
variable (hp : Proper (cur::l))
include hp

theorem Proper.tail : Proper l := fun j hj => hp j (by simp [hj])

theorem joinFrom_start_le (hs : Spread (cur::l)) : ∀ j ∈ joinFrom cur l, cur.1 ≤ j.1 := by
  induction l generalizing cur with
  | nil => simp [joinFrom]
  | cons i l ih =>
    intro j hj
    rw [joinFrom] at hj
    split at hj
    · obtain ⟨hp',hs'⟩ := hs.joined hp
      exact ih hp' hs' j hj
    · have hle : cur.1 ≤ i.1 :=
        (hp cur (by simp)).le.trans ((spread_cons.mp hs).1 i (by simp))
      obtain rfl | hj := mem_cons.mp hj
      · exact le_rfl
      · exact hle.trans (ih hp.tail hs.tail j hj)

theorem joinFrom_canonical (hs : Spread (cur::l)) : Canonical (joinFrom cur l) := by
  induction l generalizing cur with
  | nil => exact ⟨hp,pairwise_singleton _ _⟩
  | cons i l ih =>
    rw [joinFrom]
    split
    · obtain ⟨hp',hs'⟩ := hs.joined hp
      exact ih hp' hs'
    · rename_i hne
      have hrest := ih hp.tail hs.tail
      have hlt : cur.2 < i.1 := lt_of_le_of_ne ((spread_cons.mp hs).1 i (by simp)) hne
      refine ⟨fun j hj => ?_,pairwise_cons.mpr ⟨fun j hj => ?_,hrest.gaps⟩⟩
      · obtain rfl | hj := mem_cons.mp hj
        · exact hp j (by simp)
        · exact hrest.proper j hj
      · exact hlt.trans_le (joinFrom_start_le hp.tail hs.tail j hj)

theorem covers_joinFrom (hs : Spread (cur::l)) : Covers (joinFrom cur l) x ↔ Covers (cur::l) x := by
  induction l generalizing cur with
  | nil => rfl
  | cons i l ih =>
    rw [joinFrom]
    split
    · rename_i htouch
      obtain ⟨hp',hs'⟩ := hs.joined hp
      have hjoin : Has (cur.1,i.2) x ↔ Has cur x ∨ Has i x := by
        have hcur : cur.1 < cur.2 := hp cur (by simp)
        have hi : i.1 < i.2 := hp i (by simp)
        simp only [Has, htouch] at *
        constructor
        · rintro ⟨h1,h2⟩
          obtain h | h := lt_or_ge x i.1
          · exact .inl ⟨h1,h⟩
          · exact .inr ⟨h,h2⟩
        · rintro (⟨h1,h2⟩ | ⟨h1,h2⟩)
          · exact ⟨h1,h2.trans hi⟩
          · exact ⟨hcur.le.trans h1,h2⟩
      rw [ih hp' hs', covers_cons, covers_cons, covers_cons, hjoin, or_assoc]
    · rw [covers_cons, ih hp.tail hs.tail, ← covers_cons]

end

end

/-! ## Counting -/

section
variable {i : ℕ × ℕ} {l : List (ℕ × ℕ)} {x : ℕ}

def size (l : List (ℕ × ℕ)) : ℕ := (l.map fun i => i.2-i.1).sum

def cells : List (ℕ × ℕ) → Finset ℕ
  | [] => ∅
  | i::l => Finset.Ico i.1 i.2 ∪ cells l

theorem mem_cells : x ∈ cells l ↔ Covers l x := by
  induction l with
  | nil => simp [cells, Covers]
  | cons i l ih => rw [cells, Finset.mem_union, ih, covers_cons, Finset.mem_Ico, Has]

theorem card_cells (h : l.Pairwise Apart) : (cells l).card = size l := by
  induction l with
  | nil => rfl
  | cons i l ih =>
    obtain ⟨hi,hl⟩ := pairwise_cons.mp h
    have hdisjoint : Disjoint (Finset.Ico i.1 i.2) (cells l) := by
      rw [Finset.disjoint_left]
      intro x hx hx'
      obtain ⟨j,hj,hjx⟩ := mem_cells.mp hx'
      exact hi j hj x ⟨Finset.mem_Ico.mp hx,hjx⟩
    rw [cells, Finset.card_union_of_disjoint hdisjoint, ih hl, Nat.card_Ico, size, size,
      map_cons, sum_cons]

theorem Canonical.apart (h : Canonical l) : l.Pairwise Apart := by
  have hstarts : l.Pairwise fun i j => i.1 ≤ j.1 := by
    refine h.gaps.imp_of_mem ?_
    intro i j hi _ hij
    exact ((h.proper i hi).trans hij).le
  exact (spread_iff_apart h.proper hstarts).mp h.spread

theorem size_cut {l' : List (ℕ × ℕ)} (h : l.Pairwise Apart) (h' : l'.Pairwise Apart)
    (hcovers : ∀ x, Covers l x ↔ Has i x ∨ Covers l' x)
    (hapart : ∀ x, Has i x → ¬ Covers l' x) : size l = (i.2-i.1)+size l' := by
  have hcells : cells l = cells (i::l') := by
    ext x
    rw [mem_cells, mem_cells, hcovers, covers_cons]
  have hall : (i::l').Pairwise Apart := by
    refine pairwise_cons.mpr ⟨?_,h'⟩
    intro j hj x hx
    exact hapart x hx.1 ⟨j,hj,hx.2⟩
  rw [← card_cells h, hcells, card_cells hall, size, size, map_cons, sum_cons]

end

/-- The list is the one of the maximal intervals of a set. -/
structure Decomposes (l : List (α × α)) (S : α → Prop) : Prop where
  canonical : Canonical l
  covers : ∀ x, Covers l x ↔ S x

theorem Decomposes.unique {l l' : List (α × α)} {S : α → Prop} (h : Decomposes l S)
    (h' : Decomposes l' S) : l = l' :=
  h.canonical.ext h'.canonical fun x => (h.covers x).trans (h'.covers x).symm

end IntervalList

import Wrela.Storage.FreeExtents
import Wrela.Transition

/-!
# Runs of the free-extent list

The list of free extents under any sequence of `Allocate` and `Free` calls, with
a ledger of what was handed out and what was given back. The list keeps its
form and its books as long as not all 2^64 blocks are free at once; then the
count of the one extent that is left wraps to zero and the free space is lost.
-/

set_option autoImplicit false

namespace Wrela.FreeExtents
open IntervalList List Option Transition

variable {l : FreeExtentList} {e : Extent} {es : List Extent}

/-! ## The ledger -/

inductive Entry where
  | handedOut (extent : Extent)
  | freed (extent : Extent)
  deriving DecidableEq, Repr

/-- The block was handed out and has not been freed since; newest entry first. -/
def Outstanding : List Entry → ℕ → Prop
  | [], _ => False
  | .handedOut e::history, b => Has e.blocks b ∨ Outstanding history b
  | .freed e::history, b => ¬ Has e.blocks b ∧ Outstanding history b

def blocksHandedOut : List Entry → ℕ
  | [] => 0
  | .handedOut e::history => e.blockCount.toNat+blocksHandedOut history
  | .freed _::history => blocksHandedOut history

def blocksFreed : List Entry → ℕ
  | [] => 0
  | .handedOut _::history => blocksFreed history
  | .freed e::history => e.blockCount.toNat+blocksFreed history

structure Ledger where
  list : FreeExtentList
  history : List Entry
  fits : Bool
  deriving DecidableEq, Repr

def Ledger.start (capacity : UInt64) : Ledger := ⟨newFreeExtentList capacity,[],true⟩

inductive Call where
  | allocate (blockCount : UInt64)
  | free (extent : Extent)
  deriving DecidableEq, Repr

def Extent.DisjointFrom (e x : Extent) : Prop :=
  e.blockCount = 0 ∨ x.blockCount = 0 ∨ e.blocks.2 ≤ x.blocks.1 ∨ x.blocks.2 ≤ e.blocks.1

instance (e x : Extent) : Decidable (e.DisjointFrom x) := by
  unfold Extent.DisjointFrom
  infer_instance

/-- The extent lies inside the block space, and none of it is free already. -/
def Admissible (l : FreeExtentList) (e : Extent) : Prop :=
  e.startLBA.toNat+e.blockCount.toNat ≤ 2^64 ∧ ∀ x ∈ l.extents, e.DisjointFrom x

instance (l : FreeExtentList) (e : Extent) : Decidable (Admissible l e) := by
  unfold Admissible
  infer_instance

def FreeExtentList.fitsAfter (l : FreeExtentList) (e : Extent) : Bool :=
  e.blockCount = 0 || (l.fragments e).length ≤ l.capacity.toNat

variable (s : Ledger)

def step : Call → Option Ledger
  | .allocate n =>
    let r := s.list.allocate n
    some {s with
      list := r.1
      history := .handedOut r.2::s.history}
  | .free e =>
    if Admissible s.list e then
      some ⟨s.list.free e,.freed e::s.history,s.fits && s.list.fitsAfter e⟩
    else none

/-- What holds of a ledger whose list is sound: its form, no block both free and
handed out, the last extent handed out apart from all others, and the books. -/
structure Safe (s : Ledger) : Prop where
  wellFormed : WellFormed s.list
  apart : ∀ b, Covers (blocks s.list.extents) b → ¬ Outstanding s.history b
  latest : ∀ e history, s.history = .handedOut e::history → ∀ b, Has e.blocks b →
    ¬ Covers (blocks s.list.extents) b ∧ ¬ Outstanding history b
  balance : s.fits →
    size (blocks s.list.extents)+blocksHandedOut s.history = blocksFreed s.history

theorem safe_start (capacity : UInt64) : Safe (Ledger.start capacity) where
  wellFormed := wellFormed_new capacity
  apart _ _ h := h
  latest _ _ h := by cases h
  balance _ := rfl

theorem Extent.disjointFrom_iff {e x : Extent} : e.DisjointFrom x ↔ Apart e.blocks x.blocks := by
  by_cases he : e.blockCount = 0
  · refine iff_of_true (.inl he) ?_
    intro b hb
    exact Extent.blocks_proper.not_left.mpr he (hb.1.1.trans_lt hb.1.2)
  · by_cases hx : x.blockCount = 0
    · refine iff_of_true (.inr (.inl hx)) ?_
      intro b hb
      exact Extent.blocks_proper.not_left.mpr hx (hb.2.1.trans_lt hb.2.2)
    · rw [apart_iff (Extent.blocks_proper.mpr he) (Extent.blocks_proper.mpr hx),
        Extent.DisjointFrom, or_iff_right he, or_iff_right hx]

/-! ## Allocation -/

section
variable {n : UInt64}

theorem allocate_cases (hl : WellFormed l) :
    l.allocate n = (l,⟨0,0⟩) ∨
    ∃ a rest, l.allocate n = ({l with extents := rest},a) ∧ Carved l.extents a rest := by
  rw [FreeExtentList.allocate]
  split_ifs with hzero
  · exact .inl rfl
  · cases hfit : firstFit n l.extents with
    | none => exact .inl rfl
    | some r =>
      obtain ⟨a,rest⟩ := r
      exact .inr ⟨a,rest,rfl,firstFit_spec hfit hl.canonical hl.inside⟩

theorem has_empty (b : ℕ) : ¬ Has (⟨0,0⟩ : Extent).blocks b := by
  intro h
  exact Nat.not_lt_zero b h.2

theorem Safe.allocate {s : Ledger} (h : Safe s) :
    Safe {s with
      list := (s.list.allocate n).1
      history := .handedOut (s.list.allocate n).2::s.history} := by
  obtain hnone | ⟨a,rest,hsome,hcarved⟩ := allocate_cases (n := n) h.wellFormed
  · rw [hnone]
    refine ⟨h.wellFormed,?_,?_,?_⟩
    · rintro b hb (hempty | hout)
      · exact has_empty b hempty
      · exact h.apart b hb hout
    · intro e history heq b hb
      cases heq
      exact absurd hb (has_empty b)
    · intro hfits
      have hbalance := h.balance hfits
      simp only [blocksHandedOut, blocksFreed, UInt64.toNat_zero]
      omega
  · rw [hsome]
    have hfree : ∀ b, Has a.blocks b → Covers (blocks s.list.extents) b :=
      fun b hb => (hcarved.covers b).mpr (.inl hb)
    refine ⟨⟨hcarved.canonical,hcarved.inside,hcarved.length.trans h.wellFormed.bounded⟩,?_,?_,?_⟩
    · rintro b hb (ha | hout)
      · exact hcarved.apart b ha hb
      · exact h.apart b ((hcarved.covers b).mpr (.inr hb)) hout
    · intro e history heq b hb
      cases heq
      exact ⟨hcarved.apart b hb,h.apart b (hfree b hb)⟩
    · intro hfits
      have hbalance := h.balance hfits
      have hcut := size_cut h.wellFormed.canonical.apart hcarved.canonical.apart hcarved.covers
        hcarved.apart
      simp only [blocksHandedOut, blocksFreed, Extent.blocks] at *
      omega

end

/-! ## Freeing -/

variable (r : List Extent)

section

theorem free_eq_take (hne : e.blockCount ≠ 0) (hcapacity : l.capacity ≠ 0) :
    l.free e = {l with extents := (l.fragments e).take l.capacity.toNat} := by
  rw [FreeExtentList.free, if_neg (not_or.mpr ⟨hne,hcapacity⟩)]
  split_ifs with hlong
  · rfl
  · rw [take_of_length_le (Nat.le_of_not_lt hlong)]

theorem capacity_pos (hcapacity : l.capacity ≠ 0) : 0 < l.capacity.toNat :=
  Nat.pos_of_ne_zero fun h => hcapacity (UInt64.toNat_inj.mp h)

theorem blocks_take (n : ℕ) : blocks (r.take n) = (blocks r).take n :=
  map_take

theorem apart_of_admissible (h : Admissible l e) : ∀ x ∈ l.extents, Apart e.blocks x.blocks :=
  fun x hx => Extent.disjointFrom_iff.mp (h.2 x hx)

theorem covers_empty {r : List Extent} {b : ℕ} (hempty : e.blockCount = 0) :
    Covers (blocks (e::r)) b ↔ Covers (blocks r) b := by
  rw [blocks_cons, covers_cons]
  refine or_iff_right fun hb => ?_
  exact Extent.blocks_proper.mp (hb.1.trans_lt hb.2) hempty

theorem not_whole_single (hne : e.blockCount ≠ 0) : ¬ Whole (blocks [e]) := by
  apply canonical_not_whole
  refine ⟨?_,pairwise_singleton _ _⟩
  intro i hi
  obtain rfl := mem_singleton.mp hi
  exact Extent.blocks_proper.mpr hne

theorem joinExtents_ne_nil (cur : Extent) (r : List Extent) : joinExtents cur r ≠ [] := by
  induction r generalizing cur with
  | nil => exact cons_ne_nil _ _
  | cons x r ih =>
    rw [joinExtents]
    split_ifs
    · exact ih _
    · exact cons_ne_nil _ _

theorem fragments_ne_nil (l : FreeExtentList) (e : Extent) : l.fragments e ≠ [] := by
  rw [FreeExtentList.fragments]
  cases hsorted : (l.extents++[e]).mergeSort fun a b => decide (a.startLBA ≤ b.startLBA) with
  | nil =>
    have hlength := congrArg List.length hsorted
    rw [length_mergeSort, length_append] at hlength
    exact absurd hlength (Nat.succ_ne_zero _)
  | cons cur r =>
    rw [coalesce_cons]
    exact joinExtents_ne_nil cur r

theorem free_of_fits (hne : e.blockCount ≠ 0) (hfit : (l.fragments e).length ≤ l.capacity.toNat) :
    l.free e = {l with extents := l.fragments e} := by
  have hcapacity : l.capacity ≠ 0 := by
    intro hzero
    rw [hzero, UInt64.toNat_zero, Nat.le_zero, length_eq_zero_iff] at hfit
    exact fragments_ne_nil l e hfit
  rw [free_eq_take hne hcapacity, take_of_length_le hfit]

def Ledger.afterFree (e : Extent) : Ledger :=
  ⟨s.list.free e,.freed e::s.history,s.fits && s.list.fitsAfter e⟩

variable {s : Ledger}

/-- What has to be shown after a call of `Free`: the entry that it adds to the
history frees blocks only. -/
theorem Safe.of_free (h : Safe s) (hform : WellFormed (s.list.free e))
    (hcovers : ∀ b, Covers (blocks (s.list.free e).extents) b → Covers (blocks (e::s.list.extents)) b)
    (hsize : s.list.fitsAfter e →
      size (blocks (s.list.free e).extents) = e.blockCount.toNat+size (blocks s.list.extents)) :
    Safe (s.afterFree e) where
  wellFormed := hform
  apart b hb hout := by
    have hb := hcovers b hb
    rw [blocks_cons, covers_cons] at hb
    exact h.apart b (hb.resolve_left hout.1) hout.2
  latest _ _ heq := by cases heq
  balance hfits := by
    have hfits := Bool.and_eq_true_iff.mp hfits
    have hbalance := h.balance hfits.1
    have hsize := hsize hfits.2
    simp only [Ledger.afterFree, blocksHandedOut, blocksFreed]
    omega

theorem Safe.free_empty (h : Safe s) (hempty : e.blockCount = 0) : Safe (s.afterFree e) := by
  have hsame : s.list.free e = s.list := if_pos (.inl hempty)
  apply h.of_free
  · rw [hsame]
    exact h.wellFormed
  · intro b hb
    rw [hsame] at hb
    exact (covers_empty hempty).mpr hb
  · intro _
    rw [hsame, hempty, UInt64.toNat_zero, zero_add]

theorem Safe.free_no_room (h : Safe s) (hne : e.blockCount ≠ 0)
    (hcapacity : s.list.capacity = 0) : Safe (s.afterFree e) := by
  have hsame : s.list.free e = s.list := if_pos (.inr hcapacity)
  apply h.of_free
  · rw [hsame]
    exact h.wellFormed
  · intro b hb
    rw [hsame] at hb
    rw [blocks_cons, covers_cons]
    exact .inr hb
  · intro hfits
    rw [FreeExtentList.fitsAfter, Bool.or_eq_true, decide_eq_true_eq, decide_eq_true_eq,
      hcapacity, UInt64.toNat_zero, Nat.le_zero, length_eq_zero_iff] at hfits
    obtain hempty | hnil := hfits
    · exact absurd hempty hne
    · exact absurd hnil (fragments_ne_nil _ _)

theorem Safe.free_part (h : Safe s) (hne : e.blockCount ≠ 0) (had : Admissible s.list e)
    (hcapacity : s.list.capacity ≠ 0) (hwhole : ¬ Whole (blocks (e::s.list.extents))) :
    Safe (s.afterFree e) := by
  have hapart := apart_of_admissible had
  obtain ⟨hcanonical,hinside,hcovers⟩ := (fragments_spec h.wellFormed had.1 hne hapart).2 hwhole
  have htake := free_eq_take (l := s.list) hne hcapacity
  apply h.of_free
  · rw [htake]
    refine ⟨?_,fun x hx => hinside x (mem_of_mem_take hx),length_take_le _ _⟩
    rw [blocks_take]
    exact hcanonical.take _
  · intro b hb
    rw [htake, blocks_take] at hb
    exact (hcovers b).mp hb.of_take
  · intro hfits
    rw [FreeExtentList.fitsAfter, Bool.or_eq_true, decide_eq_true_eq, decide_eq_true_eq] at hfits
    rw [htake, take_of_length_le (hfits.resolve_left hne)]
    rw [size_cut hcanonical.apart h.wellFormed.canonical.apart fun b => (hcovers b).trans covers_cons]
    · rw [Extent.blocks, Nat.add_sub_cancel_left]
    · rintro b hb ⟨i,hi,hib⟩
      obtain ⟨x,hx,rfl⟩ := mem_map.mp hi
      exact hapart x hx b ⟨hb,hib⟩

/-- Freeing keeps a sound ledger sound exactly when some block stays taken. -/
theorem Safe.free_iff (h : Safe s) (had : Admissible s.list e) :
    Safe (s.afterFree e) ↔ ¬ Whole (blocks (e::s.list.extents)) := by
  by_cases hempty : e.blockCount = 0
  · refine iff_of_true (h.free_empty hempty) fun hwhole => ?_
    exact canonical_not_whole h.wellFormed.canonical fun b hb => (covers_empty hempty).mp (hwhole b hb)
  · by_cases hcapacity : s.list.capacity = 0
    · refine iff_of_true (h.free_no_room hempty hcapacity) ?_
      have hnil : s.list.extents = [] := by
        have hbounded := h.wellFormed.bounded
        rw [hcapacity, UInt64.toNat_zero, Nat.le_zero] at hbounded
        exact length_eq_zero_iff.mp hbounded
      rw [hnil]
      exact not_whole_single hempty
    · refine ⟨fun hsafe hwhole => ?_,h.free_part hempty had hcapacity⟩
      have hfragments := (fragments_spec h.wellFormed had.1 hempty (apart_of_admissible had)).1 hwhole
      have hlist : (s.list.free e).extents = [⟨0,0⟩] := by
        rw [free_eq_take hempty hcapacity, hfragments]
        exact take_of_length_le (capacity_pos hcapacity)
      have hproper := hsafe.wellFormed.canonical.proper (0,0) (by
        rw [Ledger.afterFree, hlist]
        exact mem_singleton.mpr rfl)
      exact lt_irrefl 0 hproper

end

/-! ## Whole runs -/

def LeavesTaken : Call → Prop
  | .allocate _ => True
  | .free e => ¬ Whole (blocks (e::s.list.extents))

theorem safe_step (c : Call) (t : Ledger) (h : Safe s) (hstep : step s c = some t) :
    Safe t ↔ LeavesTaken s c := by
  cases c with
  | allocate n =>
    obtain rfl := some.inj hstep
    exact iff_of_true h.allocate trivial
  | free e =>
    rw [step, ite_none_right_eq_some] at hstep
    obtain ⟨had,ht⟩ := hstep
    obtain rfl := some.inj ht
    exact h.free_iff had

/-- Over every sequence of calls in which only extents that are not free are
freed, the list is sound in every state exactly when never all 2^64 blocks are
free at once. -/
theorem free_extents_safe_iff (capacity : UInt64) (calls : List Call)
    (hrun : (run step (Ledger.start capacity) calls).isSome) :
    (∀ n s, run step (Ledger.start capacity) (calls.take n) = some s → Safe s) ↔
    (∀ n c s, calls[n]? = some c →
      run step (Ledger.start capacity) (calls.take n) = some s → LeavesTaken s c) :=
  run_good_iff step safe_step _ calls (safe_start capacity) hrun

theorem not_whole_of_gap {l : List Extent} (b : ℕ) (hb : b < 2^64)
    (hgap : ∀ e ∈ l, b < e.blocks.1 ∨ e.blocks.2 ≤ b) : ¬ Whole (blocks l) := by
  intro hwhole
  obtain ⟨i,hi,hib⟩ := hwhole b hb
  obtain ⟨e,he,rfl⟩ := mem_map.mp hi
  simp only [Has] at hib
  have := hgap e he
  omega

theorem free_extents_safe_small :
    (run step (Ledger.start 2) [.free ⟨10,8⟩,.allocate 3,.free ⟨11,1⟩]).isSome ∧
    ∀ n s, run step (Ledger.start 2)
      ([.free ⟨10,8⟩,.allocate 3,.free ⟨11,1⟩].take n) = some s → Safe s := by
  have hrun : (run step (Ledger.start 2) [.free ⟨10,8⟩,.allocate 3,.free ⟨11,1⟩]).isSome := by
    decide +kernel
  refine ⟨hrun,?_⟩
  apply (free_extents_safe_iff 2 [.free ⟨10,8⟩,.allocate 3,.free ⟨11,1⟩] hrun).mpr
  intro n c s hc hs
  match n with
  | 0 =>
    obtain rfl := some.inj hc
    obtain rfl := some.inj hs
    exact not_whole_of_gap 0 (by decide) (by decide)
  | 1 =>
    obtain rfl := some.inj hc
    trivial
  | 2 =>
    have hstate : run step (Ledger.start 2) [.free ⟨10,8⟩,.allocate 3] =
        some ⟨⟨2,[⟨13,5⟩]⟩,[.handedOut ⟨10,3⟩,.freed ⟨10,8⟩],true⟩ := by decide +kernel
    obtain rfl := some.inj hc
    obtain rfl := some.inj (hstate.symm.trans hs)
    exact not_whole_of_gap 0 (by decide) (by decide)
  | n+3 => cases hc

def lowerHalf : Extent := ⟨0,0x8000000000000000⟩

def upperHalf : Extent := ⟨0x8000000000000000,0x8000000000000000⟩

theorem fragments_halves : (⟨4,[lowerHalf]⟩ : FreeExtentList).fragments upperHalf = [⟨0,0⟩] := by
  rw [FreeExtentList.fragments, mergeSort_of_pairwise (by decide)]
  decide

theorem free_halves : (⟨4,[lowerHalf]⟩ : FreeExtentList).free upperHalf = ⟨4,[⟨0,0⟩]⟩ := by
  rw [free_of_fits (by decide) (by rw [fragments_halves]; decide), fragments_halves]

/-- The two halves of the block space, freed one after the other. -/
theorem free_extents_lost :
    ∃ s, run step (Ledger.start 4) [.free lowerHalf,.free upperHalf] = some s ∧
      s.list.extents = [⟨0,0⟩] ∧ s.fits ∧ s.list.allocate 1 = (s.list,⟨0,0⟩) ∧
      size (blocks s.list.extents) = 0 ∧ blocksHandedOut s.history = 0 ∧
      blocksFreed s.history = 2^64 ∧ ¬ Safe s := by
  have hfirst : step (Ledger.start 4) (.free lowerHalf) =
      some ⟨⟨4,[lowerHalf]⟩,[.freed lowerHalf],true⟩ := by decide +kernel
  have hsecond : step ⟨⟨4,[lowerHalf]⟩,[.freed lowerHalf],true⟩ (.free upperHalf) =
      some ⟨⟨4,[⟨0,0⟩]⟩,[.freed upperHalf,.freed lowerHalf],true⟩ := by
    rw [step, if_pos (by decide), free_halves, FreeExtentList.fitsAfter, fragments_halves]
    rfl
  refine ⟨⟨⟨4,[⟨0,0⟩]⟩,[.freed upperHalf,.freed lowerHalf],true⟩,?_,
    rfl,rfl,rfl,rfl,rfl,rfl,fun hsafe => ?_⟩
  · rw [run, hfirst, bind_some, run, hsecond]
    rfl
  · exact lt_irrefl 0 (hsafe.wellFormed.canonical.proper (0,0) (mem_singleton.mpr rfl))

/-! ## The order of freeing -/

def freeAll (l : FreeExtentList) (es : List Extent) : FreeExtentList := es.foldl .free l

def FitsAll : FreeExtentList → List Extent → Prop
  | _, [] => True
  | l, e::es => (l.fragments e).length ≤ l.capacity.toNat ∧ FitsAll (l.free e) es

def union (l : FreeExtentList) (es : List Extent) (b : ℕ) : Prop :=
  Covers (blocks l.extents) b ∨ Covers (blocks es) b

theorem union_free (hcovers : ∀ b, Covers (blocks (l.fragments e)) b ↔ Covers (blocks (e::l.extents)) b)
    (hfree : l.free e = {l with extents := l.fragments e}) (b : ℕ) :
    union (l.free e) es b ↔ union l (e::es) b := by
  rw [union, union, hfree, hcovers, blocks_cons, blocks_cons, covers_cons, covers_cons]
  exact or_assoc.trans or_left_comm

theorem freeAll_spec (hl : WellFormed l) (hin : ∀ e ∈ es, e.Inside ∧ e.blockCount ≠ 0)
    (hes : (blocks es).Pairwise Apart) (hapart : ∀ e ∈ es, ∀ x ∈ l.extents, Apart e.blocks x.blocks)
    (hwhole : ¬ ∀ b < 2^64, union l es b) (hfit : FitsAll l es) :
    Decomposes (blocks (freeAll l es).extents) (union l es) := by
  induction es generalizing l with
  | nil =>
    refine ⟨hl.canonical,fun b => (or_iff_left ?_).symm⟩
    rintro ⟨i,hi,_⟩
    cases hi
  | cons e es ih =>
    obtain ⟨hine,hne⟩ := hin e (by simp)
    obtain ⟨hhead,htail⟩ := pairwise_cons.mp hes
    have hpart : ¬ Whole (blocks (e::l.extents)) := by
      intro hall
      refine hwhole fun b hb => ?_
      have hcover := hall b hb
      rw [blocks_cons, covers_cons] at hcover
      rw [union, blocks_cons, covers_cons, or_left_comm]
      exact hcover.imp_right .inl
    obtain ⟨hcanonical,hinside,hcovers⟩ := (fragments_spec hl hine hne (hapart e (by simp))).2 hpart
    have hfree := free_of_fits hne hfit.1
    have hunion : ∀ b, union (l.free e) es b ↔ union l (e::es) b := union_free hcovers hfree
    have hform : WellFormed (l.free e) := by
      rw [hfree]
      exact ⟨hcanonical,hinside,hfit.1⟩
    have hrest := ih hform (fun x hx => hin x (by simp [hx])) htail ?_ ?_ hfit.2
    · exact ⟨hrest.canonical,fun b => (hrest.covers b).trans (hunion b)⟩
    · -- a later extent meets neither the freed one nor what was free before
      intro x hx y hy b hb
      rw [hfree] at hy
      have hy : Covers (blocks (e::l.extents)) b := (hcovers b).mp ⟨_,mem_map_of_mem hy,hb.2⟩
      rw [blocks_cons, covers_cons] at hy
      obtain hy | ⟨i,hi,hib⟩ := hy
      · exact hhead _ (mem_map_of_mem hx) b ⟨hy,hb.1⟩
      · obtain ⟨z,hz,rfl⟩ := mem_map.mp hi
        exact hapart x (by simp [hx]) z hz b ⟨hb.1,hib⟩
    · intro hall
      exact hwhole fun b hb => (hunion b).mp (hall b hb)

/-! ### Counts modulo the word size -/

def counts : ℕ := (r.map fun e => e.blockCount.toNat).sum

theorem counts_eq_size : counts r = size (blocks r) := by
  simp [counts, size, blocks, Extent.blocks, Function.comp_def]

theorem counts_perm {r r' : List Extent} (h : r.Perm r') : counts r = counts r' :=
  (h.map _).sum_eq

theorem counts_joinExtents (cur : Extent) (r : List Extent) :
    counts (joinExtents cur r) % 2^64 = counts (cur::r) % 2^64 := by
  induction r generalizing cur with
  | nil => rfl
  | cons e r ih =>
    rw [joinExtents]
    split_ifs
    · rw [ih]
      have hsum := UInt64.toNat_add cur.blockCount e.blockCount
      simp only [counts, map_cons, sum_cons] at *
      omega
    · have hrest := ih e
      simp only [counts, map_cons, sum_cons] at *
      omega

theorem counts_fragments (l : FreeExtentList) (e : Extent) :
    counts (l.fragments e) % 2^64 = counts (e::l.extents) % 2^64 := by
  have hperm : ((l.extents++[e]).mergeSort fun a b => decide (a.startLBA ≤ b.startLBA)).Perm
      (e::l.extents) := (mergeSort_perm _ _).trans (perm_append_singleton e l.extents)
  rw [← counts_perm hperm, FreeExtentList.fragments]
  cases (l.extents++[e]).mergeSort fun a b => decide (a.startLBA ≤ b.startLBA) with
  | nil => rfl
  | cons cur r =>
    rw [coalesce_cons]
    exact counts_joinExtents cur r

theorem counts_freeAll (hne : ∀ e ∈ es, e.blockCount ≠ 0) (hfit : FitsAll l es) :
    counts (freeAll l es).extents % 2^64 = (counts l.extents+counts es) % 2^64 := by
  induction es generalizing l with
  | nil => rfl
  | cons e es ih =>
    have hfree := free_of_fits (hne e (by simp)) hfit.1
    have hrest := ih (fun x hx => hne x (by simp [hx])) hfit.2
    have hone := counts_fragments l e
    change counts (freeAll (l.free e) es).extents % 2^64 = _
    rw [hrest, hfree]
    simp only [counts, map_cons, sum_cons] at *
    omega

theorem counts_lt (hl : WellFormed l) : counts l.extents < 2^64 := by
  rw [counts_eq_size, ← card_cells hl.canonical.apart]
  have hsubset : cells (blocks l.extents) ⊂ Finset.range (2^64) := by
    rw [Finset.ssubset_iff_subset_ne]
    refine ⟨fun b hb => ?_,fun heq => ?_⟩
    · obtain ⟨i,hi,hib⟩ := mem_cells.mp hb
      obtain ⟨e,he,rfl⟩ := mem_map.mp hi
      exact Finset.mem_range.mpr (hib.2.trans_le (hl.inside e he))
    · apply canonical_not_whole hl.canonical
      intro b hb
      rw [← mem_cells, heq]
      exact Finset.mem_range.mpr hb
  simpa using Finset.card_lt_card hsubset

theorem apart_of_decomposes (hl : WellFormed l) (hne : ∀ e ∈ es, e.blockCount ≠ 0)
    (hes : (blocks es).Pairwise Apart) (hfit : FitsAll l es)
    (h : Decomposes (blocks (freeAll l es).extents) (union l es)) :
    ∀ e ∈ es, ∀ x ∈ l.extents, Apart e.blocks x.blocks := by
  have hcells : cells (blocks (freeAll l es).extents) = cells (blocks l.extents) ∪ cells (blocks es) := by
    ext b
    rw [mem_cells, h.covers, Finset.mem_union, mem_cells, mem_cells, union]
  have hcard := Finset.card_union_add_card_inter (cells (blocks l.extents)) (cells (blocks es))
  rw [← hcells, card_cells h.canonical.apart, card_cells hl.canonical.apart, card_cells hes,
    ← counts_eq_size, ← counts_eq_size, ← counts_eq_size] at hcard
  have hboth : (cells (blocks l.extents) ∩ cells (blocks es)).card ≤ counts l.extents := by
    rw [counts_eq_size, ← card_cells hl.canonical.apart]
    exact Finset.card_le_card Finset.inter_subset_left
  have hsum := counts_freeAll hne hfit
  have hlt := counts_lt hl
  have hempty : cells (blocks l.extents) ∩ cells (blocks es) = ∅ := by
    apply Finset.card_eq_zero.mp
    omega
  intro e he x hx b hb
  have hmem : b ∈ cells (blocks l.extents) ∩ cells (blocks es) := by
    rw [Finset.mem_inter, mem_cells, mem_cells]
    exact ⟨⟨_,mem_map_of_mem hx,hb.2⟩,⟨_,mem_map_of_mem he,hb.1⟩⟩
  rw [hempty] at hmem
  exact absurd hmem (Finset.notMem_empty b)

theorem blocks_injective {r r' : List Extent} (h : blocks r = blocks r') : r = r' := by
  refine map_injective_iff.mpr ?_ h
  intro e e' he
  obtain ⟨hstart,hstop⟩ := Prod.mk.inj he
  cases e
  cases e'
  simp only [Extent.mk.injEq, ← UInt64.toNat_inj] at *
  omega

/-- Extents freed in two orders into lists with the same contents: both runs end
with the list of the maximal intervals of the union exactly when no freed block
was free already and the union is not the whole block space. -/
theorem freeing_order_iff (l l' : FreeExtentList) (hl : WellFormed l) (hl' : WellFormed l')
    (hsame : l.extents = l'.extents) (es es' : List Extent) (hperm : es.Perm es')
    (hin : ∀ e ∈ es, e.Inside ∧ e.blockCount ≠ 0) (hes : (blocks es).Pairwise Apart)
    (hfit : FitsAll l es) (hfit' : FitsAll l' es') :
    ((freeAll l es).extents = (freeAll l' es').extents ∧
      ∀ m, Decomposes m (union l es) ↔ m = blocks (freeAll l es).extents) ↔
    (∀ e ∈ es, ∀ x ∈ l.extents, Apart e.blocks x.blocks) ∧ ¬ ∀ b < 2^64, union l es b := by
  constructor
  · rintro ⟨_,hunique⟩
    have hdecomposes := (hunique _).mpr rfl
    refine ⟨apart_of_decomposes hl (fun e he => (hin e he).2) hes hfit hdecomposes,fun hall => ?_⟩
    exact canonical_not_whole hdecomposes.canonical fun b hb =>
      (hdecomposes.covers b).mpr (hall b hb)
  · rintro ⟨hapart,hwhole⟩
    have hunion : ∀ b, union l' es' b ↔ union l es b := fun b => by
      rw [union, union, hsame]
      exact or_congr_right (covers_perm (hperm.map Extent.blocks).symm)
    have hdecomposes := freeAll_spec hl hin hes hapart hwhole hfit
    have hdecomposes' := freeAll_spec hl' (fun e he => hin e (hperm.mem_iff.mpr he))
      ((hperm.map Extent.blocks).pairwise hes fun h => h.symm)
      (fun e he x hx => hapart e (hperm.mem_iff.mpr he) x (hsame ▸ hx))
      (fun hall => hwhole fun b hb => (hunion b).mp (hall b hb)) hfit'
    refine ⟨blocks_injective (hdecomposes.unique ⟨hdecomposes'.canonical,fun b => ?_⟩),fun m => ?_⟩
    · exact (hdecomposes'.covers b).trans (hunion b)
    · refine ⟨fun hm => hm.unique hdecomposes,fun hm => ?_⟩
      rw [hm]
      exact hdecomposes

/-- Two extents around a free one and one that touches nothing, in two orders. -/
theorem freeing_order_bridge :
    (freeAll ⟨4,[⟨14,2⟩]⟩ [⟨12,2⟩,⟨30,1⟩,⟨16,4⟩]).extents =
        (freeAll ⟨9,[⟨14,2⟩]⟩ [⟨16,4⟩,⟨30,1⟩,⟨12,2⟩]).extents ∧
      ∀ m, Decomposes m (union ⟨4,[⟨14,2⟩]⟩ [⟨12,2⟩,⟨30,1⟩,⟨16,4⟩]) ↔
        m = blocks (freeAll ⟨4,[⟨14,2⟩]⟩ [⟨12,2⟩,⟨30,1⟩,⟨16,4⟩]).extents := by
  have hform : ∀ capacity : UInt64, 1 ≤ capacity.toNat → WellFormed ⟨capacity,[⟨14,2⟩]⟩ := by
    intro capacity hcapacity
    refine ⟨⟨?_,pairwise_singleton _ _⟩,?_,hcapacity⟩
    · intro i hi
      obtain rfl := mem_singleton.mp hi
      decide
    · intro e he
      obtain rfl := mem_singleton.mp he
      exact Nat.le_of_ble_eq_true rfl
  have hspread : ∀ e ∈ [(⟨12,2⟩ : Extent),⟨30,1⟩,⟨16,4⟩], e.startLBA.toNat+e.blockCount.toNat ≤ 2^64 ∧
      e.blockCount ≠ 0 := by decide
  have hfits : FitsAll ⟨4,[⟨14,2⟩]⟩ [⟨12,2⟩,⟨30,1⟩,⟨16,4⟩] ∧
      FitsAll ⟨9,[⟨14,2⟩]⟩ [⟨16,4⟩,⟨30,1⟩,⟨12,2⟩] := by
    simp [FitsAll, FreeExtentList.free, FreeExtentList.fragments, mergeSort,
      MergeSort.Internal.splitInTwo, coalesce, coalesceStep, range']
  apply (freeing_order_iff ⟨4,[⟨14,2⟩]⟩ ⟨9,[⟨14,2⟩]⟩ (hform 4 (by decide)) (hform 9 (by decide)) rfl
    [⟨12,2⟩,⟨30,1⟩,⟨16,4⟩] [⟨16,4⟩,⟨30,1⟩,⟨12,2⟩] (by decide) hspread ?_ hfits.1 hfits.2).mpr
  · refine ⟨fun e he x hx => ?_,fun hall => ?_⟩
    · apply Extent.disjointFrom_iff.mp
      have hall : ∀ e ∈ [(⟨12,2⟩ : Extent),⟨30,1⟩,⟨16,4⟩], ∀ x ∈ [(⟨14,2⟩ : Extent)],
          e.DisjointFrom x := by decide
      exact hall e he x hx
    · apply not_whole_of_gap (l := [⟨14,2⟩,⟨12,2⟩,⟨30,1⟩,⟨16,4⟩]) 0 (by decide) (by decide)
      intro b hb
      obtain h | h := hall b hb
      · exact h.imp fun i hi => ⟨mem_append_left _ hi.1,hi.2⟩
      · exact h.imp fun i hi => ⟨mem_cons_of_mem _ hi.1,hi.2⟩
  · have hpairs : [(⟨12,2⟩ : Extent),⟨30,1⟩,⟨16,4⟩].Pairwise Extent.DisjointFrom := by decide
    exact pairwise_map.mpr (hpairs.imp Extent.disjointFrom_iff.mp)

/-- The two halves of the block space in either order. -/
theorem freeing_halves :
    (freeAll (newFreeExtentList 4) [lowerHalf,upperHalf]).extents = [⟨0,0⟩] ∧
      ¬ Decomposes (blocks (freeAll (newFreeExtentList 4) [lowerHalf,upperHalf]).extents)
        (union (newFreeExtentList 4) [lowerHalf,upperHalf]) := by
  have hfirst : (newFreeExtentList 4).free lowerHalf = ⟨4,[lowerHalf]⟩ := by decide +kernel
  have hresult : (freeAll (newFreeExtentList 4) [lowerHalf,upperHalf]).extents = [⟨0,0⟩] := by
    rw [freeAll, foldl_cons, hfirst, foldl_cons, free_halves]
    rfl
  refine ⟨hresult,fun h => ?_⟩
  rw [hresult] at h
  exact lt_irrefl 0 (h.canonical.proper (0,0) (mem_singleton.mpr rfl))

end Wrela.FreeExtents

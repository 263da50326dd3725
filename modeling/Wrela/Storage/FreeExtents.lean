import Wrela.IntervalList

/-!
# The list of free extents

First-fit allocation and freeing with coalescing. Freeing appends the extent,
sorts by first block and then joins neighbours in place: the result is written
to the front of the array that is being read. Blocks and counts are 64-bit
words.
-/

set_option autoImplicit false

namespace Wrela.FreeExtents
open IntervalList List

structure Extent where
  startLBA : UInt64
  blockCount : UInt64
  deriving DecidableEq, Repr

structure FreeExtentList where
  capacity : UInt64
  extents : List Extent
  deriving DecidableEq, Repr

def newFreeExtentList (capacity : UInt64) : FreeExtentList := ⟨capacity,[]⟩

def firstFit (blockCount : UInt64) : List Extent → Option (Extent × List Extent)
  | [] => none
  | extent::rest =>
    if extent.blockCount < blockCount then
      (firstFit blockCount rest).map fun r => (r.1,extent::r.2)
    else if extent.blockCount = blockCount then some (⟨extent.startLBA,blockCount⟩,rest)
    else some (⟨extent.startLBA,blockCount⟩,
      ⟨extent.startLBA+blockCount,extent.blockCount-blockCount⟩::rest)

variable (l : FreeExtentList)

def FreeExtentList.allocate (blockCount : UInt64) : FreeExtentList × Extent :=
  if blockCount = 0 then (l,⟨0,0⟩)
  else match firstFit blockCount l.extents with
    | none => (l,⟨0,0⟩)
    | some (allocated,extents) => ({l with extents := extents},allocated)

/-- One round of the coalescing loop: `w` entries have been written to the front
of the array, and entry `i` is read from the same array. -/
def coalesceStep (s : List Extent × ℕ) (i : ℕ) : List Extent × ℕ :=
  match s.1[i]?, s.2 with
  | none, _ => s
  | some current, 0 => (s.1.set 0 current,1)
  | some current, w+1 =>
    match s.1[w]? with
    | none => s
    | some last =>
      if last.startLBA+last.blockCount = current.startLBA then
        (s.1.set w ⟨last.startLBA,last.blockCount+current.blockCount⟩,w+1)
      else (s.1.set (w+1) current,w+2)

def coalesce (extents : List Extent) : List Extent :=
  let s := (List.range' 0 extents.length).foldl coalesceStep (extents,0)
  s.1.take s.2

def FreeExtentList.fragments (extent : Extent) : List Extent :=
  coalesce ((l.extents++[extent]).mergeSort fun a b => a.startLBA ≤ b.startLBA)

def FreeExtentList.free (extent : Extent) : FreeExtentList :=
  if extent.blockCount = 0 ∨ l.capacity = 0 then l
  else if (l.fragments extent).length > l.capacity.toNat then
    {l with extents := (l.fragments extent).take l.capacity.toNat}
  else {l with extents := l.fragments extent}

/-! ## The coalescing loop -/

def joinExtents : Extent → List Extent → List Extent
  | cur, [] => [cur]
  | cur, e::l =>
    if cur.startLBA+cur.blockCount = e.startLBA then
      joinExtents ⟨cur.startLBA,cur.blockCount+e.blockCount⟩ l
    else cur::joinExtents e l

variable (l : List Extent)

/-- The loop writes behind what it still has to read, so working in place makes
no difference. -/
theorem coalesce_loop (a done : List Extent) (cur : Extent) (i w : ℕ) (hw : w < i)
    (hdone : a.take (w+1) = done++[cur]) (hl : a.drop i = l) (hi : i ≤ a.length) :
    let s := (List.range' i l.length).foldl coalesceStep (a,w+1)
    s.1.take s.2 = done++joinExtents cur l := by
  induction l generalizing a done cur i w with
  | nil => exact hdone
  | cons e l ih =>
    have hlen : i < a.length := by
      have := congrArg List.length hl
      rw [length_drop, length_cons] at this
      omega
    obtain ⟨hread,hrest⟩ : a[i]? = some e ∧ a.drop (i+1) = l := by
      rw [drop_eq_getElem_cons hlen] at hl
      obtain ⟨he,hl⟩ := List.cons.inj hl
      exact ⟨List.getElem?_eq_some_iff.mpr ⟨hlen,he⟩,hl⟩
    have hdonelen : done.length = w := by
      have := congrArg List.length hdone
      rw [length_take, length_append, length_singleton] at this
      omega
    have hlast : a[w]? = some cur := by
      rw [← getElem?_take_of_lt (Nat.lt_succ_self w), hdone, ← hdonelen]
      exact getElem?_concat_length
    rw [length_cons, range'_succ, foldl_cons]
    have hstep : coalesceStep (a,w+1) i =
        if cur.startLBA+cur.blockCount = e.startLBA then
          (a.set w ⟨cur.startLBA,cur.blockCount+e.blockCount⟩,w+1)
        else (a.set (w+1) e,w+2) := by
      simp [coalesceStep, hread, hlast]
    rw [hstep, joinExtents]
    split_ifs with htouch
    · apply ih
      · omega
      · rw [take_set, hdone, ← hdonelen, set_append_right _ _ (le_refl _), Nat.sub_self]
        rfl
      · rw [drop_set_of_lt (by omega)]
        exact hrest
      · rw [length_set]
        omega
    · have hgoal := ih (a.set (w+1) e) (done++[cur]) e (i+1) (w+1) (by omega) ?_ ?_ ?_
      · rw [append_assoc] at hgoal
        exact hgoal
      · rw [take_succ_eq_append_getElem (by rw [length_set]; omega), getElem_set_self,
          take_set_of_le (le_refl _), hdone]
      · rw [drop_set_of_lt (by omega)]
        exact hrest
      · rw [length_set]
        omega

variable (e : Extent)

theorem coalesce_cons : coalesce (e::l) = joinExtents e l := by
  have hfirst : coalesceStep (e::l,0) 0 = (e::l,1) := rfl
  rw [coalesce, length_cons, range'_succ, foldl_cons, hfirst]
  exact coalesce_loop l (e::l) [] e 1 0 (by omega) rfl rfl (by simp)

/-! ## Extents as sets of blocks -/

def Extent.blocks : ℕ × ℕ := (e.startLBA.toNat,e.startLBA.toNat+e.blockCount.toNat)

def Extent.Inside : Prop := e.startLBA.toNat+e.blockCount.toNat ≤ 2^64

def blocks : List (ℕ × ℕ) := l.map Extent.blocks

def Whole (l : List (ℕ × ℕ)) : Prop := ∀ b < 2^64, Covers l b

theorem blocks_cons : blocks (e::l) = e.blocks::blocks l := rfl

theorem Extent.blocks_lt : e.blocks.1 < 2^64 := e.startLBA.toNat_lt

theorem Extent.blocks_proper {e : Extent} : e.blocks.1 < e.blocks.2 ↔ e.blockCount ≠ 0 := by
  have hzero : e.blockCount = 0 ↔ e.blockCount.toNat = 0 := UInt64.toNat_inj.symm
  simp only [Extent.blocks, ne_eq, hzero]
  omega

structure Row (l : List Extent) : Prop where
  inside : ∀ e ∈ l, e.Inside
  proper : Proper (blocks l)
  spread : Spread (blocks l)

def joined (e' : Extent) : Extent := ⟨e.startLBA,e.blockCount+e'.blockCount⟩

section
variable {cur e : Extent} {l : List Extent}

theorem Row.tail (h : Row (cur::l)) : Row l :=
  ⟨fun x hx => h.inside x (by simp [hx]),h.proper.tail,h.spread.tail⟩

theorem Row.next (h : Row (cur::e::l)) : cur.blocks.2 ≤ e.blocks.1 :=
  (spread_cons.mp h.spread).1 e.blocks (by simp)

/-- In a row the wrapping comparison of the code is the one of block numbers. -/
theorem Row.touch_iff (h : Row (cur::e::l)) :
    cur.startLBA+cur.blockCount = e.startLBA ↔ cur.blocks.2 = e.blocks.1 := by
  have hnext := h.next
  have hlt := e.blocks_lt
  rw [← UInt64.toNat_inj, UInt64.toNat_add]
  simp only [Extent.blocks] at *
  rw [Nat.mod_eq_of_lt (by omega)]

theorem joined_blocks (htouch : cur.blocks.2 = e.blocks.1)
    (hsmall : cur.blockCount.toNat+e.blockCount.toNat < 2^64) :
    (joined cur e).blocks = (cur.blocks.1,e.blocks.2) := by
  have hsum := UInt64.toNat_add cur.blockCount e.blockCount
  simp only [Extent.blocks, joined] at *
  rw [Prod.mk.injEq]
  omega

section
variable (h : Row (cur::e::l)) (htouch : cur.blocks.2 = e.blocks.1)
include h htouch

section
variable (hsmall : cur.blockCount.toNat+e.blockCount.toNat < 2^64)
include hsmall

theorem Row.joined : Row (joined cur e::l) := by
  have hblocks := joined_blocks htouch hsmall
  obtain ⟨hproper,hspread⟩ := h.spread.joined h.proper
  refine ⟨?_,?_,?_⟩
  · intro x hx
    obtain rfl | hx := mem_cons.mp hx
    · have hin : e.blocks.2 ≤ 2^64 := h.inside e (by simp)
      change (FreeExtents.joined cur e).blocks.2 ≤ 2^64
      rw [hblocks]
      exact hin
    · exact h.inside x (by simp [hx])
  · rw [blocks_cons, hblocks]
    exact hproper
  · rw [blocks_cons, hblocks]
    exact hspread

theorem covers_joined {b : ℕ} :
    Covers (blocks (joined cur e::l)) b ↔ Covers (blocks (cur::e::l)) b := by
  have hcur : cur.blocks.1 < cur.blocks.2 := h.proper cur.blocks (by simp [blocks])
  have he : e.blocks.1 < e.blocks.2 := h.proper e.blocks (by simp [blocks])
  rw [blocks_cons, blocks_cons, blocks_cons, covers_cons, covers_cons, covers_cons,
    joined_blocks htouch hsmall, ← or_assoc]
  simp only [Has]
  have hpart : cur.blocks.1 ≤ b ∧ b < e.blocks.2 ↔
      cur.blocks.1 ≤ b ∧ b < cur.blocks.2 ∨ e.blocks.1 ≤ b ∧ b < e.blocks.2 := by omega
  rw [hpart]

end

/-- Two neighbours that touch have fewer than 2^64 blocks, unless they are all. -/
theorem Row.small_or_whole :
    cur.blockCount.toNat+e.blockCount.toNat < 2^64 ∨ (cur.blocks.1 = 0 ∧ e.blocks.2 = 2^64) := by
  have hin : e.Inside := h.inside e (by simp)
  simp only [Extent.Inside, Extent.blocks] at *
  omega

end

theorem joinExtents_blocks (h : Row (cur::l)) (hwhole : ¬ Whole (blocks (cur::l))) :
    blocks (joinExtents cur l) = joinFrom cur.blocks (blocks l) ∧
      ∀ x ∈ joinExtents cur l, x.Inside := by
  induction l generalizing cur with
  | nil => exact ⟨rfl,h.inside⟩
  | cons e l ih =>
    rw [joinExtents, blocks_cons, joinFrom]
    by_cases htouch : cur.blocks.2 = e.blocks.1
    · rw [if_pos (h.touch_iff.mpr htouch), if_pos htouch]
      obtain hsmall | ⟨hzero,hend⟩ := h.small_or_whole htouch
      · have hrest := ih (h.joined htouch hsmall) fun hall => hwhole fun b hb =>
          (covers_joined h htouch hsmall).mp (hall b hb)
        rwa [joined_blocks htouch hsmall] at hrest
      · refine absurd (fun b hb => ?_) hwhole
        rw [blocks_cons, blocks_cons, covers_cons, covers_cons, ← or_assoc]
        simp only [Has]
        omega
    · rw [if_neg fun he => htouch (h.touch_iff.mp he), if_neg htouch]
      have hrest := ih h.tail fun hall => hwhole fun b hb => by
        rw [blocks_cons, covers_cons]
        exact .inr (hall b hb)
      refine ⟨?_,?_⟩
      · rw [blocks_cons, hrest.1]
      · intro x hx
        obtain rfl | hx := mem_cons.mp hx
        · exact h.inside x (by simp)
        · exact hrest.2 x hx

theorem Row.first_le {b : ℕ} (h : Row (cur::l)) (hb : Covers (blocks (cur::l)) b) :
    Has cur.blocks b ∨ cur.blocks.2 ≤ b := by
  rw [blocks_cons, covers_cons] at hb
  obtain hb | ⟨i,hi,hib⟩ := hb
  · exact .inl hb
  · exact .inr (((spread_cons.mp h.spread).1 i hi).trans hib.1)

/-- When all blocks are free, the count of the one extent that is left wraps to zero. -/
theorem joinExtents_whole (h : Row (cur::l)) (hwhole : Whole (blocks (cur::l))) :
    joinExtents cur l = [⟨0,0⟩] := by
  induction l generalizing cur with
  | nil =>
    -- one extent has at most 2^64-1 blocks
    have hfirst := h.first_le (hwhole 0 (by decide))
    have hcur : cur.blocks.1 < cur.blocks.2 := h.proper cur.blocks (by simp [blocks])
    have hcount := cur.blockCount.toNat_lt
    have hend : Covers (blocks [cur]) (2^64-1) := hwhole _ (by decide)
    rw [blocks_cons, covers_cons] at hend
    obtain hend | ⟨i,hi,_⟩ := hend
    · simp only [Has, Extent.blocks] at *
      omega
    · cases hi
  | cons e l ih =>
    have hcur : cur.blocks.1 < cur.blocks.2 := h.proper cur.blocks (by simp [blocks])
    have he : e.blocks.1 < e.blocks.2 := h.proper e.blocks (by simp [blocks])
    have hnext := h.next
    have helt := e.blocks_lt
    have hfirst := h.first_le (hwhole 0 (by decide))
    have hzero : cur.blocks.1 = 0 := by
      simp only [Has] at hfirst
      omega
    -- the block behind the first extent is covered by the second
    have htouch : cur.blocks.2 = e.blocks.1 := by
      have hgap := hwhole cur.blocks.2 (by omega)
      rw [blocks_cons, covers_cons] at hgap
      obtain hgap | hgap := hgap
      · exact absurd hgap.2 (lt_irrefl _)
      · have := h.tail.first_le hgap
        simp only [Has] at this
        omega
    rw [joinExtents, if_pos (h.touch_iff.mpr htouch)]
    obtain hsmall | ⟨_,hend⟩ := h.small_or_whole htouch
    · exact ih (h.joined htouch hsmall) fun b hb =>
        (covers_joined h htouch hsmall).mpr (hwhole b hb)
    · have hstart : cur.startLBA = 0 := UInt64.toNat_inj.mp hzero
      have hcount : cur.blockCount+e.blockCount = 0 := by
        apply UInt64.toNat_inj.mp
        rw [UInt64.toNat_add]
        simp only [Extent.blocks] at *
        rw [UInt64.toNat_zero]
        omega
      rw [hstart, hcount]
      cases l with
      | nil => rfl
      | cons e' l =>
        -- nothing begins behind the last block
        have hbehind := h.tail.next
        have hlt := e'.blocks_lt
        omega

end

/-! ## Well-formed lists -/

/-- Sorted, non-empty, with gaps between neighbours, and no more than the
capacity. -/
structure WellFormed (l : FreeExtentList) : Prop where
  canonical : Canonical (blocks l.extents)
  inside : ∀ e ∈ l.extents, e.Inside
  bounded : l.extents.length ≤ l.capacity.toNat

theorem wellFormed_new (capacity : UInt64) : WellFormed (newFreeExtentList capacity) :=
  ⟨⟨fun _ h => absurd h not_mem_nil,.nil⟩,fun _ h => absurd h not_mem_nil,Nat.zero_le _⟩

/-- The whole block space has no canonical list: its one extent would need a
count of 2^64. -/
theorem canonical_not_whole {l : List Extent} (h : Canonical (blocks l)) : ¬ Whole (blocks l) := by
  intro hwhole
  cases l with
  | nil =>
    obtain ⟨i,hi,_⟩ := hwhole 0 (by decide)
    cases hi
  | cons e l =>
    have hzero : e.blocks.1 ≤ 0 := h.start_le (hwhole 0 (by decide))
    have hcount := e.blockCount.toNat_lt
    apply h.not_covers_stop
    apply hwhole
    simp only [Extent.blocks] at *
    omega

section
variable {l : FreeExtentList} {e : Extent}

section
variable (hl : WellFormed l) (hin : e.Inside) (hne : e.blockCount ≠ 0)
  (hapart : ∀ x ∈ l.extents, Apart e.blocks x.blocks)
include hl hin hne hapart

theorem row_sorted : Row ((l.extents++[e]).mergeSort fun a b => a.startLBA ≤ b.startLBA) := by
  generalize hsorted : ((l.extents++[e]).mergeSort fun a b => decide (a.startLBA ≤ b.startLBA)) = r
  have hperm : r.Perm (l.extents++[e]) := hsorted ▸ mergeSort_perm _ _
  have hmem : ∀ x ∈ r, x ∈ l.extents ∨ x = e := by
    intro x hx
    have := hperm.mem_iff.mp hx
    rwa [mem_append, mem_singleton] at this
  have hstarts : (blocks r).Pairwise fun i j => i.1 ≤ j.1 := by
    rw [← hsorted, blocks, pairwise_map]
    refine (pairwise_mergeSort ?_ ?_ _).imp ?_
    · intro a b c hab hbc
      exact decide_eq_true (UInt64.le_trans (of_decide_eq_true hab) (of_decide_eq_true hbc))
    · intro a b
      rw [Bool.or_eq_true, decide_eq_true_eq, decide_eq_true_eq]
      exact UInt64.le_total _ _
    · intro a b hab
      exact UInt64.le_iff_toNat_le.mp (of_decide_eq_true hab)
  have hproper : Proper (blocks r) := by
    intro i hi
    obtain ⟨x,hx,rfl⟩ := mem_map.mp hi
    obtain hx | rfl := hmem x hx
    · exact hl.canonical.proper _ (mem_map_of_mem hx)
    · exact Extent.blocks_proper.mpr hne
  refine ⟨?_,hproper,(spread_iff_apart hproper hstarts).mpr ?_⟩
  · intro x hx
    obtain hx | rfl := hmem x hx
    · exact hl.inside x hx
    · exact hin
  · have hall : (blocks (e::l.extents)).Pairwise Apart := by
      rw [blocks_cons, pairwise_cons]
      refine ⟨?_,hl.canonical.apart⟩
      intro i hi
      obtain ⟨x,hx,rfl⟩ := mem_map.mp hi
      exact hapart x hx
    have hblocks : (blocks (e::l.extents)).Perm (blocks r) :=
      ((perm_append_singleton e l.extents).symm.trans hperm.symm).map _
    exact hblocks.pairwise hall fun h => h.symm

/-- Freeing an extent that is not free yet gives the canonical list of the union,
or the empty extent at block zero when all blocks have become free. -/
theorem fragments_spec : (Whole (blocks (e::l.extents)) → l.fragments e = [⟨0,0⟩]) ∧
    (¬ Whole (blocks (e::l.extents)) →
      Canonical (blocks (l.fragments e)) ∧ (∀ x ∈ l.fragments e, x.Inside) ∧
        ∀ b, Covers (blocks (l.fragments e)) b ↔ Covers (blocks (e::l.extents)) b) := by
  have hrow := row_sorted hl hin hne hapart
  have hperm : ((l.extents++[e]).mergeSort fun a b => decide (a.startLBA ≤ b.startLBA)).Perm
      (e::l.extents) := (mergeSort_perm _ _).trans (perm_append_singleton e l.extents)
  rw [FreeExtentList.fragments]
  cases hsorted : (l.extents++[e]).mergeSort fun a b => decide (a.startLBA ≤ b.startLBA) with
  | nil =>
    rw [hsorted] at hperm
    exact absurd hperm.symm (cons_ne_nil _ _ ∘ List.Perm.eq_nil)
  | cons cur r =>
    rw [hsorted] at hrow hperm
    have hcovers : ∀ b, Covers (blocks (cur::r)) b ↔ Covers (blocks (e::l.extents)) b :=
      fun b => covers_perm (hperm.map _)
    have hwhole : Whole (blocks (cur::r)) ↔ Whole (blocks (e::l.extents)) :=
      forall₂_congr fun b _ => hcovers b
    rw [coalesce_cons]
    refine ⟨fun h => joinExtents_whole hrow (hwhole.mpr h),fun h => ?_⟩
    obtain ⟨hblocks,hinside⟩ := joinExtents_blocks hrow (hwhole.not.mpr h)
    rw [hblocks]
    refine ⟨joinFrom_canonical hrow.proper hrow.spread,hinside,fun b => ?_⟩
    exact (covers_joinFrom hrow.proper hrow.spread).trans (hcovers b)

end

end

/-! ## First fit -/

/-- An extent is cut out of a list: what was covered is now in the extent or in
the rest, never in both. -/
structure Carved (l : List Extent) (a : Extent) (rest : List Extent) : Prop where
  canonical : Canonical (blocks rest)
  inside : ∀ e ∈ rest, e.Inside
  length : rest.length ≤ l.length
  starts : ∀ x ∈ blocks rest, ∃ y ∈ blocks l, y.1 ≤ x.1
  covers : ∀ b, Covers (blocks l) b ↔ Has a.blocks b ∨ Covers (blocks rest) b
  apart : ∀ b, Has a.blocks b → ¬ Covers (blocks rest) b

section
variable {extent a : Extent} {l rest : List Extent} {n : UInt64}

theorem Carved.skip (h : Carved l a rest) (hl : Canonical (blocks (extent::l)))
    (hin : extent.Inside) : Carved (extent::l) a (extent::rest) := by
  have habove : ∀ x ∈ blocks rest, extent.blocks.2 < x.1 := by
    intro x hx
    obtain ⟨y,hy,hyx⟩ := h.starts x hx
    exact ((pairwise_cons.mp hl.gaps).1 y hy).trans_le hyx
  refine ⟨⟨?_,pairwise_cons.mpr ⟨habove,h.canonical.gaps⟩⟩,?_,Nat.succ_le_succ h.length,?_,?_,?_⟩
  · intro i hi
    obtain rfl | hi := mem_cons.mp hi
    · exact hl.proper _ (by simp [blocks])
    · exact h.canonical.proper i hi
  · intro x hx
    obtain rfl | hx := mem_cons.mp hx
    · exact hin
    · exact h.inside x hx
  · intro x hx
    obtain rfl | hx := mem_cons.mp hx
    · exact ⟨_,by simp [blocks],le_rfl⟩
    · obtain ⟨y,hy,hyx⟩ := h.starts x hx
      exact ⟨y,mem_cons_of_mem _ hy,hyx⟩
  · intro b
    rw [blocks_cons, blocks_cons, covers_cons, covers_cons, h.covers]
    exact or_left_comm
  · intro b hb hrest
    have hl' : Covers (blocks l) b := (h.covers b).mpr (.inl hb)
    rw [blocks_cons, covers_cons] at hrest
    obtain hrest | hrest := hrest
    · exact absurd (hrest.2.trans (hl.above hl')) (lt_irrefl _)
    · exact h.apart b hb hrest

section
variable (hl : Canonical (blocks (extent::l))) (hin : ∀ e ∈ extent::l, e.Inside)
include hl hin

theorem Carved.all : Carved (extent::l) extent l where
  canonical := hl.tail
  inside e he := hin e (by simp [he])
  length := Nat.le_succ _
  starts x hx := ⟨x,mem_cons_of_mem _ hx,le_rfl⟩
  covers b := by rw [blocks_cons, covers_cons]
  apart b hb hrest := absurd (hb.2.trans (hl.above hrest)) (lt_irrefl _)

theorem Carved.front (hn : n.toNat < extent.blockCount.toNat) :
    Carved (extent::l) ⟨extent.startLBA,n⟩ (⟨extent.startLBA+n,extent.blockCount-n⟩::l) := by
  have hextent : extent.Inside := hin extent (by simp)
  have hstart : (extent.startLBA+n).toNat = extent.startLBA.toNat+n.toNat := by
    rw [UInt64.toNat_add, Nat.mod_eq_of_lt]
    simp only [Extent.Inside] at hextent
    omega
  have hcount : (extent.blockCount-n).toNat = extent.blockCount.toNat-n.toNat :=
    UInt64.toNat_sub_of_le _ _ (UInt64.le_iff_toNat_le.mpr hn.le)
  have hback : (⟨extent.startLBA+n,extent.blockCount-n⟩ : Extent).blocks =
      (extent.startLBA.toNat+n.toNat,extent.blocks.2) := by
    simp only [Extent.blocks, hstart, hcount, Prod.mk.injEq, true_and]
    omega
  have hgaps := pairwise_cons.mp hl.gaps
  refine ⟨⟨?_,?_⟩,?_,le_refl _,?_,?_,?_⟩
  · intro i hi
    obtain rfl | hi := mem_cons.mp hi
    · simp only [Extent.blocks]
      omega
    · exact hl.tail.proper i hi
  · rw [blocks_cons, hback]
    exact pairwise_cons.mpr hgaps
  · intro x hx
    obtain rfl | hx := mem_cons.mp hx
    · change (⟨extent.startLBA+n,extent.blockCount-n⟩ : Extent).blocks.2 ≤ 2^64
      rw [hback]
      exact hextent
    · exact hin x (by simp [hx])
  · intro x hx
    rw [blocks_cons, hback] at hx
    obtain rfl | hx := mem_cons.mp hx
    · exact ⟨extent.blocks,by simp [blocks],Nat.le_add_right _ _⟩
    · exact ⟨x,mem_cons_of_mem _ hx,le_rfl⟩
  · intro b
    rw [blocks_cons, blocks_cons, covers_cons, covers_cons, hback, ← or_assoc]
    refine or_congr_left ?_
    simp only [Has, Extent.blocks]
    omega
  · intro b hb hrest
    rw [blocks_cons, covers_cons, hback] at hrest
    simp only [Has, Extent.blocks] at hb hrest
    obtain hrest | hrest := hrest
    · omega
    · have habove := hl.above hrest
      simp only [Extent.blocks] at habove
      omega

end

theorem firstFit_spec (h : firstFit n l = some (a,rest)) (hl : Canonical (blocks l))
    (hin : ∀ e ∈ l, e.Inside) : Carved l a rest := by
  induction l generalizing rest with
  | nil => cases h
  | cons extent l ih =>
    rw [firstFit] at h
    split_ifs at h with hsmall hexact
    · obtain ⟨⟨a',rest'⟩,hfit,hr⟩ := Option.map_eq_some_iff.mp h
      obtain ⟨rfl,rfl⟩ := Prod.mk.inj hr
      have hcarved := ih hfit hl.tail fun e he => hin e (by simp [he])
      exact hcarved.skip hl (hin extent (by simp))
    · obtain ⟨rfl,rfl⟩ := Prod.mk.inj (Option.some.inj h)
      exact hexact ▸ Carved.all hl hin
    · obtain ⟨rfl,rfl⟩ := Prod.mk.inj (Option.some.inj h)
      apply Carved.front hl hin
      rw [UInt64.lt_iff_toNat_lt] at hsmall
      have hne := mt UInt64.toNat_inj.mp hexact
      omega

end

end Wrela.FreeExtents

import Wrela.Uefi.IdentityPaging
import Wrela.X86.Paging
import Mathlib.Order.Interval.Finset.Nat

/-!
# What the loops of the page-table builder do

Each loop of `build_identity_paging` has a closed form, and each table that it
makes or page that it enters keeps the tree of tables. The signed comparisons
agree with those of the numbers as long as both sides are below 2^63.
-/

set_option autoImplicit false

namespace Wrela.IdentityPaging
open X86 X86.Paging List Option BitVec Finset Nat

/-! ## Words as numbers -/

section
variable {x y : Word}

theorem sle_eq (hx : x.toNat < 2^63) (hy : y.toNat < 2^63) : x.sle y = decide (x.toNat ≤ y.toNat) := by
  rw [sle_eq_decide, toInt_eq_toNat_of_lt (by omega), toInt_eq_toNat_of_lt (by omega)]
  simp

theorem and_mask_toNat {mask : Word} {bits : ℕ} (h : ∀ i < 64, mask.getLsbD i = decide (bits ≤ i)) :
    (x &&& mask).toNat = x.toNat/2^bits*2^bits := by
  have hshift : x &&& mask = (x >>> bits) <<< bits := by
    apply eq_of_getLsbD_eq
    intro i hi
    rw [getLsbD_and, h i hi, getLsbD_shiftLeft, getLsbD_ushiftRight]
    by_cases hb : bits ≤ i
    · simp [hb, hi, Nat.not_lt.mpr hb, Nat.add_sub_cancel' hb]
    · simp [hb, Nat.lt_of_not_le hb]
  have hle : x.toNat/2^bits*2^bits ≤ x.toNat := div_mul_le_self _ _
  rw [hshift, toNat_shiftLeft, toNat_ushiftRight, shiftRight_eq_div_pow,
    Nat.shiftLeft_eq, mod_eq_of_lt (lt_of_le_of_lt hle x.isLt)]

theorem page_mask_toNat : (x &&& 0xfffffffffffff000).toNat = x.toNat/2^12*2^12 :=
  and_mask_toNat (by decide)

theorem large_mask_toNat : (x &&& 0xffffffffffe00000).toNat = x.toNat/2^21*2^21 :=
  and_mask_toNat (by decide)

end

variable {x index : Word}

section
variable {turns : ℕ} (hturns : 2^64 ≤ turns)

/-! ## Filling a table -/

section
variable {flags step v a : Word} {m : Mem} {n k j N : ℕ}

theorem fillLoop_value : (fillLoop flags step n m a v).2 = v+BitVec.ofNat 64 n*step := by
  induction n generalizing m a v with
  | zero => simp [fillLoop]
  | succ n ih =>
    rw [fillLoop, ih, add_comm n, ofNat_add, BitVec.add_mul, BitVec.one_mul, BitVec.add_assoc]

theorem fillLoop_outside (h : ¬ InRange x a (8*n)) : (fillLoop flags step n m a v).1 x = m x := by
  induction n generalizing m a v with
  | zero => rfl
  | succ n ih =>
    have hnext : ¬ InRange x (a+8) (8*n) := fun hx => h (InRange.shift (k := 8) hx (by omega))
    rw [fillLoop, ih hnext, store_outside fun hx => h (hx.mono (by omega))]

theorem load_fillLoop (hN : 8*N ≤ 2^64) (hk : k+n ≤ N) (hj : j < N) :
    load (fillLoop flags step n m (slot a k) v).1 (slot a j) 8 =
      if k ≤ j ∧ j < k+n then v+BitVec.ofNat 64 (j-k)*step+flags else load m (slot a j) 8 := by
  induction n generalizing m k v with
  | zero => rw [if_neg (by omega)]; rfl
  | succ n ih =>
    have hnext : slot a k+8 = slot a (k+1) := (slot_slot (j := 1))
    rw [fillLoop, hnext, ih (by omega)]
    rcases Nat.lt_trichotomy j k with hlt | rfl | hgt
    · rw [if_neg (by omega), if_neg (by omega), load_store_slot_ne hN (by omega) hj (by omega)]
    · rw [if_neg (by omega), if_pos (by omega), load_store_slot, Nat.sub_self]
      simp
    · rw [load_store_slot_ne hN (by omega) hj (by omega)]
      refine if_congr (by omega) ?_ rfl
      rw [show j-k = 1+(j-(k+1)) by omega, ofNat_add, BitVec.add_mul, BitVec.one_mul,
        BitVec.add_assoc v]

theorem load_zeroLoop (hN : 8*N ≤ 2^64) (hk : k+n ≤ N) (hj : j < N) :
    load (zeroLoop n m (slot a k)) (slot a j) 8 =
      if k ≤ j ∧ j < k+n then 0 else load m (slot a j) 8 := by
  rw [zeroLoop, load_fillLoop hN hk hj]
  simp

theorem zeroLoop_outside (h : ¬ InRange x a (8*n)) : zeroLoop n m a x = m x :=
  fillLoop_outside h

end

include hturns

theorem slotLoop_eq {table : Word} (h : index.toNat < 2^63) :
    slotLoop turns table index = some (slot table index.toNat) := by
  obtain ⟨t,ht,hq⟩ := WhileLoop.loop_total (fun s : Word × Word => !s.2.sle 0)
    (fun s => some (s.1+8, s.2-1))
    (P := fun s => s.2.toNat ≤ index.toNat ∧ s.1 = slot table (index.toNat-s.2.toNat))
    (Q := fun s => s.1 = slot table index.toNat) (fun s => s.2.toNat) turns
    (by
      rintro ⟨a,i⟩ ⟨hle,ha⟩ hc
      simp only at hle ha
      subst ha
      have hi : i.toNat < 2^63 := lt_of_le_of_lt hle h
      have hpos : i.toNat ≠ 0 := by simpa [sle_eq hi] using hc
      have hpred : (i-1).toNat = i.toNat-1 := by
        have hone : (1 : Word).toNat = 1 := rfl
        rw [toNat_sub, hone]
        omega
      refine ⟨_,rfl,⟨?_,?_⟩,?_⟩
      · rw [hpred]
        exact le_trans (sub_le _ _) hle
      · rw [hpred]
        refine (slot_slot (j := 1)).trans (congrArg (slot table) ?_)
        omega
      · rw [hpred]
        exact sub_lt (by omega) (by omega))
    (by
      rintro ⟨a,i⟩ ⟨hle,ha⟩ hc
      simp only at hle ha
      subst ha
      have hi : i.toNat < 2^63 := lt_of_le_of_lt hle h
      have hzero : i.toNat = 0 := by simpa [sle_eq hi] using hc
      simp [hzero])
    (s := (table, index)) ⟨le_refl _,by simp [slot]⟩ (lt_of_lt_of_le index.isLt hturns)
  rw [slotLoop, ht, map_some, hq]

theorem reduceLoop_eq (h : index.toNat < 2^63) :
    reduceLoop turns index = some (BitVec.ofNat 64 (index.toNat%512)) := by
  have h512 : (512 : Word).toNat = 512 := rfl
  obtain ⟨t,ht,hq⟩ := WhileLoop.loop_total (fun x : Word => !x.slt 512) (fun x => some (x-512))
    (P := fun x => x.toNat < 2^63 ∧ x.toNat%512 = index.toNat%512)
    (Q := fun x => x = BitVec.ofNat 64 (index.toNat%512)) (fun x => x.toNat) turns
    (by
      rintro x ⟨hx,hmod⟩ hc
      have hge : 512 ≤ x.toNat := by simpa [slt_eq hx] using hc
      have hsub : (x-512).toNat = x.toNat-512 := by
        rw [toNat_sub, h512]
        omega
      refine ⟨_,rfl,⟨?_,?_⟩,?_⟩
      · omega
      · rw [hsub]
        omega
      · omega)
    (by
      rintro x ⟨hx,hmod⟩ hc
      have hlt : x.toNat < 512 := by simpa [slt_eq hx] using hc
      apply eq_of_toNat_eq
      rw [toNat_ofNat]
      omega)
    (s := index) ⟨h,rfl⟩ (lt_of_lt_of_le index.isLt hturns)
  rw [reduceLoop, ht, hq]

end

/-! ## Tables under construction -/

/-- The tables made so far: a tree in the area, whose tables are among those that
are wanted in the end. Other memory is as it was. -/
structure Built (A : Area) (T : Finset (ℕ × ℕ)) (m₀ : Mem) (object : Word) (t : Tables)
    (nodes : List (ℕ × ℕ)) (pages : Finset ℕ) : Prop where
  tree : Tree A t.mem nodes pages
  low : nodes[1]? = some (2, 0)
  next : load m₀ object 8+t.next = A.table nodes.length
  outside : ∀ x, ¬ InRange x A.start (4096*A.tables) → t.mem x = m₀ x
  within : ∀ n ∈ nodes, n ∈ T

structure Frame (A : Area) (T : Finset (ℕ × ℕ)) (object : Word) : Prop where
  room : T.card ≤ A.tables
  apart : Disjoint object 8 A.start (4096*A.tables)

section
variable {A : Area} {T : Finset (ℕ × ℕ)} {m₀ : Mem} {self : Word} {t : Tables}
  {nodes : List (ℕ × ℕ)} {pages : Finset ℕ} {k ℓ c : ℕ} {i p total : ℕ}
  {descriptors : List (Word × Word)}

theorem table_succ (A : Area) (k : ℕ) : A.table (k+1) = A.table k+4096 :=
  (slot_slot (j := 512)).symm

theorem slot_inside (hi : i < 512*A.tables)
    (hx : InRange x (slot A.start i) 8) : InRange x A.start (4096*A.tables) :=
  InRange.shift hx (by omega)

theorem table_inside (hk : k < A.tables) (hx : InRange x (A.table k) (8*512)) :
    InRange x A.start (4096*A.tables) :=
  InRange.shift hx (by omega)

namespace Built

section
variable (h : Built A T m₀ self t nodes pages) {n : ℕ × ℕ}
include h

theorem load_outside {b : Word} {n : ℕ}
    (hb : Disjoint b n A.start (4096*A.tables)) : load t.mem b n = load m₀ b n :=
  load_frame fun x hx => h.outside x (hb x hx)

theorem length_lt (hF : Frame A T self)
    (hT : n ∈ T) (hn : n ∉ nodes) : nodes.length < A.tables := by
  have hss : nodes.toFinset ⊂ T := by
    refine (ssubset_iff_of_subset fun x hx => h.within x (List.mem_toFinset.mp hx)).mpr ?_
    exact ⟨n,hT,fun hx => hn (List.mem_toFinset.mp hx)⟩
  have hcard := card_lt_card hss
  rw [toFinset_card_of_nodup h.tree.nodup] at hcard
  exact lt_of_lt_of_le hcard hF.room

theorem append {mem : Mem} {pages' : Finset ℕ} (hT : n ∈ T) (htree : Tree A mem (nodes++[n]) pages')
    (hmem : ∀ x, ¬ InRange x A.start (4096*A.tables) → mem x = t.mem x) :
    Built A T m₀ self ⟨mem,t.next+4096⟩ (nodes++[n]) pages' where
  tree := htree
  low := by rw [getElem?_append_left (List.getElem?_eq_some_iff.mp h.low).1, h.low]
  next := by
    rw [length_append, length_singleton, table_succ, ← h.next, BitVec.add_assoc]
  outside x hx := (hmem x hx).trans (h.outside x hx)
  within := forall_mem_append.mpr ⟨h.within,forall_mem_singleton.mpr hT⟩

theorem newTable (hF : Frame A T self) (hℓ : ℓ < 2)
    (hk : nodes[k]? = some (ℓ+2, c/512)) (hnew : (ℓ+1, c) ∉ nodes) (hT : (ℓ+1, c) ∈ T) :
    Built A T m₀ self ⟨store (zeroLoop 512 t.mem (A.table nodes.length))
      (slot (A.table k) (c%512)) 8 (A.table nodes.length+3),t.next+4096⟩
      (nodes++[(ℓ+1, c)]) pages := by
  have hroom := h.length_lt hF hT hnew
  have hlt := (List.getElem?_eq_some_iff.mp hk).1
  have hparent : slot (A.table k) (c%512) = slot A.start (512*k+c%512) := slot_slot
  have hbound := A.words_bound
  refine h.append hT ?_ fun x hx => ?_
  · refine h.tree.grow hℓ hk hnew hroom load_store_slot ?_ ?_ (Finset.Subset.refl _)
      fun p hp => .inl hp
    · intro i hi hne
      rw [hparent, load_store_slot_ne hbound (by omega) (by omega) hne.symm, Area.table,
        load_zeroLoop hbound (by omega) (by omega), if_neg (by omega)]
    · intro j hj
      have hnone : ¬ (ℓ = 0 ∧ 512*c+j ∈ pages) := by
        rintro ⟨rfl,hp⟩
        have := (h.tree.covered _ hp).1
        rw [show (512*c+j)/512 = c by omega] at this
        exact hnew this
      rw [if_neg hnone, hparent, Area.table, slot_slot,
        load_store_slot_ne hbound (by omega) (by omega) (by omega),
        load_zeroLoop hbound (by omega) (by omega), if_pos (by omega)]
  · have hstored : ¬ InRange x (slot (A.table k) (c%512)) 8 := fun hs =>
      hx (slot_inside (show 512*k+c%512 < 512*A.tables by omega) (hparent ▸ hs))
    refine (store_outside hstored).trans ?_
    exact zeroLoop_outside fun hs => hx (table_inside hroom hs)

theorem fullTable (hF : Frame A T self) (hc : c < 2^17)
    (hk : nodes[k]? = some (0+2, c/512)) (hnew : (0+1, c) ∉ nodes) (hT : (0+1, c) ∈ T) :
    Built A T m₀ self ⟨(fillLoop 0x83 0x200000 512
        (store t.mem (slot (A.table k) (c%512)) 8 (A.table nodes.length+3))
        (A.table nodes.length) (BitVec.ofNat 64 (512*c*2^21))).1,t.next+4096⟩
      (nodes++[(0+1, c)]) (pages ∪ Finset.Ico (512*c) (512*(c+1))) := by
  have hroom := h.length_lt hF hT hnew
  have hlt := (List.getElem?_eq_some_iff.mp hk).1
  have hparent : slot (A.table k) (c%512) = slot A.start (512*k+c%512) := slot_slot
  have hbound := A.words_bound
  refine h.append hT ?_ fun x hx => ?_
  · refine h.tree.grow (by omega) hk hnew hroom ?_ ?_ ?_ subset_union_left ?_
    · rw [hparent, Area.table, load_fillLoop hbound (by omega) (by omega), if_neg (by omega),
        load_store_slot]
      rfl
    · intro i hi hne
      rw [hparent, Area.table, load_fillLoop hbound (by omega) (by omega), if_neg (by omega),
        load_store_slot_ne hbound (by omega) (by omega) hne.symm]
    · intro j hj
      have hin : 0 = 0 ∧ 512*c+j ∈ pages ∪ Finset.Ico (512*c) (512*(c+1)) :=
        ⟨rfl,Finset.mem_union_right _ (by simp only [mem_Ico]; omega)⟩
      rw [if_pos hin, hparent, Area.table, slot_slot, load_fillLoop hbound (by omega) (by omega),
        if_pos (by omega), Nat.add_sub_cancel_left, pageEntry, Nat.add_mul, ofNat_add,
        ofNat_mul j]
      rfl
    · intro p hp
      rcases mem_union.mp hp with hp | hp
      · exact .inl hp
      · rw [mem_Ico] at hp
        exact .inr ⟨rfl,by omega,by omega⟩
  · have hstored : ¬ InRange x (slot (A.table k) (c%512)) 8 := fun hs =>
      hx (slot_inside (show 512*k+c%512 < 512*A.tables by omega) (hparent ▸ hs))
    rw [fillLoop_outside fun hs => hx (table_inside hroom hs), store_outside hstored]

theorem newPage (hp : p < 2^26) (hk : nodes[k]? = some (1, p/512)) :
    Built A T m₀ self { t with mem := store t.mem (slot (A.table k) (p%512)) 8 (pageEntry p) }
      nodes (insert p pages) where
  tree := h.tree.leaf hp hk
  low := h.low
  next := h.next
  outside x hx := by
    have hlt := h.tree.lt_tables hk
    have hslot : slot (A.table k) (p%512) = slot A.start (512*k+p%512) := slot_slot
    have hstored : ¬ InRange x (slot (A.table k) (p%512)) 8 := fun hs =>
      hx (slot_inside (show 512*k+p%512 < 512*A.tables by omega) (hslot ▸ hs))
    exact (store_outside hstored).trans (h.outside x hx)
  within := h.within

end

end Built

/-! ## Tables and pages by the routine -/

theorem mask_table (hk : k < A.tables) : A.table k &&& 0xfffffffffffff000 = A.table k := by
  have := A.table_aligned hk
  apply eq_of_toNat_eq
  rw [page_mask_toNat]
  omega

theorem mask_tableEntry (hk : k < A.tables) :
    A.tableEntry k &&& 0xfffffffffffff000 = A.table k := by
  have := A.aligned
  apply eq_of_toNat_eq
  rw [page_mask_toNat, A.tableEntry_toNat hk, A.table_toNat hk]
  omega

theorem tableEntry_ne_zero (hk : k < A.tables) : A.tableEntry k ≠ 0 := by
  intro h
  have := A.tableEntry_toNat hk
  rw [h] at this
  simp at this

variable {turns : ℕ}

theorem descriptorTable_eq (self pdpt page : Word) (t : Tables) :
    descriptorTable turns self pdpt page t = mmioTable turns self pdpt (page >>> 30) t := by
  rw [descriptorTable, mmioTable]
  cases slotLoop turns pdpt (page >>> 30) <;> rfl

theorem count_toInt {n : ℕ} (ht : total < 2^53) (hn : 512*n < total+512) :
    (BitVec.ofNat 64 total-BitVec.ofNat 64 (512*n)).toInt = (total : ℤ)-512*n := by
  rw [toInt_eq_toNat_cond, toNat_sub, toNat_ofNat, toNat_ofNat]
  split_ifs <;> omega

theorem count_done {n : ℕ} (ht : total < 2^53) (hn : 512*n < total+512) :
    (BitVec.ofNat 64 total-BitVec.ofNat 64 (512*n)).sle 0 = decide (total ≤ 512*n) := by
  have hzero : (0 : Word).toInt = 0 := rfl
  rw [sle_eq_decide, count_toInt ht hn, hzero, decide_eq_decide]
  omega

theorem large_page_toNat (hp : p < 2^43) : (BitVec.ofNat 64 (p*2^21)).toNat = p*2^21 := by
  rw [toNat_ofNat]
  omega

theorem large_page_shift (hp : p < 2^43) (bits : ℕ) :
    (BitVec.ofNat 64 (p*2^21) >>> (21+bits)).toNat = p/2^bits := by
  rw [toNat_ushiftRight, large_page_toNat hp, shiftRight_eq_div_pow, Nat.pow_add,
    ← Nat.div_div_eq_div_mul, Nat.mul_div_cancel _ (by omega)]

theorem large_page_succ (p : ℕ) :
    BitVec.ofNat 64 (p*2^21)+0x200000 = BitVec.ofNat 64 ((p+1)*2^21) := by
  rw [Nat.add_mul, ofNat_add]
  rfl

theorem descriptorPageBody_stop (hp : 2^18 ≤ p) (hlt : p < 2^43) (count : Word) :
    descriptorPageBody turns self (A.table 1) (BitVec.ofNat 64 (p*2^21), count, t) =
      some (.inr t) := by
  have hindex : (BitVec.ofNat 64 (p*2^21) >>> 30).toNat = p/512 := large_page_shift hlt 9
  have h512 : (512 : Word).toNat = 512 := rfl
  refine if_pos ?_
  rw [slt_eq (by omega) (by decide), hindex, h512, decide_eq_false_iff_not]
  omega

/-- The 2 MiB pages that hold 4 KiB pages of a descriptor, below 512 GiB; `total`
counts from the beginning of the first. -/
def chunks (first total : ℕ) : Finset ℕ := Finset.Ico first (min (first+(total+511)/512) (2^18))

def descriptorChunks (start count : Word) : Finset ℕ :=
  if count = 0 then ∅ else chunks (start.toNat/2^21) (count.toNat+start.toNat/2^12%512)

def mapChunks (descriptors : List (Word × Word)) : Finset ℕ :=
  descriptors.toFinset.biUnion fun d => descriptorChunks d.1 d.2

theorem mem_mapChunks :
    p ∈ mapChunks descriptors ↔ ∃ d ∈ descriptors, p ∈ descriptorChunks d.1 d.2 := by
  simp [mapChunks]

theorem mapChunks_concat (descriptors : List (Word × Word)) (d : Word × Word) :
    mapChunks (descriptors++[d]) = mapChunks descriptors ∪ descriptorChunks d.1 d.2 := by
  ext p
  simp only [mem_union, mem_mapChunks, mem_append, List.mem_singleton]
  grind

structure MapAt (m : Mem) (first size : Word) (descriptors : List (Word × Word)) : Prop where
  size_ge : 32 ≤ size.toNat
  bound : first.toNat+size.toNat*descriptors.length < 2^63
  start : ∀ i d, descriptors[i]? = some d →
    load m (first+BitVec.ofNat 64 (size.toNat*i)+8) 8 = d.1
  count : ∀ i d, descriptors[i]? = some d →
    load m (first+BitVec.ofNat 64 (size.toNat*i)+24) 8 = d.2
  nowrap : ∀ d ∈ descriptors, d.1.toNat+4096*d.2.toNat ≤ 2^64

theorem MapAt.load_field {first size : Word}
    (hmap : MapAt m₀ first size descriptors) (h : Built A T m₀ self t nodes pages)
    (hd : Disjoint first (size.toNat*descriptors.length) A.start (4096*A.tables)) {k : ℕ}
    (hi : i < descriptors.length) (hk : k+8 ≤ 32) :
    load t.mem (first+BitVec.ofNat 64 (size.toNat*i)+BitVec.ofNat 64 k) 8 =
      load m₀ (first+BitVec.ofNat 64 (size.toNat*i)+BitVec.ofNat 64 k) 8 := by
  have hsize := hmap.size_ge
  have hle : size.toNat*(i+1) ≤ size.toNat*descriptors.length := mul_le_mul_left _ hi
  rw [Nat.mul_add] at hle
  refine h.load_outside fun x hx => hd x ?_
  rw [add_ofNat_add] at hx
  exact InRange.shift hx (by omega)

def mmioChunks (base last : Word) : Finset ℕ :=
  if base.toNat < last.toNat then Finset.Ico (base.toNat/2^21) ((last.toNat+2^21-1)/2^21) else ∅

variable (hturns : 2^64 ≤ turns)
include hturns

section
variable (h : Built A T m₀ self t nodes pages) {first : ℕ} {last : Word}
include h

theorem setPage_spec (hp : p < 2^26) (hk : nodes[k]? = some (1, p/512)) {pd page : Word}
    (hpd : pd &&& 0xfffffffffffff000 = A.table k) (hpage : page = BitVec.ofNat 64 (p*2^21)) :
    ∃ t', setPage turns pd page t = some t' ∧ Built A T m₀ self t' nodes (insert p pages) := by
  have hindex : (page >>> 21).toNat = p := by
    rw [hpage, toNat_ushiftRight, toNat_ofNat, shiftRight_eq_div_pow]
    omega
  have hmod : (BitVec.ofNat 64 (p%512)).toNat = p%512 := by
    rw [toNat_ofNat]
    omega
  refine ⟨_,?_,h.newPage hp hk⟩
  rw [setPage, reduceLoop_eq hturns (by omega), hindex, bind_some,
    slotLoop_eq hturns (by omega), hpd, hmod, bind_some, pageEntry, hpage]

variable (hF : Frame A T self)
include hF

theorem mmioTable_spec (hℓ : ℓ < 2) (hk : nodes[k]? = some (ℓ+2, c/512)) (hT : (ℓ+1, c) ∈ T)
    (hindex : index.toNat = c%512) :
    ∃ child t' nodes' k', mmioTable turns self (A.table k) index t = some (child, t') ∧
      child &&& 0xfffffffffffff000 = A.table k' ∧ nodes'[k']? = some (ℓ+1, c) ∧
      Built A T m₀ self t' nodes' pages := by
  obtain ⟨hlink,hnone⟩ := h.tree.link_entry hk
  rw [mmioTable, slotLoop_eq hturns (by omega), bind_some, hindex]
  by_cases hc : (ℓ+1, c) ∈ nodes
  · obtain ⟨k',hk'⟩ := mem_iff_getElem?.mp hc
    have hlt := h.tree.lt_tables hk'
    rw [hlink k' hk']
    exact ⟨_,t,nodes,k',if_pos (tableEntry_ne_zero hlt),mask_tableEntry hlt,hk',h⟩
  · have hroom := h.length_lt hF hT hc
    rw [hnone hc, h.load_outside hF.apart, h.next]
    exact ⟨_,_,_,nodes.length,if_neg (by simp),mask_table hroom,by simp,h.newTable hF hℓ hk hc hT⟩

theorem descriptorPageBody_spec (hp : p < 2^18) (hT : (1, p/512) ∈ T) (count : Word) :
    ∃ t' nodes', descriptorPageBody turns self (A.table 1) (BitVec.ofNat 64 (p*2^21), count, t) =
        some (.inl (BitVec.ofNat 64 ((p+1)*2^21), count-512, t')) ∧
      Built A T m₀ self t' nodes' (insert p pages) := by
  have hindex : (BitVec.ofNat 64 (p*2^21) >>> 30).toNat = p/512 := large_page_shift (by omega) 9
  have hin : (BitVec.ofNat 64 (p*2^21) >>> 30).slt 512 := by
    rw [slt_eq (by omega) (by decide), decide_eq_true_eq, hindex]
    exact Nat.div_lt_of_lt_mul hp
  have hpdpt : nodes[1]? = some (0+2, p/512/512) := by
    rw [show p/512/512 = 0 by omega]
    exact h.low
  have hslot : (BitVec.ofNat 64 (p*2^21) >>> 30).toNat = p/512%512 := by omega
  obtain ⟨pd,t1,nodes1,k,htable,hpd,hk,h1⟩ := mmioTable_spec hturns h hF (by omega) hpdpt hT hslot
  obtain ⟨t2,hset,h2⟩ := setPage_spec hturns h1 (by omega) hk hpd rfl
  refine ⟨t2,nodes1,?_,h2⟩
  rw [descriptorPageBody, if_neg (Bool.not_eq_false _ ▸ hin), descriptorTable_eq, htable, bind_some]
  simp only [hset, bind_some, large_page_succ]

theorem mapDescriptorPages_spec (hfirst : first < 2^43) (htotal : total < 2^53)
    (hT : ∀ p ∈ chunks first total, (1, p/512) ∈ T) :
    ∃ t' nodes', mapDescriptorPages turns self (A.table 1) (BitVec.ofNat 64 (first*2^21))
        (BitVec.ofNat 64 total) t = some t' ∧
      Built A T m₀ self t' nodes' (pages ∪ chunks first total) := by
  have hsame (n : ℕ) (hn : 512*n < total+512) (hend : n = 0 ∨ first+n ≤ 2^18)
      (hstop : 2^18 ≤ first+n ∨ total ≤ 512*n) : Finset.Ico first (first+n) = chunks first total := by
    ext p
    simp only [chunks, mem_Ico]
    omega
  obtain ⟨r,hr,nodes',hq⟩ := WhileLoop.run_total (fun s : Word × Word × Tables => !s.2.1.sle 0)
    (descriptorPageBody turns self (A.table 1))
    -- `n` pages are entered
    (P := fun s => ∃ n nodes', s.1 = BitVec.ofNat 64 ((first+n)*2^21) ∧
      s.2.1 = BitVec.ofNat 64 total-BitVec.ofNat 64 (512*n) ∧ 512*n < total+512 ∧
      (n = 0 ∨ first+n ≤ 2^18) ∧
      Built A T m₀ self s.2.2 nodes' (pages ∪ Finset.Ico first (first+n)))
    (Q := fun r => ∃ nodes', Built A T m₀ self (r.elim (·.2.2) id) nodes'
      (pages ∪ chunks first total))
    (fun s => s.2.1.toInt.toNat) turns
    (by
      rintro ⟨page,count,t⟩ ⟨n,nodes,hpage,hcount,hn,hend,h⟩ hc
      subst hpage hcount
      rw [count_done htotal hn] at hc
      have hpos : 512*n < total := by simpa using hc
      by_cases hlow : 2^18 ≤ first+n
      · refine ⟨_,descriptorPageBody_stop hlow (by omega) _,nodes,?_⟩
        rwa [← hsame n hn hend (.inl hlow)]
      · obtain ⟨t',nodes',hbody,h'⟩ := descriptorPageBody_spec hturns h hF
          (Nat.lt_of_not_le hlow) (hT _ (by simp only [chunks, mem_Ico]; omega))
          (BitVec.ofNat 64 total-BitVec.ofNat 64 (512*n))
        have hnext : BitVec.ofNat 64 total-BitVec.ofNat 64 (512*n)-512 =
            BitVec.ofNat 64 total-BitVec.ofNat 64 (512*(n+1)) := by
          bv_omega
        rw [hnext] at hbody
        refine ⟨_,hbody,⟨n+1,nodes',rfl,rfl,by omega,by omega,?_⟩,?_⟩
        · have hsame : insert (first+n) (Finset.Ico first (first+n)) =
              Finset.Ico first (first+(n+1)) := by
            ext p
            simp only [mem_insert, mem_Ico]
            omega
          rwa [← hsame, union_insert]
        · simp only [count_toInt htotal hn, count_toInt htotal (show 512*(n+1) < total+512 by omega)]
          omega)
    (by
      rintro ⟨page,count,t⟩ ⟨n,nodes,hpage,hcount,hn,hend,h⟩ hc
      subst hcount
      rw [count_done htotal hn] at hc
      have hdone : total ≤ 512*n := by simpa using hc
      exact ⟨nodes,by rwa [← hsame n hn hend (.inr hdone)]⟩)
    (s := (BitVec.ofNat 64 (first*2^21), BitVec.ofNat 64 total, t))
    ⟨0,nodes,rfl,by simp,by omega,.inl rfl,by simpa using h⟩ (by
      have := count_toInt htotal (show 512*0 < total+512 by omega)
      simp only [Nat.mul_zero, BitVec.sub_zero] at this
      simp only [this]
      omega)
  exact ⟨_,nodes',by rw [mapDescriptorPages, hr, map_some],hq⟩

theorem mapDescriptor_spec {descriptor start count : Word}
    (hstart : load t.mem (descriptor+8) 8 = start) (hcount : load t.mem (descriptor+24) 8 = count)
    (hwrap : start.toNat+4096*count.toNat ≤ 2^64)
    (hT : ∀ p ∈ descriptorChunks start count, (1, p/512) ∈ T) :
    ∃ t' nodes', mapDescriptor turns self (A.table 1) descriptor t = some t' ∧
      Built A T m₀ self t' nodes' (pages ∪ descriptorChunks start count) := by
  have hle : count.sle 0 = decide (count = 0) := by
    rw [sle_eq (by omega) (by decide), decide_eq_decide, ← toNat_inj]
    exact le_zero
  simp only [mapDescriptor, hstart, hcount, hle, decide_eq_true_eq]
  by_cases h0 : count = 0
  · refine ⟨t,nodes,if_pos h0,?_⟩
    rwa [descriptorChunks, if_pos h0, union_empty]
  · rw [descriptorChunks, if_neg h0] at hT ⊢
    have hshift : (start >>> 12).toNat = start.toNat/2^12 := by
      rw [toNat_ushiftRight, shiftRight_eq_div_pow]
    have hpage : start &&& 0xffffffffffe00000 = BitVec.ofNat 64 (start.toNat/2^21*2^21) := by
      apply eq_of_toNat_eq
      rw [large_mask_toNat, large_page_toNat (by omega)]
    have htotal : count+BitVec.ofNat 64 (start.toNat/2^12%512) =
        BitVec.ofNat 64 (count.toNat+start.toNat/2^12%512) := by
      rw [ofNat_add, ofNat_toNat, setWidth_eq]
    rw [if_neg h0, reduceLoop_eq hturns (by omega), bind_some, hshift, hpage, htotal]
    exact mapDescriptorPages_spec hturns h hF (by omega) (by omega) hT

theorem mapDescriptors_spec {first size : Word} (hmap : MapAt m₀ first size descriptors)
    (hd : Disjoint first (size.toNat*descriptors.length) A.start (4096*A.tables))
    (hT : ∀ p ∈ mapChunks descriptors, (1, p/512) ∈ T)
    (hlast : last.toNat = first.toNat+size.toNat*descriptors.length) :
    ∃ t' nodes', mapDescriptors turns self (A.table 1) first last size t = some t' ∧
      Built A T m₀ self t' nodes' (pages ∪ mapChunks descriptors) := by
  have hsize := hmap.size_ge
  have hbound := hmap.bound
  have hposition (i : ℕ) (hi : i ≤ descriptors.length) :
      (first+BitVec.ofNat 64 (size.toNat*i)).toNat = first.toNat+size.toNat*i := by
    have : size.toNat*i ≤ size.toNat*descriptors.length := mul_le_mul_left _ hi
    rw [toNat_add, toNat_ofNat]
    omega
  have hleft (i : ℕ) (hi : i ≤ descriptors.length) :
      (first+BitVec.ofNat 64 (size.toNat*i)).slt last = decide (i < descriptors.length) := by
    have hnat : size.toNat*i ≤ size.toNat*descriptors.length := mul_le_mul_left _ hi
    rw [slt_eq (by rw [hposition i hi]; omega) (by omega), hposition i hi, hlast]
    simp only [Nat.add_lt_add_iff_left, Nat.mul_lt_mul_left (show 0 < size.toNat by omega)]
  obtain ⟨r,hr,nodes',hq⟩ := WhileLoop.loop_total (fun s : Word × Tables => s.1.slt last)
    (descriptorBody turns self (A.table 1) size)
    -- the first `i` descriptors are done
    (P := fun s => ∃ i nodes', i ≤ descriptors.length ∧
      s.1 = first+BitVec.ofNat 64 (size.toNat*i) ∧
      Built A T m₀ self s.2 nodes' (pages ∪ mapChunks (descriptors.take i)))
    (Q := fun s => ∃ nodes', Built A T m₀ self s.2 nodes' (pages ∪ mapChunks descriptors))
    (fun s => last.toNat-s.1.toNat) turns
    (by
      rintro ⟨descriptor,t⟩ ⟨i,nodes,hi,hdesc,h⟩ hc
      simp only at hdesc h hc
      subst hdesc
      rw [hleft i hi, decide_eq_true_eq] at hc
      have hd' := List.getElem?_eq_getElem hc
      have hmem := mem_of_getElem? hd'
      obtain ⟨t',nodes',hbody,h'⟩ := mapDescriptor_spec hturns h hF
        ((hmap.load_field h hd hc (show 8+8 ≤ 32 by omega)).trans (hmap.start i _ hd'))
        ((hmap.load_field h hd hc (show 24+8 ≤ 32 by omega)).trans (hmap.count i _ hd'))
        (hmap.nowrap _ hmem) fun p hp => hT p (mem_mapChunks.mpr ⟨_,hmem,hp⟩)
      have hnext : first+BitVec.ofNat 64 (size.toNat*i)+size =
          first+BitVec.ofNat 64 (size.toNat*(i+1)) := by
        rw [Nat.mul_add, Nat.mul_one, ofNat_add, ofNat_toNat, setWidth_eq, BitVec.add_assoc]
      refine ⟨(first+BitVec.ofNat 64 (size.toNat*(i+1)), t'),?_,⟨i+1,nodes',hc,rfl,?_⟩,?_⟩
      · rw [descriptorBody, hbody, map_some, hnext]
      · rwa [take_add_one, hd', toList_some, mapChunks_concat, ← union_assoc]
      · have hnat : size.toNat*(i+1) ≤ size.toNat*descriptors.length := mul_le_mul_left _ hc
        have hmul : size.toNat*(i+1) = size.toNat*i+size.toNat := mul_succ _ _
        simp only [hposition (i+1) hc, hposition i hi]
        omega)
    (by
      rintro ⟨descriptor,t⟩ ⟨i,nodes,hi,hdesc,h⟩ hc
      simp only at hdesc h hc
      subst hdesc
      rw [hleft i hi, decide_eq_false_iff_not, not_lt] at hc
      rw [take_of_length_le hc] at h
      exact ⟨nodes,h⟩)
    (s := (first, t)) ⟨0,nodes,by omega,by simp,by simpa [mapChunks] using h⟩
    (by simp only; omega)
  exact ⟨_,nodes',by rw [mapDescriptors, hr, map_some],hq⟩

theorem mmioPageBody_spec (hp : p < 2^26) (hT2 : (2, p/512/512) ∈ T) (hT1 : (1, p/512) ∈ T) :
    ∃ t' nodes', mmioPageBody turns self (A.table 0) (BitVec.ofNat 64 (p*2^21), t) =
        some (.inl (BitVec.ofNat 64 ((p+1)*2^21), t')) ∧
      Built A T m₀ self t' nodes' (insert p pages) := by
  have hindex4 : (BitVec.ofNat 64 (p*2^21) >>> 39).toNat = p/2^18 := large_page_shift (by omega) 18
  have hindex3 : (BitVec.ofNat 64 (p*2^21) >>> 30).toNat = p/512 := large_page_shift (by omega) 9
  have hin : (BitVec.ofNat 64 (p*2^21) >>> 39).slt 512 := by
    rw [slt_eq (by omega) (by decide), decide_eq_true_eq, hindex4]
    have h512 : (512 : Word).toNat = 512 := rfl
    omega
  have hroot : nodes[0]? = some (1+2, p/512/512/512) := by
    rw [show p/512/512/512 = 0 by omega]
    exact h.tree.root
  have hslot4 : (BitVec.ofNat 64 (p*2^21) >>> 39).toNat = p/512/512%512 := by omega
  obtain ⟨pdpt,t1,nodes1,k1,htable1,hpdpt,hk1,h1⟩ :=
    mmioTable_spec hturns h hF (by omega) hroot hT2 hslot4
  have hslot3 : (BitVec.ofNat 64 (p/512%512)).toNat = p/512%512 := by
    rw [toNat_ofNat]
    omega
  obtain ⟨pd,t2,nodes2,k2,htable2,hpd,hk2,h2⟩ :=
    mmioTable_spec hturns h1 hF (by omega) hk1 hT1 hslot3
  obtain ⟨t3,hset,h3⟩ := setPage_spec hturns h2 hp hk2 hpd rfl
  refine ⟨t3,nodes2,?_,h3⟩
  rw [mmioPageBody, if_neg (Bool.not_eq_false _ ▸ hin), htable1, bind_some]
  simp only [reduceLoop_eq hturns (show (BitVec.ofNat 64 (p*2^21) >>> 30).toNat < 2^63 by omega),
    hindex3, bind_some, hpdpt, htable2, hset, large_page_succ]

theorem mapMmioPages_spec (hlast : last.toNat < 2^47)
    (hT : ∀ p ∈ Finset.Ico first ((last.toNat+2^21-1)/2^21), (2, p/512/512) ∈ T ∧ (1, p/512) ∈ T)
    (hfirst : first*2^21 < last.toNat) :
    ∃ t' nodes', mapMmioPages turns self (A.table 0) (BitVec.ofNat 64 (first*2^21)) last t =
        some t' ∧
      Built A T m₀ self t' nodes'
        (pages ∪ Finset.Ico first ((last.toNat+2^21-1)/2^21)) := by
  obtain ⟨r,hr,nodes',hq⟩ := WhileLoop.run_total (fun s : Word × Tables => s.1.slt last)
    (mmioPageBody turns self (A.table 0))
    -- the pages below `p` are entered
    (P := fun s => ∃ p nodes', s.1 = BitVec.ofNat 64 (p*2^21) ∧ first ≤ p ∧
      p ≤ (last.toNat+2^21-1)/2^21 ∧
      Built A T m₀ self s.2 nodes' (pages ∪ Finset.Ico first p))
    (Q := fun r => ∃ nodes', Built A T m₀ self (r.elim (·.2) id) nodes'
      (pages ∪ Finset.Ico first ((last.toNat+2^21-1)/2^21)))
    (fun s => last.toNat-s.1.toNat) turns
    (by
      rintro ⟨page,t⟩ ⟨p,nodes,hpage,hfp,hle,h⟩ hc
      simp only at hpage h hc
      subst hpage
      have hat := large_page_toNat (show p < 2^43 by omega)
      rw [slt_eq (by omega) (by omega), decide_eq_true_eq] at hc
      obtain ⟨hT2,hT1⟩ := hT p (by simp only [mem_Ico]; omega)
      obtain ⟨t',nodes',hbody,h'⟩ := mmioPageBody_spec hturns h hF (by omega) hT2 hT1
      refine ⟨_,hbody,⟨p+1,nodes',rfl,by omega,by omega,?_⟩,?_⟩
      · have hsame : insert p (Finset.Ico first p) = Finset.Ico first (p+1) := by
          ext q
          simp only [mem_insert, mem_Ico]
          omega
        rwa [← hsame, union_insert]
      · have hnext := large_page_toNat (show p+1 < 2^43 by omega)
        simp only [hnext, hat]
        omega)
    (by
      rintro ⟨page,t⟩ ⟨p,nodes,hpage,hfp,hle,h⟩ hc
      simp only at hpage h hc
      subst hpage
      have hat := large_page_toNat (show p < 2^43 by omega)
      rw [slt_eq (by omega) (by omega), decide_eq_false_iff_not] at hc
      obtain rfl : p = (last.toNat+2^21-1)/2^21 := by omega
      exact ⟨nodes,h⟩)
    (s := (BitVec.ofNat 64 (first*2^21), t))
    ⟨first,nodes,rfl,by omega,by omega,by simpa using h⟩ (by simp only; omega)
  exact ⟨_,nodes',by rw [mapMmioPages, hr, map_some],hq⟩

theorem mapMmio_spec {mmio base length : Word} (hbase : load t.mem mmio 8 = base)
    (hlength : load t.mem (mmio+8) 8 = length) (hpos : base ≠ 0)
    (hend : base.toNat+length.toNat < 2^47)
    (hT : ∀ p ∈ mmioChunks base (base+length), (2, p/512/512) ∈ T ∧ (1, p/512) ∈ T) :
    ∃ t' nodes', mapMmio turns self (A.table 0) mmio t = some t' ∧
      Built A T m₀ self t' nodes' (pages ∪ mmioChunks base (base+length)) := by
  have hlast : (base+length).toNat = base.toNat+length.toNat := by
    rw [toNat_add]
    omega
  have hzero : base.sle 0 = false := by
    rw [sle_eq (by omega) (by decide), decide_eq_false_iff_not]
    exact fun h0 => hpos (toNat_inj.mp (le_zero.mp h0))
  have hempty : (base+length).sle base = decide ((base+length).toNat ≤ base.toNat) :=
    sle_eq (by omega) (by omega)
  simp only [mapMmio, hbase, hlength, hzero, hempty, Bool.false_eq_true, false_or,
    decide_eq_true_eq]
  by_cases hle : (base+length).toNat ≤ base.toNat
  · refine ⟨t,nodes,if_pos hle,?_⟩
    rwa [mmioChunks, if_neg (not_lt.mpr hle), union_empty]
  · have hpage : base &&& 0xffffffffffe00000 = BitVec.ofNat 64 (base.toNat/2^21*2^21) := by
      apply eq_of_toNat_eq
      rw [large_mask_toNat, large_page_toNat (by omega)]
    rw [mmioChunks, if_pos (Nat.lt_of_not_le hle)] at hT ⊢
    rw [if_neg hle, hpage]
    exact mapMmioPages_spec hturns h hF (by omega) hT (by omega)

end

/-- The root table, the first table below it and tables of pages. -/
def lowNodes (n : ℕ) : List (ℕ × ℕ) := (3, 0)::(2, 0)::(List.range n).map (1, ·)

theorem lowBody_spec (h : Built A T m₀ self t (lowNodes i) (Finset.Ico 0 (512*i)))
    (hF : Frame A T self) (hi : i < 4) (hT : (1, i) ∈ T) :
    ∃ t', lowBody turns self (A.table 1) (BitVec.ofNat 64 i, BitVec.ofNat 64 (512*i*2^21), t) =
        some (BitVec.ofNat 64 (i+1), BitVec.ofNat 64 (512*(i+1)*2^21), t') ∧
      Built A T m₀ self t' (lowNodes (i+1)) (Finset.Ico 0 (512*(i+1))) := by
  have hindex : (BitVec.ofNat 64 i).toNat = i := by
    rw [toNat_ofNat]
    omega
  have hpdpt : (lowNodes i)[1]? = some (0+2, i/512) := by
    rw [show i/512 = 0 by omega]
    rfl
  have hnew : (0+1, i) ∉ lowNodes i := by simp [lowNodes]
  have hfull := h.fullTable hF (by omega) hpdpt hnew hT
  have hnodes : lowNodes i++[(0+1, i)] = lowNodes (i+1) := by
    simp [lowNodes, range_succ]
  have hpages : Finset.Ico 0 (512*i) ∪ Finset.Ico (512*i) (512*(i+1)) =
      Finset.Ico 0 (512*(i+1)) := by
    ext p
    simp only [mem_union, mem_Ico]
    omega
  rw [hnodes, hpages] at hfull
  refine ⟨_,?_,hfull⟩
  have hvalue : BitVec.ofNat 64 (512*i*2^21)+BitVec.ofNat 64 512*0x200000 =
      BitVec.ofNat 64 (512*(i+1)*2^21) := by
    rw [Nat.mul_add, Nat.add_mul, ofNat_add]
    rfl
  rw [lowBody]
  simp only [slotLoop_eq hturns (show (BitVec.ofNat 64 i).toNat < 2^63 by omega), bind_some,
    hindex, h.load_outside hF.apart, h.next, fillLoop_value, hvalue, ofNat_add,
    mod_eq_of_lt (show i < 512 by omega)]
  rfl

theorem mapLow_spec (h : Built A T m₀ self t (lowNodes 0) (Finset.Ico 0 0)) (hF : Frame A T self)
    (hT : ∀ i < 4, (1, i) ∈ T) :
    ∃ t', mapLow turns self (A.table 1) t = some t' ∧
      Built A T m₀ self t' (lowNodes 4) (Finset.Ico 0 2048) := by
  have h4 : (4 : Word).toNat = 4 := rfl
  have hindex (i : ℕ) (hi : i ≤ 4) : (BitVec.ofNat 64 i).toNat = i := by
    rw [toNat_ofNat]
    omega
  obtain ⟨r,hr,hq⟩ := WhileLoop.loop_total (fun s : Word × Word × Tables => s.1.slt 4)
    (lowBody turns self (A.table 1))
    (P := fun s => ∃ i ≤ 4, s.1 = BitVec.ofNat 64 i ∧ s.2.1 = BitVec.ofNat 64 (512*i*2^21) ∧
      Built A T m₀ self s.2.2 (lowNodes i) (Finset.Ico 0 (512*i)))
    (Q := fun s => Built A T m₀ self s.2.2 (lowNodes 4) (Finset.Ico 0 2048))
    (fun s => 4-s.1.toNat) turns
    (by
      rintro ⟨_,_,t⟩ ⟨i,hi,rfl,rfl,h⟩ hc
      rw [slt_eq (by rw [hindex i hi]; omega) (by decide), hindex i hi, h4, decide_eq_true_eq] at hc
      obtain ⟨t',hbody,h'⟩ := lowBody_spec hturns h hF hc (hT i hc)
      refine ⟨_,hbody,⟨i+1,hc,rfl,rfl,h'⟩,?_⟩
      simp only [hindex i hi, hindex (i+1) hc]
      omega)
    (by
      rintro ⟨_,_,t⟩ ⟨i,hi,rfl,rfl,h⟩ hc
      rw [slt_eq (by rw [hindex i hi]; omega) (by decide), hindex i hi, h4,
        decide_eq_false_iff_not] at hc
      obtain rfl : i = 4 := by omega
      exact h)
    (s := (0, 0, t)) ⟨0,by omega,rfl,rfl,h⟩ (by simp only; omega)
  exact ⟨_,by rw [mapLow, hr, map_some],hq⟩

end

end Wrela.IdentityPaging

import Mathlib.Data.BitVec

/-!
# Byte-addressed memory

Little-endian words over a 64-bit address space that wraps around. A range is
given by its first address and its length in bytes.
-/

set_option autoImplicit false

namespace X86
open List BitVec Nat

abbrev Word := BitVec 64

section
variable {x y : Word}

theorem slt_eq (hx : x.toNat < 2^63) (hy : y.toNat < 2^63) :
    x.slt y = decide (x.toNat < y.toNat) := by
  rw [slt_eq_decide, toInt_eq_toNat_of_lt (by omega), toInt_eq_toNat_of_lt (by omega)]
  simp

theorem le_of_not_slt (hy : y.toNat < 2^63) (h : ¬ x.slt y) : x.toNat < 2^63 ∧ y.toNat ≤ x.toNat := by
  rw [slt_iff_toInt_lt, toInt_eq_toNat_cond, toInt_eq_toNat_cond] at h
  have := x.isLt
  split at h <;> split at h <;> omega

end

abbrev Mem := Word → BitVec 8

def InRange (x a : Word) (n : ℕ) : Prop := (x-a).toNat < n

instance (x a : Word) (n : ℕ) : Decidable (InRange x a n) :=
  inferInstanceAs (Decidable (_ < _))

def Disjoint (a : Word) (n : ℕ) (b : Word) (k : ℕ) : Prop :=
  ∀ x, InRange x a n → ¬ InRange x b k

/-- Each range ends before the other begins, around the address space. -/
def Apart (a : Word) (n : ℕ) (b : Word) (k : ℕ) : Prop :=
  n = 0 ∨ k = 0 ∨ n ≤ (b-a).toNat ∧ k ≤ (a-b).toNat

instance (a : Word) (n : ℕ) (b : Word) (k : ℕ) : Decidable (Apart a n b k) :=
  inferInstanceAs (Decidable (_ ∨ _))

def load (m : Mem) (a : Word) : ℕ → Word
  | 0 => 0
  | n+1 => (m a).setWidth 64 ||| load m (a+1) n <<< 8

def bytes (m : Mem) (a : Word) : ℕ → List (BitVec 8)
  | 0 => []
  | n+1 => m a::bytes m (a+1) n

def byteOf (v : Word) (k : ℕ) : BitVec 8 := (v >>> (8*k)).setWidth 8

def store (m : Mem) (a : Word) (n : ℕ) (v : Word) : Mem := fun x =>
  if InRange x a n then byteOf v (x-a).toNat else m x

def copy (m : Mem) (dst src : Word) (n : ℕ) : Mem := fun x =>
  if InRange x dst n then m (src+(x-dst)) else m x

section
variable {x a b : Word} {n k : ℕ}

theorem inRange_offset (hk : k < n) : InRange (a+BitVec.ofNat 64 k) a n := by
  have he : a+BitVec.ofNat 64 k-a = BitVec.ofNat 64 k := by bv_omega
  rw [InRange, he, toNat_ofNat]
  exact lt_of_le_of_lt (mod_le _ _) hk

theorem inRange_self (hn : 0 < n) : InRange a a n := by
  rw [InRange, BitVec.sub_self]
  exact hn

theorem inRange_add_iff (h : k+n ≤ 2^64) :
    InRange x (a+BitVec.ofNat 64 k) n ↔ k ≤ (x-a).toNat ∧ (x-a).toNat < k+n := by
  simp only [InRange, toNat_sub, toNat_add, toNat_ofNat]
  omega

theorem inRange_offset_iff {o : ℕ} (hk : k < 2^64) (h : o+n ≤ 2^64) :
    InRange (a+BitVec.ofNat 64 k) (a+BitVec.ofNat 64 o) n ↔ o ≤ k ∧ k < o+n := by
  have hsub : (a+BitVec.ofNat 64 k-a).toNat = k := by
    rw [show a+BitVec.ofNat 64 k-a = BitVec.ofNat 64 k by bv_omega, toNat_ofNat, mod_eq_of_lt hk]
  rw [inRange_add_iff h, hsub]

theorem Disjoint.symm (h : Disjoint a n b k) : Disjoint b k a n :=
  fun x hb ha => h x ha hb

theorem Apart.disjoint (h : Apart a n b k) : Disjoint a n b k := by
  intro x ha hb
  simp only [Apart, InRange, toNat_sub] at h ha hb
  have := x.isLt
  have := a.isLt
  have := b.isLt
  omega

theorem disjoint_of_le (h : a.toNat+n ≤ b.toNat) (hb : b.toNat+k ≤ 2^64) : Disjoint a n b k := by
  intro x hx hx'
  simp only [InRange, toNat_sub] at hx hx'
  have := x.isLt
  omega

/-- A range that does not wrap around holds the addresses between its ends. -/
theorem InRange.bounds (h : InRange x a n) (ha : a.toNat+n ≤ 2^64) :
    a.toNat ≤ x.toNat ∧ x.toNat < a.toNat+n := by
  simp only [InRange, toNat_sub] at h
  have := x.isLt
  omega

theorem InRange.mono (h : InRange x a n) (hk : n ≤ k) : InRange x a k := lt_of_lt_of_le h hk

theorem InRange.shift {j : ℕ} (h : InRange x (a+BitVec.ofNat 64 k) j) (hk : k+j ≤ n) :
    InRange x a n := by
  rcases lt_or_ge (2^64) (k+j) with hw | hw
  · exact lt_trans (x-a).isLt (lt_of_lt_of_le hw hk)
  · exact lt_of_lt_of_le ((inRange_add_iff hw).mp h).2 hk

end

section
variable {m m' : Mem} {a b : Word} {n k : ℕ} {ws : List (ℕ × ℕ × Word)}

theorem bytes_eq_map (m : Mem) (a : Word) (n : ℕ) :
    bytes m a n = (List.range n).map fun k => m (a+BitVec.ofNat 64 k) := by
  induction n generalizing a with
  | zero => rfl
  | succ n ih =>
    rw [bytes, ih, range_succ_eq_map, map_cons, map_map]
    congr 1
    · rw [BitVec.add_zero]
    · refine map_congr_left fun k _ => ?_
      simp only [Function.comp, succ_eq_add_one, ofNat_add]
      rw [add_assoc, add_comm 1]
      rfl

theorem byteOf_or (v w : Word) (k : ℕ) : byteOf (v ||| w) k = byteOf v k ||| byteOf w k := by
  ext i hi
  simp [byteOf]

theorem byteOf_setWidth_zero (b : BitVec 8) : byteOf (b.setWidth 64) 0 = b := by
  ext i hi
  simp [byteOf]

theorem byteOf_setWidth_succ (b : BitVec 8) (k : ℕ) : byteOf (b.setWidth 64) (k+1) = 0 := by
  ext i hi
  simp only [byteOf, getElem_setWidth, getLsbD_ushiftRight, getLsbD_setWidth]
  rw [getLsbD_of_ge b _ (by omega), Bool.and_false]
  simp

variable (v : Word) {o : ℕ} {ps : List (ℕ × ℕ)} {dst src x : Word}

theorem byteOf_shift_zero : byteOf (v <<< 8) 0 = 0 := by
  ext i hi
  simp [byteOf]

theorem byteOf_shift_succ {k : ℕ} (hk : k < 7) : byteOf (v <<< 8) (k+1) = byteOf v k := by
  ext i hi
  simp only [byteOf, getElem_setWidth, getLsbD_ushiftRight, getLsbD_shiftLeft]
  simp [show 8*(k+1)+i < 64 by omega, show ¬ 8*(k+1)+i < 8 by omega,
    show 8*(k+1)+i-8 = 8*k+i by omega]

theorem byteOf_load (hk : k < n) (hn : n ≤ 8) :
    byteOf (load m a n) k = m (a+BitVec.ofNat 64 k) := by
  induction n generalizing a k with
  | zero => omega
  | succ n ih =>
    rw [load, byteOf_or]
    cases k with
    | zero =>
      rw [byteOf_setWidth_zero, byteOf_shift_zero]
      simp
    | succ k =>
      rw [byteOf_setWidth_succ, byteOf_shift_succ _ (by omega), ih (by omega) (by omega)]
      rw [show a+1+BitVec.ofNat 64 k = a+BitVec.ofNat 64 (k+1) by bv_omega]
      exact zero_or

theorem load_congr (h : ∀ k < n, m (a+BitVec.ofNat 64 k) = m' (b+BitVec.ofNat 64 k)) :
    load m a n = load m' b n := by
  induction n generalizing a b with
  | zero => rfl
  | succ n ih =>
    rw [load, load]
    have h0 := h 0 (by omega)
    simp only [BitVec.add_zero] at h0
    rw [h0, ih]
    intro k hk
    have := h (k+1) (by omega)
    rwa [show a+1+BitVec.ofNat 64 k = a+BitVec.ofNat 64 (k+1) by bv_omega,
      show b+1+BitVec.ofNat 64 k = b+BitVec.ofNat 64 (k+1) by bv_omega]

theorem add_ofNat_add (a : Word) (j k : ℕ) :
    a+BitVec.ofNat 64 j+BitVec.ofNat 64 k = a+BitVec.ofNat 64 (j+k) := by
  rw [add_assoc, ofNat_add]

theorem load_frame (h : ∀ x, InRange x a n → m' x = m x) : load m' a n = load m a n :=
  load_congr fun _ hk => h _ (inRange_offset hk)

theorem byteOf_load_of_ge (hk : n ≤ k) (hk8 : k < 8) : byteOf (load m a n) k = 0 := by
  induction n generalizing a k with
  | zero =>
    ext i hi
    simp [byteOf, load]
  | succ n ih =>
    cases k with
    | zero => omega
    | succ k =>
      rw [load, byteOf_or, byteOf_setWidth_succ, byteOf_shift_succ _ (by omega),
        ih (by omega) (by omega)]
      exact zero_or

theorem word_ext {v w : Word} (h : ∀ k < 8, byteOf v k = byteOf w k) : v = w := by
  apply eq_of_getLsbD_eq
  intro i hi
  have hb := congrArg (fun b => b.getLsbD (i%8)) (h (i/8) (by omega))
  simp only [byteOf, getLsbD_setWidth, getLsbD_ushiftRight,
    show i%8 < 8 by omega, decide_true, Bool.true_and, show 8*(i/8)+i%8 = i by omega] at hb
  exact hb

def lowBytes (n : ℕ) (v : Word) : Word := (v.setWidth (8*n)).setWidth 64

theorem byteOf_lowBytes (n k : ℕ) (hk : k < 8) :
    byteOf (lowBytes n v) k = if k < n then byteOf v k else 0 := by
  ext i hi
  simp only [byteOf, lowBytes, getElem_setWidth, getLsbD_ushiftRight,
    getLsbD_setWidth, show 8*k+i < 64 by omega, decide_true, Bool.true_and]
  split_ifs with hn
  · rw [decide_eq_true (by omega), Bool.true_and]
    simp
  · rw [decide_eq_false (by omega), Bool.false_and]
    simp

theorem lowBytes_eight : lowBytes 8 v = v := by
  simp [lowBytes]

theorem toNat_lowBytes (n : ℕ) (hn : n ≤ 8) (v : Word) :
    (lowBytes n v).toNat = v.toNat % 2^(8*n) := by
  rw [lowBytes, toNat_setWidth, toNat_setWidth]
  apply mod_eq_of_lt
  exact lt_of_lt_of_le (mod_lt _ (Nat.two_pow_pos _)) (Nat.pow_le_pow_right (by omega) (by omega))

theorem lowBytes_load : lowBytes n (load m a n) = load m a n := by
  apply word_ext
  intro k hk
  rw [byteOf_lowBytes _ n k hk]
  split_ifs with hkn
  · rfl
  · rw [byteOf_load_of_ge (by omega) hk]

theorem toNat_load_lt (hn : n ≤ 8) : (load m a n).toNat < 2^(8*n) := by
  rw [← lowBytes_load, toNat_lowBytes n hn]
  exact mod_lt _ (Nat.two_pow_pos _)

theorem store_inside (hk : k < n) (hn : n ≤ 2^64) :
    store m a n v (a+BitVec.ofNat 64 k) = byteOf v k := by
  have he : a+BitVec.ofNat 64 k-a = BitVec.ofNat 64 k := by bv_omega
  rw [store, if_pos (inRange_offset hk), he, toNat_ofNat, mod_eq_of_lt (by omega)]

theorem load_store (hn : n ≤ 8) : load (store m a n v) a n = lowBytes n v := by
  apply word_ext
  intro k hk
  rw [byteOf_lowBytes v n k hk]
  split_ifs with hkn
  · rw [byteOf_load hkn hn, store_inside v hkn (by omega)]
  · exact byteOf_load_of_ge (by omega) hk

theorem byteOf_zero (k : ℕ) : byteOf 0 k = 0 := by
  simp [byteOf]

theorem store_outside {x v : Word} (h : ¬ InRange x a n) : store m a n v x = m x := if_neg h

theorem load_store_other {v : Word} (h : Disjoint a n b k) :
    load (store m b k v) a n = load m a n :=
  load_frame fun x hx => if_neg (h x hx)

/-- Words stored one after the other, each with its offset and size. -/
def storeAll (a : Word) : Mem → List (ℕ × ℕ × Word) → Mem
  | m, [] => m
  | m, (o, n, v)::ws => storeAll a (store m (a+BitVec.ofNat 64 o) n v) ws

theorem storeAll_outside {x : Word}
    (h : ∀ w ∈ ws, ¬ InRange x (a+BitVec.ofNat 64 w.1) w.2.1) : storeAll a m ws x = m x := by
  induction ws generalizing m with
  | nil => rfl
  | cons w ws ih =>
    obtain ⟨o,n,v⟩ := w
    rw [storeAll, ih fun w hw => h w (mem_cons_of_mem _ hw)]
    exact store_outside (h (o,n,v) (mem_cons_self ..))

theorem load_storeAll (hp : ws.Pairwise fun p q => q.1+q.2.1 ≤ p.1)
    (hb : ∀ w ∈ ws, w.1+w.2.1 ≤ 2^64) {v : Word} (hw : (o, n, v) ∈ ws) (hn : n ≤ 8) :
    load (storeAll a m ws) (a+BitVec.ofNat 64 o) n = lowBytes n v := by
  induction ws generalizing m with
  | nil => cases hw
  | cons w ws ih =>
    obtain ⟨hfirst,hrest⟩ := pairwise_cons.mp hp
    rcases mem_cons.mp hw with rfl | hw
    · rw [storeAll, ← load_store v hn]
      refine load_frame fun x hx => storeAll_outside fun q hq => ?_
      have hq1 := hfirst q hq
      have hq2 := hb q (mem_cons_of_mem _ hq)
      have hw2 := hb _ (mem_cons_self ..)
      simp only at hq1 hw2
      rw [inRange_add_iff hw2] at hx
      rw [inRange_add_iff hq2]
      omega
    · exact ih hrest (fun w hw => hb w (mem_cons_of_mem _ hw)) hw

/-- Copying piece by piece, each one loaded and stored before the next; a
piece is its offset and its length. -/
def copyPieces (m : Mem) (dst src : Word) : List (ℕ × ℕ) → Mem
  | [] => m
  | (o, n)::ps =>
    copyPieces (store m (dst+BitVec.ofNat 64 o) n (load m (src+BitVec.ofNat 64 o) n)) dst src ps

/-- Pieces of one to eight bytes that cover the bytes from `o` to `n` in order. -/
def Covers (o n : ℕ) : List (ℕ × ℕ) → Prop
  | [] => o = n
  | (p, k)::ps => p = o ∧ (0 < k ∧ k ≤ 8) ∧ Covers (o+k) n ps

theorem Covers.le (h : Covers o n ps) : o ≤ n := by
  induction ps generalizing o with
  | nil => exact le_of_eq h
  | cons p ps ih => exact le_trans (le_add_right _ _) (ih h.2.2)

theorem copyPieces_frame (h : Covers o n ps)
    (hx : ¬ InRange x dst n) : copyPieces m dst src ps x = m x := by
  induction ps generalizing m o with
  | nil => rfl
  | cons p ps ih =>
    obtain ⟨rfl,hk,h⟩ := h
    rw [copyPieces, ih h, store_outside fun hp => hx (hp.shift h.le)]

theorem store_load_piece (hn : n ≤ 8) (ho : o+n ≤ 2^64)
    (hx : o ≤ (x-dst).toNat ∧ (x-dst).toNat < o+n) :
    store m (dst+BitVec.ofNat 64 o) n (load m (src+BitVec.ofNat 64 o) n) x = m (src+(x-dst)) := by
  have hin : InRange x (dst+BitVec.ofNat 64 o) n := (inRange_add_iff ho).mpr hx
  rw [store, if_pos hin, byteOf_load hin hn]
  congr 1
  rw [ofNat_toNat, setWidth_eq]
  bv_omega

theorem copyPieces_eq (h : Covers o n ps) (hd : Disjoint src n dst n) (hn : n ≤ 2^64) :
    copyPieces m dst src ps x =
      if o ≤ (x-dst).toNat ∧ (x-dst).toNat < n then m (src+(x-dst)) else m x := by
  induction ps generalizing m o with
  | nil =>
    have : o = n := h
    rw [copyPieces, if_neg (by omega)]
  | cons p ps ih =>
    obtain ⟨o,k⟩ := p
    obtain ⟨rfl,hk,h⟩ := h
    have hle := h.le
    rw [copyPieces, ih h]
    rcases lt_or_ge (x-dst).toNat o with h1 | h1
    · rw [if_neg (by omega), if_neg (by omega), store_outside]
      rw [inRange_add_iff (by omega)]
      omega
    · rcases lt_or_ge (x-dst).toNat (o+k) with h2 | h2
      · rw [if_neg (by omega), if_pos (by omega), store_load_piece hk.2 (by omega) ⟨h1,h2⟩]
      · rcases lt_or_ge (x-dst).toNat n with h3 | h3
        · -- the source is still as it was
          rw [if_pos ⟨h2,h3⟩, if_pos ⟨h1,h3⟩, store_outside]
          intro hin
          refine hd (src+(x-dst)) ?_ (hin.shift hle)
          rw [InRange, show src+(x-dst)-src = x-dst by bv_omega]
          exact h3
        · rw [if_neg (by omega), if_neg (by omega), store_outside]
          rw [inRange_add_iff (by omega)]
          omega

theorem copyPieces_below (h : Covers o n ps)
    (hn : n ≤ 2^64) (hx : (x-dst).toNat < o) : copyPieces m dst src ps x = m x := by
  induction ps generalizing m o with
  | nil => rfl
  | cons p ps ih =>
    obtain ⟨o,k⟩ := p
    obtain ⟨rfl,hk,h⟩ := h
    have hle := h.le
    rw [copyPieces, ih h (by omega), store_outside]
    rw [inRange_add_iff (by omega)]
    omega

theorem copyPieces_first {dst src : Word} (h : Covers 0 n ps) (hpos : 0 < n)
    (hn : n ≤ 2^64) : copyPieces m dst src ps dst = m src := by
  cases ps with
  | nil => exact absurd h (Nat.ne_of_lt hpos)
  | cons p ps =>
    obtain ⟨o,k⟩ := p
    obtain ⟨rfl,hk,h⟩ := h
    have hle := h.le
    have hself : (dst-dst).toNat = 0 := by rw [BitVec.sub_self]; rfl
    rw [copyPieces, copyPieces_below h hn (by omega), store_load_piece hk.2 (by omega) (by omega),
      BitVec.sub_self, BitVec.add_zero]

theorem copyPieces_eq_copy {dst src : Word} (h : Covers 0 n ps)
    (hd : Disjoint src n dst n) (hn : n ≤ 2^64) : copyPieces m dst src ps = copy m dst src n := by
  funext x
  rw [copyPieces_eq h hd hn, copy]
  exact if_congr (by simp [InRange]) rfl rfl

theorem length_bytes (m : Mem) (a : Word) (n : ℕ) : (bytes m a n).length = n := by
  rw [bytes_eq_map, length_map, length_range]

theorem bytes_frame (h : ∀ x, InRange x a n → m' x = m x) : bytes m' a n = bytes m a n := by
  rw [bytes_eq_map, bytes_eq_map]
  exact map_congr_left fun k hk => h _ (inRange_offset (mem_range.mp hk))

theorem copy_inside {dst src : Word} (hk : k < n) :
    copy m dst src n (dst+BitVec.ofNat 64 k) = m (src+BitVec.ofNat 64 k) := by
  rw [copy, if_pos (inRange_offset hk)]
  congr 1
  bv_omega

theorem bytes_copy (m : Mem) (dst src : Word) (n : ℕ) :
    bytes (copy m dst src n) dst n = bytes m src n := by
  rw [bytes_eq_map, bytes_eq_map]
  exact map_congr_left fun k hk => copy_inside (mem_range.mp hk)

theorem copy_outside (hx : ¬ InRange x dst n) : copy m dst src n x = m x :=
  if_neg hx

end

end X86

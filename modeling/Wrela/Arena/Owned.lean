import Wrela.Arena.Child

/-!
# Executor arenas of owned memory

Each claim rounds the start of the owned memory up to the alignment and takes the
length behind it. The lowered claim computes with wrapping words, checks nothing,
and writes what is left to the copy of the field `arena` it has loaded: the next
claim starts from the same address.
-/

set_option autoImplicit false

namespace Wrela.Owned
open X86 Transition Arenas ChildArenas List BitVec Nat Option

variable (arena : MutableBytes)

/-- The operations a claim is lowered to, on a copy of the field `arena`: the
executor memory constructed, and what the two stores leave in the copy. -/
def claimExecutorArena (length align : Word) : Arena × MutableBytes :=
  let alignMinusOne := align-1
  let adjustedBase := arena.address+alignMinusOne
  let alignmentMask := 0-align
  let arenaClaimBase := adjustedBase &&& alignmentMask
  let nextArenaBase := arenaClaimBase+length
  let consumed := nextArenaBase-arena.address
  let remainingLength := arena.length-consumed
  (⟨arenaClaimBase,length,0⟩, ⟨nextArenaBase,remainingLength⟩)

/-- A range of addresses that ends in the address space. -/
structure OwnedRange where
  bytes : MutableBytes
  fits : bytes.address.toNat+bytes.length.toNat ≤ 2^64

variable (owned : OwnedRange)

def OwnedRange.start : ℕ := owned.bytes.address.toNat

def OwnedRange.stop : ℕ := owned.bytes.address.toNat+owned.bytes.length.toNat

structure Claim where
  length : Word
  align : ChildArenas.Alignment

structure State where
  arena : MutableBytes
  claimed : List (Arena × ChildArenas.Alignment)

def Claim.grant (c : Claim) : Arena × ChildArenas.Alignment :=
  ((claimExecutorArena arena c.length c.align.value).1, c.align)

def State.step (s : State) (c : Claim) : Option State :=
  some {s with claimed := c.grant s.arena::s.claimed}

def range (a : Arena) : Set ℕ := Set.Ico a.arenaBase.toNat (a.arenaBase.toNat+a.arenaLength.toNat)

structure State.Sound (owned : OwnedRange) (s : State) : Prop where
  apart : s.claimed.Pairwise fun p q => Disjoint (range p.1) (range q.1)
  aligned : ∀ p ∈ s.claimed, p.2.value.toNat ∣ p.1.arenaBase.toNat
  inside : ∀ p ∈ s.claimed, range p.1 ⊆ Set.Ico owned.start owned.stop

/-- Where a claim begins: the start of the range, rounded up. -/
def OwnedRange.first (c : Claim) : ℕ := roundUp owned.start c.align.value.toNat

/-- A claim without bytes, or with all of them in the range. -/
def OwnedRange.Fits (c : Claim) : Prop :=
  c.length = 0 ∨ owned.first c+c.length.toNat ≤ owned.stop

/-- One of the claims has no bytes, or ends where the other begins or before. -/
def OwnedRange.Apart (c d : Claim) : Prop :=
  c.length = 0 ∨ d.length = 0 ∨ owned.first c+c.length.toNat ≤ owned.first d ∨
    owned.first d+d.length.toNat ≤ owned.first c

/-! ### Where the claims lie -/

theorem mod_div_mul {k : ℕ} (hk : k ≤ 64) (n : ℕ) : n%2^64/2^k*2^k = n/2^k*2^k%2^64 := by
  have he : (2:ℕ)^64 = 2^k*2^(64-k) := by rw [← Nat.pow_add, Nat.add_sub_cancel' hk]
  rw [he, mod_mul_right_div_self, mul_comm (2^k) (2^(64-k)), mul_mod_mul_right]

variable (align : ChildArenas.Alignment)

theorem power_le : ∃ k ≤ 64, align.value.toNat = 2^k := by
  obtain ⟨k,hk⟩ := align.power
  have hlt := align.value.isLt
  rw [hk] at hlt
  exact ⟨k,(Nat.pow_lt_pow_iff_right (by decide)).mp hlt |>.le,hk⟩

theorem align_pos : 0 < align.value.toNat :=
  pos_of_isPowerOfTwo align.power

theorem claimBase_toNat (length : Word) (align : ChildArenas.Alignment) :
    (claimExecutorArena arena length align.value).1.arenaBase.toNat =
      roundUp arena.address.toNat align.value.toNat%2^64 := by
  obtain ⟨k,hk,hpow⟩ := power_le align
  have hne : align.value ≠ 0 := (power_iff.mpr align.power).1
  have hneg : 0-align.value = -align.value := BitVec.zero_sub _
  simp only [claimExecutorArena]
  rw [hneg, and_neg_power _ hpow, toNat_add, pred_toNat hne, mod_div_mul hk, roundUp, hpow]

theorem align_dvd : align.value.toNat ∣ 2^64 := by
  obtain ⟨k,hk,hpow⟩ := power_le align
  rw [hpow]
  exact Nat.pow_dvd_pow 2 hk

theorem claimBase_aligned (length : Word) (align : ChildArenas.Alignment) :
    align.value.toNat ∣ (claimExecutorArena arena length align.value).1.arenaBase.toNat := by
  rw [claimBase_toNat, dvd_mod_iff (align_dvd align)]
  exact dvd_roundUp _ _

theorem run_eq (claimed : List (Arena × ChildArenas.Alignment)) (claims : List Claim) :
    run State.step ⟨arena,claimed⟩ claims =
      some ⟨arena,(claims.map (·.grant arena)).reverse++claimed⟩ := by
  induction claims generalizing claimed with
  | nil => rfl
  | cons c claims ih =>
    rw [run, State.step, bind_some, ih]
    simp

section
variable {owned : OwnedRange} {c d : Claim}

theorem range_empty (h : c.length = 0) : range (c.grant arena).1 = ∅ := by
  apply Set.Ico_eq_empty
  show ¬ _ < _+c.length.toNat
  simp [h]

theorem first_lt (hlen : 0 < c.length.toNat) (hfit : owned.Fits c) : owned.first c < 2^64 := by
  have hstop : owned.stop ≤ 2^64 := owned.fits
  rcases hfit with h0 | hle
  · simp [h0] at hlen
  · omega

theorem range_eq (hlen : 0 < c.length.toNat) (hfit : owned.Fits c) :
    range (c.grant owned.bytes).1 = Set.Ico (owned.first c) (owned.first c+c.length.toNat) := by
  have hbase : (c.grant owned.bytes).1.arenaBase.toNat = owned.first c := by
    rw [Claim.grant, claimBase_toNat]
    exact mod_eq_of_lt (first_lt hlen hfit)
  rw [range, hbase]
  rfl

theorem inside_iff :
    range (c.grant owned.bytes).1 ⊆ Set.Ico owned.start owned.stop ↔ owned.Fits c := by
  rcases Nat.eq_zero_or_pos c.length.toNat with h0 | hlen
  · have hzero : c.length = 0 := eq_of_toNat_eq h0
    rw [range_empty _ hzero]
    exact iff_of_true (Set.empty_subset _) (.inl hzero)
  have hle : owned.start ≤ owned.first c := le_roundUp _ (align_pos c.align)
  constructor
  · intro hinside
    have hbase := claimBase_toNat owned.bytes c.length c.align
    change (c.grant owned.bytes).1.arenaBase.toNat = owned.first c%2^64 at hbase
    have hmem : ∀ x, owned.first c%2^64 ≤ x → x < owned.first c%2^64+c.length.toNat →
        owned.start ≤ x ∧ x < owned.stop := fun x h1 h2 =>
      hinside ⟨by rw [hbase]; exact h1,by rw [hbase]; exact h2⟩
    have hstart := hmem _ (Nat.le_refl _) (by omega)
    -- a start rounded up to the end of the address space wraps to zero
    have hlt : owned.first c < 2^64 := by
      refine lt_of_le_of_ne (roundUp_le_of_dvd (align_pos _) (align_dvd _)
        owned.bytes.address.isLt.le) fun he => ?_
      change owned.first c = 2^64 at he
      have hzero : owned.start = 0 := by
        have := hstart.1
        rw [he] at this
        omega
      rw [OwnedRange.first, hzero, roundUp_zero (align_pos _)] at he
      exact absurd he (by decide)
    have hlast := hmem (owned.first c+c.length.toNat-1) (by omega) (by omega)
    exact .inr (by omega)
  · intro hfit
    rw [range_eq hlen hfit]
    rcases hfit with h0 | hstop
    · simp [h0] at hlen
    · exact Set.Ico_subset_Ico hle hstop

theorem apart_iff (hc : owned.Fits c) (hd : owned.Fits d) :
    Disjoint (range (c.grant owned.bytes).1) (range (d.grant owned.bytes).1) ↔ owned.Apart c d := by
  rcases Nat.eq_zero_or_pos c.length.toNat with h0 | hc0
  · have hzero : c.length = 0 := eq_of_toNat_eq h0
    rw [range_empty _ hzero]
    exact iff_of_true (Set.empty_disjoint _) (.inl hzero)
  rcases Nat.eq_zero_or_pos d.length.toNat with h0 | hd0
  · have hzero : d.length = 0 := eq_of_toNat_eq h0
    rw [range_empty _ hzero]
    exact iff_of_true (Set.disjoint_empty _) (.inr (.inl hzero))
  have hcne : c.length ≠ 0 := fun h => by simp [h] at hc0
  have hdne : d.length ≠ 0 := fun h => by simp [h] at hd0
  rw [range_eq hc0 hc, range_eq hd0 hd, Set.Ico_disjoint_Ico, OwnedRange.Apart]
  simp only [hcne, hdne, false_or]
  omega

end

theorem sound_iff (claims : List Claim) :
    State.Sound owned ⟨owned.bytes,(claims.map (·.grant owned.bytes)).reverse⟩ ↔
      (∀ c ∈ claims, owned.Fits c) ∧ claims.Pairwise owned.Apart := by
  have hinside : (∀ p ∈ (claims.map (·.grant owned.bytes)).reverse,
      range p.1 ⊆ Set.Ico owned.start owned.stop) ↔ ∀ c ∈ claims, owned.Fits c := by
    simp only [mem_reverse, List.forall_mem_map, inside_iff]
  have happart : (∀ c ∈ claims, owned.Fits c) →
      ((claims.map (·.grant owned.bytes)).reverse.Pairwise
        (fun p q => Disjoint (range p.1) (range q.1)) ↔ claims.Pairwise owned.Apart) := by
    intro hfits
    rw [pairwise_reverse, pairwise_map]
    refine Pairwise.iff_of_mem fun hc hd => ?_
    exact Iff.trans ⟨fun h => h.symm,fun h => h.symm⟩ (apart_iff (hfits _ hc) (hfits _ hd))
  constructor
  · intro h
    have hfits := hinside.mp h.inside
    exact ⟨hfits,(happart hfits).mp h.apart⟩
  · rintro ⟨hfits,hpair⟩
    refine ⟨(happart hfits).mpr hpair,?_,hinside.mpr hfits⟩
    simp only [mem_reverse, List.forall_mem_map]
    exact fun c _ => claimBase_aligned ..

/-- All claims begin at the start of the owned range, rounded up to their alignment:
the arenas are aligned, apart and inside the range in every state of a run exactly
when each claim fits behind that address and the claims are apart. -/
theorem executor_arenas_owned_iff (claims : List Claim) :
    (∀ n s, run State.step ⟨owned.bytes,[]⟩ (claims.take n) = some s → s.Sound owned) ↔
      (∀ c ∈ claims, owned.Fits c) ∧ claims.Pairwise owned.Apart := by
  simp only [run_eq, append_nil, some.injEq, forall_eq', sound_iff]
  constructor
  · intro h
    simpa using h claims.length
  · rintro ⟨hfits,hpair⟩ n
    exact ⟨fun c hc => hfits c (mem_of_mem_take hc),hpair.sublist (take_sublist n claims)⟩

def twoPages : OwnedRange := ⟨⟨0x100000,0x2000⟩,by decide⟩

/-- Two claims of a page, both inside of the two pages, get the same page. -/
theorem executor_arenas_overlap :
    ∃ s, run State.step ⟨twoPages.bytes,[]⟩ [⟨0x1000,page⟩, ⟨0x1000,page⟩] = some s ∧
      ¬ s.Sound twoPages := by
  refine ⟨_,rfl,fun h => ?_⟩
  have := (pairwise_cons.mp h.apart).1 _ (mem_cons_self ..)
  exact Set.disjoint_left.mp this (show 0x100000 ∈ Set.Ico 0x100000 0x101000 by simp)
    (show 0x100000 ∈ Set.Ico 0x100000 0x101000 by simp)

end Wrela.Owned

import Mathlib.Data.Nat.Bitwise
import Wrela.X86.Memory

/-!
# Sizing a base address register

`claim_mmio_bar` writes ones to the base address registers, reads which of them the
device keeps, and writes the old contents back. The size is the two's complement of
what is kept, across two registers if the address has 64 bits. Every write goes
through the ports, and the code that sends it loads the address port into the lower
half of the register that holds the value.
-/

set_option autoImplicit false

namespace Wrela.Pci.BarSizing
open X86 BitVec Function

abbrev Registers := BitVec 16 → BitVec 32

structure MmioRegion where
  address : Word
  length : Word

/-- A function with a memory BAR of 2^sizeLog bytes. What writes to registers other than
the BAR's do is left open. -/
structure Device where
  index : BitVec 8
  wide : Bool
  prefetchable : Bool
  sizeLog : ℕ
  other : BitVec 16 → BitVec 32 → Registers → Registers
  room : index.toNat < if wide then 5 else 6
  least : 4 ≤ sizeLog
  most : sizeLog < if wide then 64 else 32

section
variable (d : Device)

def barOffset (index : BitVec 8) : BitVec 16 := 0x10+index.setWidth 16 <<< 2

def Device.low : BitVec 16 := barOffset d.index

def Device.attributes : BitVec 32 :=
  (if d.prefetchable then 8 else 0) ||| if d.wide then 4 else 0

def mask (k : ℕ) : Word := allOnes 64 <<< k

def lowMask (k : ℕ) : BitVec 32 := (mask k).setWidth 32

def highMask (k : ℕ) : BitVec 32 := (mask k).extractLsb' 32 32

variable (offset : BitVec 16)

def Device.write (value : BitVec 32) (s : Registers) : Registers :=
  if offset = d.low then
    update s offset (value &&& lowMask d.sizeLog ||| d.attributes)
  else if d.wide ∧ offset = d.low+4 then
    update s offset (value &&& highMask d.sizeLog)
  else d.other offset value s

/-- What `write_io_config32` sends: `value` is in edx, and `mov dx, 0x0CF8` comes
before `mov eax, value`. -/
def portValue (value : BitVec 32) : BitVec 32 := value &&& 0xFFFF0000 ||| 0x0CF8

def Device.writeConfig32 (value : BitVec 32) (s : Registers) : Registers :=
  d.write offset (portValue value) s

def joined (high low : BitVec 32) : Word := high.setWidth 64 <<< 32 ||| low.setWidth 64

/-- Ones are written to a register, it is read, and its old contents are written
back. -/
def probe (original : BitVec 32) (s : Registers) : BitVec 32 × Registers :=
  let s := d.writeConfig32 offset 0xFFFFFFFF s
  (s offset, d.writeConfig32 offset original s)

def claimWide (original : BitVec 32) (s : Registers) : Except Word MmioRegion × Registers :=
  let highOffset := offset+4
  let originalHigh := s highOffset
  let s := d.writeConfig32 offset 0xFFFFFFFF s
  let s := d.writeConfig32 highOffset 0xFFFFFFFF s
  let maskLow := s offset
  let maskHigh := s highOffset
  let s := d.writeConfig32 highOffset originalHigh s
  let s := d.writeConfig32 offset original s
  let maskedLow := maskLow &&& 0xFFFFFFF0
  if maskedLow = 0 ∧ maskHigh = 0 then (.error 0xAC060005, s)
  else
    let base := joined originalHigh (original &&& 0xFFFFFFF0)
    let size : Word := ((0-maskedLow) &&& 0xFFFFFFFF).setWidth 64
    (.ok ⟨base, if size = 0 then 0-joined maskHigh maskedLow else size⟩, s)

/-- The region or the code of the panic, and the registers left behind. -/
def claimMmioBar (index : BitVec 8) (s : Registers) : Except Word MmioRegion × Registers :=
  let offset := barOffset index
  let original := s offset
  if original &&& 1 ≠ 0 then (.error 0xAC060001, s)
  else
    let kind := original &&& 6
    let (barKind, s) :=
      if kind = 0 then
        let (kindProbe, s) := probe d offset original s
        (if kindProbe &&& 6 = 4 then 4 else kind, s)
      else (kind, s)
    if barKind = 0 then
      let (mask, s) := probe d offset original s
      if mask &&& 0xFFFFFFF0 = 0 then (.error 0xAC060005, s)
      -- this test has the labels of the one around it: the jump past its panic goes past
      -- the return as well, to the test that refuses kind 0
      else (.error 0xAC060002, s)
    else if barKind < 4 ∨ 4 < barKind then (.error 0xAC060002, s)
    else if 5 ≤ index then (.error 0xAC060004, s)
    else claimWide d offset original s

structure Programmed (base : Word) (s : Registers) : Prop where
  aligned : 2^d.sizeLog ∣ base.toNat
  narrow : d.wide = false → base.toNat < 2^32
  low : s d.low = base.setWidth 32 ||| d.attributes
  high : d.wide → s (d.low+4) = base.extractLsb' 32 32

end

/-! ### Masks -/

theorem low_mask : ∀ k < 64, 4 ≤ k → lowMask k &&& 0xFFFFFFF0 = lowMask k := by
  decide +kernel

def sizeOf (maskLow maskHigh : BitVec 32) : Word :=
  let size : Word := ((0-maskLow) &&& 0xFFFFFFFF).setWidth 64
  if size = 0 then 0-joined maskHigh maskLow else size

/-- The mask that is read back through the ports. -/
theorem size_exact_iff : ∀ k < 64, 4 ≤ k →
    (sizeOf (portValue 0xFFFFFFFF &&& lowMask k) (portValue 0xFFFFFFFF &&& highMask k) =
      BitVec.ofNat 64 (2^k) ↔ 16 ≤ k ∧ k < 32 ∨ 48 ≤ k) := by
  decide +kernel

theorem mask_ne : ∀ k < 64,
    ¬ (portValue 0xFFFFFFFF &&& lowMask k = 0 ∧ portValue 0xFFFFFFFF &&& highMask k = 0) := by
  decide +kernel

/-- Masks within the upper half do not see what the ports do to the lower one. -/
theorem mask_upper : ∀ k < 64,
    (16 ≤ k → 0xFFFF0000 &&& lowMask k = lowMask k ∧ 0x0CF8 &&& lowMask k = 0#32) ∧
    (k < 32 → highMask k = 0xFFFFFFFF) ∧
    (48 ≤ k → 0xFFFF0000 &&& highMask k = highMask k ∧ 0x0CF8 &&& highMask k = 0#32) := by
  decide +kernel

theorem low_mask_ne : ∀ k < 32, portValue 0xFFFFFFFF &&& lowMask k ≠ 0 := by
  decide +kernel

theorem portValue_and {x m : BitVec 32} (h : 0xFFFF0000 &&& m = m ∧ 0x0CF8 &&& m = 0#32) :
    portValue x &&& m = x &&& m := by
  rw [portValue, and_or_distrib_right, BitVec.and_assoc, h.1, h.2, BitVec.or_zero]

theorem portValue_eq_iff (x : BitVec 32) : portValue x = x ↔ x.setWidth 16 = 0x0CF8 := by
  have hkeep : ∀ i < 32, (0xFFFF0000 : BitVec 32).getLsbD i = decide (16 ≤ i) := by decide
  have hport : ∀ i < 32, (0x0CF8 : BitVec 32).getLsbD i = (0x0CF8 : BitVec 16).getLsbD i := by decide
  have hbit : ∀ i < 32, (portValue x).getLsbD i =
      if i < 16 then (0x0CF8 : BitVec 16).getLsbD i else x.getLsbD i := by
    intro i hi
    rw [portValue, getLsbD_or, getLsbD_and, hkeep i hi, hport i hi]
    split
    · next h => simp [h]
    · next h => simp [not_lt.mp h]
  constructor
  · intro h
    apply eq_of_getLsbD_eq
    intro i hi
    rw [getLsbD_setWidth, ← h, hbit i (by omega), if_pos hi]
    simp [hi]
  · intro h
    apply eq_of_getLsbD_eq
    intro i hi
    rw [hbit i hi]
    split
    · next hlt =>
      rw [← h, getLsbD_setWidth]
      simp [hlt]
    · rfl

theorem ones_and (x : BitVec 32) : 0xFFFFFFFF &&& x = x := allOnes_and

theorem and_mask {base : Word} {k : ℕ} (h : 2^k ∣ base.toNat) : base &&& mask k = base := by
  obtain ⟨q,hq⟩ := h
  apply eq_of_getLsbD_eq
  intro i hi
  have hbit : base.getLsbD i = (decide (k ≤ i) && q.testBit (i-k)) := by
    rw [BitVec.getLsbD, hq, Nat.testBit_two_pow_mul]
  have hlt : i-k < 64 := by omega
  rw [mask, getLsbD_and, getLsbD_shiftLeft, getLsbD_allOnes, hbit]
  by_cases hk : k ≤ i <;> simp [hk, hi, hlt]

theorem joined_halves (base : Word) : joined (base.extractLsb' 32 32) (base.setWidth 32) = base := by
  apply eq_of_getLsbD_eq
  intro i hi
  by_cases h : i < 32
  · simp [joined, h, hi]
  · have hlt : i-32 < 32 := by omega
    have hi' : 32+(i-32) = i := by omega
    simp [joined, h, hi, hlt, hi']

section
variable {d : Device} {base : Word} {s : Registers}

theorem Device.sizeLog_lt (d : Device) : d.sizeLog < 64 := by
  have h := d.most
  split at h <;> omega

theorem attributes_and (d : Device) : d.attributes &&& 1 = 0 ∧
    d.attributes &&& 6 = (if d.wide then 4 else 0) ∧ d.attributes &&& 0xFFFFFFF0 = 0#32 := by
  simp only [Device.attributes]
  cases d.prefetchable <;> cases d.wide <;> decide

theorem Device.mask_low (d : Device) : lowMask d.sizeLog &&& 0xFFFFFFF0 = lowMask d.sizeLog :=
  low_mask _ d.sizeLog_lt d.least

theorem Device.port_mask_low (d : Device) :
    portValue 0xFFFFFFFF &&& lowMask d.sizeLog &&& 0xFFFFFFF0 =
      portValue 0xFFFFFFFF &&& lowMask d.sizeLog := by
  rw [BitVec.and_assoc, d.mask_low]

theorem attributes_mask (d : Device) : d.attributes &&& lowMask d.sizeLog = 0#32 := by
  rw [← d.mask_low, BitVec.and_comm (lowMask _), ← BitVec.and_assoc, (attributes_and d).2.2,
    BitVec.zero_and]

theorem high_ne (d : Device) : d.low+4 ≠ d.low := by simp

theorem write_low (v : BitVec 32) :
    d.write d.low v s = update s d.low (v &&& lowMask d.sizeLog ||| d.attributes) :=
  if_pos rfl

theorem write_high (hw : d.wide) (v : BitVec 32) :
    d.write (d.low+4) v s = update s (d.low+4) (v &&& highMask d.sizeLog) := by
  rw [Device.write, if_neg (high_ne d), if_pos ⟨hw,rfl⟩]

section
variable {x : BitVec 32} (hx : x &&& 0xFFFFFFF0 = x)
include hx

theorem address_and : (x ||| d.attributes) &&& 0xFFFFFFF0 = x := by
  rw [and_or_distrib_right, (attributes_and d).2.2, BitVec.or_zero, hx]

theorem kind_and {c : BitVec 32} (hc : 0xFFFFFFF0 &&& c = 0#32) :
    (x ||| d.attributes) &&& c = d.attributes &&& c := by
  rw [and_or_distrib_right, ← hx, BitVec.and_assoc, hc, BitVec.and_zero, BitVec.zero_or]

end

section
variable (h : Programmed d base s)
include h

theorem Programmed.keeps_low : base.setWidth 32 &&& lowMask d.sizeLog = base.setWidth 32 := by
  rw [lowMask, ← setWidth_and, and_mask h.aligned]

theorem Programmed.keeps_high :
    base.extractLsb' 32 32 &&& highMask d.sizeLog = base.extractLsb' 32 32 := by
  rw [highMask, ← extractLsb'_and, and_mask h.aligned]

theorem Programmed.address : base.setWidth 32 &&& 0xFFFFFFF0 = base.setWidth 32 := by
  rw [← h.keeps_low, BitVec.and_assoc, d.mask_low]

theorem Programmed.low_eq_iff (x : BitVec 32) :
    x &&& lowMask d.sizeLog ||| d.attributes = s d.low ↔
      x &&& lowMask d.sizeLog = base.setWidth 32 := by
  have hx : x &&& lowMask d.sizeLog &&& 0xFFFFFFF0 = x &&& lowMask d.sizeLog := by
    rw [BitVec.and_assoc, d.mask_low]
  rw [h.low]
  constructor
  · intro he
    rw [← address_and (d := d) hx, he, address_and h.address]
  · intro he
    rw [he]

/-- What a claim of a 64-bit BAR returns, and what it leaves in the two registers. -/
theorem Programmed.claimWide (hw : d.wide) : claimWide d d.low (s d.low) s =
    (.ok ⟨base,sizeOf (portValue 0xFFFFFFFF &&& lowMask d.sizeLog)
        (portValue 0xFFFFFFFF &&& highMask d.sizeLog)⟩,
      update (update s (d.low+4) (portValue (base.extractLsb' 32 32) &&& highMask d.sizeLog)) d.low
        (portValue (s d.low) &&& lowMask d.sizeLog ||| d.attributes)) := by
  have hrest (a b u v : BitVec 32) :
      update (update (update (update s d.low a) (d.low+4) b) (d.low+4) u) d.low v =
        update (update s (d.low+4) u) d.low v := by
    rw [update_idem, update_comm (high_ne d), update_idem, update_comm (high_ne d)]
  simp only [BarSizing.claimWide, Device.writeConfig32, write_low, write_high hw, hrest, update_self,
    update_of_ne (high_ne d).symm, address_and d.port_mask_low, if_neg (mask_ne _ d.sizeLog_lt), h.high hw]
  rw [show s d.low &&& 0xFFFFFFF0 = base.setWidth 32 by rw [h.low, address_and h.address],
    joined_halves]
  rfl

theorem Programmed.restored_iff (hw : d.wide) :
    update (update s (d.low+4) (portValue (base.extractLsb' 32 32) &&& highMask d.sizeLog)) d.low
        (portValue (s d.low) &&& lowMask d.sizeLog ||| d.attributes) = s ↔
      portValue (base.extractLsb' 32 32) &&& highMask d.sizeLog = base.extractLsb' 32 32 ∧
        portValue (s d.low) &&& lowMask d.sizeLog = base.setWidth 32 := by
  rw [← h.low_eq_iff, ← h.high hw]
  constructor
  · intro he
    have hhigh := congrFun he (d.low+4)
    have hlow := congrFun he d.low
    rw [update_of_ne (high_ne d), update_self] at hhigh
    rw [update_self] at hlow
    exact ⟨hhigh,hlow⟩
  · rintro ⟨hhigh,hlow⟩
    rw [hhigh, hlow, update_eq_self, update_eq_self]

/-- Where the size is right, the lower register is restored, and the upper one if the
ports do not change it. -/
theorem Programmed.restored (hsize : 16 ≤ d.sizeLog ∧ d.sizeLog < 32 ∨ 48 ≤ d.sizeLog) :
    portValue (s d.low) &&& lowMask d.sizeLog = base.setWidth 32 ∧
    (portValue (base.extractLsb' 32 32) &&& highMask d.sizeLog = base.extractLsb' 32 32 ↔
      48 ≤ d.sizeLog ∨ base.extractLsb' 32 16 = 0x0CF8) := by
  obtain ⟨hlow,hones,hhigh⟩ := mask_upper _ d.sizeLog_lt
  constructor
  · rw [portValue_and (hlow (by omega)), h.low, and_or_distrib_right, h.keeps_low,
      attributes_mask, BitVec.or_zero]
  · rcases Nat.lt_or_ge d.sizeLog 48 with hlt | hge
    · have hwidth : (base.extractLsb' 32 32).setWidth 16 = base.extractLsb' 32 16 := by
        apply eq_of_getLsbD_eq
        intro i hi
        simp [hi, show i < 32 by omega]
      rw [hones (by omega), BitVec.and_comm, ones_and, portValue_eq_iff, hwidth]
      simp [not_le.mpr hlt]
    · rw [portValue_and (hhigh hge), h.keeps_high]
      simp [hge]

/-- A 32-bit BAR is never claimed. -/
theorem Programmed.narrow_panics (hw : d.wide = false) :
    (claimMmioBar d d.index s).1 = .error 0xAC060002 := by
  obtain ⟨hone,hsix,-⟩ := attributes_and d
  rw [hw] at hsix
  have hoff : barOffset d.index = d.low := rfl
  have hmem : s d.low &&& 1 = 0 := by rw [h.low, kind_and h.address rfl, hone]
  have hkind : s d.low &&& 6 = 0 := by rw [h.low, kind_and h.address rfl, hsix]; rfl
  have hmost : d.sizeLog < 32 := by simpa [hw] using d.most
  have hne : portValue 0xFFFFFFFF &&& lowMask d.sizeLog ≠ 0 := low_mask_ne _ hmost
  -- the probe finds the kind that was read
  have hprobe : (portValue 0xFFFFFFFF &&& lowMask d.sizeLog ||| d.attributes) &&& 6 =
      (0 : BitVec 32) := by
    rw [kind_and d.port_mask_low rfl, hsix]
    rfl
  have hfour : (0 : BitVec 32) ≠ 4 := by decide
  simp only [claimMmioBar, hoff, hmem, hkind, probe, Device.writeConfig32, write_low, update_self,
    update_idem, hprobe, ne_eq, not_true, if_false, if_true, hfour, address_and d.port_mask_low, hne]

end

/-- A claim of a memory BAR returns its base and size and leaves the registers as they
were exactly for 64-bit BARs whose size is not mistaken and whose upper register the
ports restore. -/
theorem claimMmioBar_exact_iff (h : Programmed d base s) :
    claimMmioBar d d.index s = (.ok ⟨base,.ofNat 64 (2^d.sizeLog)⟩, s) ↔
      d.wide ∧ (48 ≤ d.sizeLog ∨ 16 ≤ d.sizeLog ∧ d.sizeLog < 32 ∧
        base.extractLsb' 32 16 = 0x0CF8) := by
  cases hw : d.wide with
  | false =>
    refine iff_of_false (fun he => ?_) (by simp)
    have hpanic := h.narrow_panics hw
    rw [he] at hpanic
    cases hpanic
  | true =>
    obtain ⟨hone,hsix,-⟩ := attributes_and d
    have hoff : barOffset d.index = d.low := rfl
    have hmem : s d.low &&& 1 = 0 := by rw [h.low, kind_and h.address rfl, hone]
    have hkind : s d.low &&& 6 = 4 := by rw [h.low, kind_and h.address rfl, hsix, hw]; rfl
    have hroom : d.index.toNat < 5 := by simpa [hw] using d.room
    have hlt : ¬ (5 : BitVec 8) ≤ d.index := not_le_of_gt hroom
    have hclaim : claimMmioBar d d.index s = BarSizing.claimWide d d.low (s d.low) s := by
      simp only [claimMmioBar, hoff, hmem, hkind, if_neg hlt]
      simp
    have hsize := size_exact_iff _ d.sizeLog_lt d.least
    rw [hclaim, h.claimWide hw, Prod.mk.injEq, Except.ok.injEq, MmioRegion.mk.injEq, hsize,
      h.restored_iff hw]
    simp only [true_and]
    constructor
    · rintro ⟨hs,hhigh,-⟩
      rcases (h.restored hs).2.mp hhigh with hge | hport
      · exact .inl hge
      · exact hs.elim (fun hs => .inr ⟨hs.1,hs.2,hport⟩) .inl
    · intro hs
      have hs' : 16 ≤ d.sizeLog ∧ d.sizeLog < 32 ∨ 48 ≤ d.sizeLog := by omega
      obtain ⟨hlow,hhigh⟩ := h.restored hs'
      exact ⟨hs',hhigh.mpr (hs.imp_right fun hp => hp.2.2),hlow⟩

/-- A BAR of 1 MiB at an address with the number of the port in it. -/
theorem claimMmioBar_exact_port : ∃ d s, d.sizeLog = 20 ∧
    claimMmioBar d d.index s = (.ok ⟨0xCF800100000,0x100000⟩, s) :=
  ⟨⟨0,true,true,20,fun _ _ s => s,by decide,by decide,by decide⟩,
    fun offset => if offset = 0x10 then 0x10000C else if offset = 0x14 then 0xCF8 else 0,rfl,
    (claimMmioBar_exact_iff ⟨by decide,by decide,by decide,by decide⟩).mpr (by decide)⟩

/-- A 64-bit BAR of 16 KiB is claimed with 64 KiB and moved by the claim. -/
theorem claimMmioBar_moves : ∃ d s, Programmed d 0xFE000000 s ∧ d.sizeLog = 14 ∧
    (claimMmioBar d d.index s).1 = .ok ⟨0xFE000000,0x10000⟩ ∧
    s 0x14 = 0 ∧ (claimMmioBar d d.index s).2 0x14 = 0xCF8 :=
  ⟨⟨0,true,false,14,fun _ _ s => s,by decide,by decide,by decide⟩,
    fun offset => if offset = 0x10 then 0xFE000004 else 0,
    ⟨by decide,by decide,by decide,by decide⟩,rfl,rfl,rfl,rfl⟩

end

end Wrela.Pci.BarSizing

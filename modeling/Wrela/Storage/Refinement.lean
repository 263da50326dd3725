import Wrela.Storage.Scanner
import Wrela.Storage.CrashAtomicity

/-!
# The runtime storage code against the reference

Without reserved slots in the buffer, the scanner reads from the bytes what the
reference recovers from the slots decoded from them, also when the bytes are
damaged. Each loop of the scanner is followed with the invariant that the reference,
continued from the scanner's current position, still comes to the same answer. The
writers go through the same states as long as no number that they compare has its
top bit set; what they answer differs in one field of a refused append.
-/

set_option autoImplicit false

namespace Wrela.StorageRuntime
open List Option UInt64
open StorageFormat (EventSlotHeader Slot littleEndian littleEndian_length slotBytes slotBytes_length
  slotBytes_payload storageMaxAtomicGroupSlots eventPayloadBytes crcBit crcByte crc32c castagnoli
  groupFault recoverFrom CommitToken RecoveryStopReason WriterPolicy EnqueueResult)

/-! ## Words and their bytes -/

/-- The compiled comparison is signed; it is the unsigned one below 2^63. -/
theorem below_iff {a b : UInt64} (ha : a.toNat < 2^63) (hb : b.toNat < 2^63) :
    below a b ↔ a < b := by
  have hint : ∀ x : UInt64, x.toNat < 2^63 → x.toBitVec.toInt = x.toNat := by
    intro x hx
    have hx' : x.toBitVec.toNat = x.toNat := rfl
    rw [BitVec.toInt_eq_toNat_of_lt (by omega), hx']
  rw [below, BitVec.slt, decide_eq_true_iff, hint a ha, hint b hb, lt_iff_toNat_lt]
  omega

variable (bs : List UInt8) {bytes : BoundedBytes} {width i : ℕ} {slotIndex : UInt64}

theorem littleEndianValue_lt : littleEndianValue bs < 256^bs.length := by
  induction bs with
  | nil => simp [littleEndianValue]
  | cons b bs ih =>
    have hb := b.toNat_lt
    rw [littleEndianValue, length_cons, pow_succ]
    omega

theorem littleEndian_value : littleEndian bs.length (littleEndianValue bs) = bs := by
  induction bs with
  | nil => rfl
  | cons b bs ih =>
    have hb := b.toNat_lt
    have hdiv : (b.toNat+256*littleEndianValue bs)/256 = littleEndianValue bs := by omega
    have hmod : UInt8.ofNat (b.toNat+256*littleEndianValue bs) = b := by
      apply UInt8.toNat_inj.mp
      rw [UInt8.toNat_ofNat']
      omega
    rw [length_cons, littleEndianValue, littleEndian, hdiv, hmod, ih]

def field (bs : List UInt8) (offset width : ℕ) : ℕ :=
  littleEndianValue ((bs.drop offset).take width)

theorem field_lt (offset width : ℕ) : field bs offset width < 256^width :=
  Nat.lt_of_lt_of_le (littleEndianValue_lt _)
    (Nat.pow_le_pow_right (by omega) (length_take_le _ _))

theorem littleEndian_field {bs : List UInt8} {offset : ℕ} (h : offset+width ≤ bs.length) :
    littleEndian width (field bs offset width) = (bs.drop offset).take width := by
  have hlen : ((bs.drop offset).take width).length = width := by simp; omega
  have := littleEndian_value ((bs.drop offset).take width)
  rwa [hlen] at this

theorem take_append_rest {α : Type} (bs : List α) (offset width : ℕ) :
    (bs.drop offset).take width ++ bs.drop (offset+width) = bs.drop offset := by
  rw [← drop_drop, take_append_drop]

/-! ## Slots decoded from bytes -/

/-- The slot that the scanner sees in its bytes. -/
def decodeSlot (bs : List UInt8) : Slot where
  header :=
    { eventID := UInt64.ofNat (field bs 0 8)
      streamID := UInt64.ofNat (field bs 8 8)
      streamSequence := UInt64.ofNat (field bs 16 8)
      eventTypeID := UInt32.ofNat (field bs 24 4)
      payloadLayoutID := UInt32.ofNat (field bs 28 4)
      atomicGroupLen := UInt32.ofNat (field bs 32 4)
      atomicGroupIndex := UInt32.ofNat (field bs 36 4)
      payloadLength := UInt32.ofNat (field bs 40 4)
      flags := UInt32.ofNat (field bs 44 4)
      checksum32 := UInt32.ofNat (field bs 48 4)
      headerVersion := UInt16.ofNat (field bs 52 2)
      reserved16 := UInt16.ofNat (field bs 54 2)
      reserved64 := UInt64.ofNat (field bs 56 8) }
  payload := Vector.ofFn fun k => bs.getD (64+k) 0

/-- Encoding what was decoded gives the bytes back, but for the checksum. -/
theorem slotBytes_decodeSlot {bs : List UInt8} (h : bs.length = 512) (checksum : UInt32) :
    slotBytes (decodeSlot bs) checksum =
      bs.take 48 ++ littleEndian 4 checksum.toNat ++ bs.drop 52 := by
  have h64 (o : ℕ) (ho : o+8 ≤ 512) :
      littleEndian 8 (UInt64.ofNat (field bs o 8)).toNat = (bs.drop o).take 8 := by
    rw [toNat_ofNat_of_lt' (field_lt bs o 8), littleEndian_field (by omega)]
  have h32 (o : ℕ) (ho : o+4 ≤ 512) :
      littleEndian 4 (UInt32.ofNat (field bs o 4)).toNat = (bs.drop o).take 4 := by
    rw [UInt32.toNat_ofNat_of_lt' (field_lt bs o 4), littleEndian_field (by omega)]
  have h16 (o : ℕ) (ho : o+2 ≤ 512) :
      littleEndian 2 (UInt16.ofNat (field bs o 2)).toNat = (bs.drop o).take 2 := by
    rw [UInt16.toNat_ofNat_of_lt' (field_lt bs o 2), littleEndian_field (by omega)]
  have hpayload : (decodeSlot bs).payload.toList = bs.drop 64 := by
    apply ext_getElem
    · simp [eventPayloadBytes, h]
    · intro k hk hk'
      simp only [length_drop] at hk'
      simp [decodeSlot, getD_eq_getElem?_getD, getElem?_eq_getElem
        (show 64+k < bs.length by omega)]
  have htail : (bs.drop 52).take 2 ++ ((bs.drop 54).take 2 ++ ((bs.drop 56).take 8 ++ bs.drop 64)) =
      bs.drop 52 := by
    rw [take_append_rest bs 56 8, take_append_rest bs 54 2, take_append_rest bs 52 2]
  have htake (o w : ℕ) : bs.take o ++ (bs.drop o).take w = bs.take (o+w) := take_add.symm
  rw [slotBytes, hpayload]
  simp only [decodeSlot]
  rw [h64 0 (by omega), h64 8 (by omega), h64 16 (by omega), h32 24 (by omega), h32 28 (by omega),
    h32 32 (by omega), h32 36 (by omega), h32 40 (by omega), h32 44 (by omega), h16 52 (by omega),
    h16 54 (by omega), h64 56 (by omega), drop_zero, htake, htake, htake, htake, htake,
    htake, htake, htake]
  simp [htail]

theorem field_append {a b : List UInt8} {offset : ℕ} (h : a.length ≤ offset) :
    field (a++b) offset width = field b (offset-a.length) width := by
  rw [field, drop_append, drop_of_length_le h, nil_append, field]

theorem value_littleEndian (n v : ℕ) : littleEndianValue (littleEndian n v) = v%256^n := by
  induction n generalizing v with
  | zero => simp [littleEndian, littleEndianValue, Nat.mod_one]
  | succ n ih =>
    have hpow : 256^(n+1) = 256*256^n := pow_succ' 256 n
    rw [littleEndian, littleEndianValue, ih, UInt8.toNat_ofNat', hpow, Nat.mod_mul]

theorem field_littleEndian (n v : ℕ) (b : List UInt8) :
    field (littleEndian n v++b) 0 n = v%256^n := by
  rw [field, drop_zero, take_left' (littleEndian_length n v), value_littleEndian]

/-- What is decoded from the bytes of a slot is the slot. -/
theorem decodeSlot_slotBytes (slot : Slot) :
    decodeSlot (slotBytes slot slot.header.checksum32) = slot := by
  obtain ⟨header,payload⟩ := slot
  have hpayload : Vector.ofFn (fun k : Fin eventPayloadBytes =>
      (slotBytes ⟨header,payload⟩ header.checksum32).getD (64+k) 0) = payload := by
    ext k hk
    rw [Vector.getElem_ofFn, getD_eq_getElem?_getD, slotBytes_payload _ _ hk]
    rfl
  simp only [decodeSlot, hpayload, Slot.mk.injEq, and_true]
  have h64 (x : UInt64) : UInt64.ofNat (x.toNat%256^8) = x := by
    rw [Nat.mod_eq_of_lt (show x.toNat < 256^8 from x.toNat_lt), UInt64.ofNat_toNat]
  have h32 (x : UInt32) : UInt32.ofNat (x.toNat%256^4) = x := by
    rw [Nat.mod_eq_of_lt (show x.toNat < 256^4 from x.toNat_lt), UInt32.ofNat_toNat]
  have h16 (x : UInt16) : UInt16.ofNat (x.toNat%256^2) = x := by
    rw [Nat.mod_eq_of_lt (show x.toNat < 256^2 from x.toNat_lt), UInt16.ofNat_toNat]
  simp (disch := simp [littleEndian_length]) only [slotBytes, append_assoc,
    field_append, littleEndian_length, field_littleEndian, Nat.reduceSub, h64, h32,
    h16]

/-! ## Reads from the buffer -/

def BoundedBytes.slotAt (bytes : BoundedBytes) (i : ℕ) : List UInt8 :=
  (bytes.data.drop (i*512)).take 512

/-- The slots of the buffer, as the reference takes them. -/
def decodeSlots (bytes : BoundedBytes) (slotCount : UInt64) : List Slot :=
  (List.range slotCount.toNat).map fun i => decodeSlot (bytes.slotAt i)

section
variable {bytes : BoundedBytes} {slotIndex : UInt64}

theorem BoundedBytes.length_slotAt (h : (i+1)*512 ≤ bytes.data.length) :
    (bytes.slotAt i).length = 512 := by
  simp only [slotAt, length_take, length_drop]
  omega

theorem BoundedBytes.field_slotAt {offset : ℕ} (h : offset+width ≤ 512) :
    field (bytes.slotAt i) offset width =
      littleEndianValue ((bytes.data.drop (i*512+offset)).take width) := by
  rw [field, slotAt, drop_take, take_take, drop_drop, Nat.min_eq_left (by omega)]

variable (hsize : bytes.data.length < 2^63)
include hsize

theorem BoundedBytes.read_eq {offset : UInt64} (hw : width < 2^63)
    (h : offset.toNat+width ≤ bytes.data.length) :
    bytes.read width offset =
      some (littleEndianValue ((bytes.data.drop offset.toNat).take width)) := by
  have hlen : bytes.length.toNat = bytes.data.length := toNat_ofNat_of_lt' bytes.length_lt
  have hwidth : (UInt64.ofNat width).toNat = width :=
    toNat_ofNat_of_lt' (hw.trans (by decide))
  have hsub : (bytes.length-offset).toNat = bytes.data.length-offset.toNat := by
    rw [UInt64.toNat_sub_of_le _ _ (by rw [le_iff_toNat_le]; omega), hlen]
  have hoffset : ¬ below bytes.length offset := by
    rw [below_iff (by omega) (by omega), lt_iff_toNat_lt]
    omega
  have hrest : ¬ below (bytes.length-offset) (UInt64.ofNat width) := by
    rw [below_iff (by omega) (by omega), lt_iff_toNat_lt]
    omega
  rw [read, requireRange, if_neg hoffset, if_neg hrest, map_some]

variable (h : (slotIndex.toNat+1)*512 ≤ bytes.data.length)
include h

variable {k : UInt64}

omit hsize in
theorem slotOffset_toNat (hk : k.toNat < 512) :
    (slotIndex*storageEventSlotSize+k).toNat = slotIndex.toNat*512+k.toNat := by
  have hlen := bytes.length_lt
  have hsize : storageEventSlotSize.toNat = 512 := rfl
  rw [UInt64.toNat_add, UInt64.toNat_mul, hsize]
  omega

theorem read_slot (hw : 0 < width) (hk : k.toNat+width ≤ 512) :
    bytes.read width (slotIndex*storageEventSlotSize+k) =
      some (field (bytes.slotAt slotIndex.toNat) k.toNat width) := by
  have hoffset := slotOffset_toNat h (show k.toNat < 512 by omega)
  rw [BoundedBytes.read_eq hsize (by omega) (by omega), hoffset, BoundedBytes.field_slotAt hk]

theorem headerAt_eq :
    headerAt bytes slotIndex = some (decodeSlot (bytes.slotAt slotIndex.toNat)).header := by
  simp only [headerAt, BoundedBytes.readU64, BoundedBytes.readU32, BoundedBytes.readU16]
  rw [read_slot hsize h (k := 0) (by decide) (by decide), read_slot hsize h (k := 8) (by decide) (by decide),
    read_slot hsize h (k := 16) (by decide) (by decide), read_slot hsize h (k := 24) (by decide) (by decide),
    read_slot hsize h (k := 28) (by decide) (by decide), read_slot hsize h (k := 32) (by decide) (by decide),
    read_slot hsize h (k := 36) (by decide) (by decide), read_slot hsize h (k := 40) (by decide) (by decide),
    read_slot hsize h (k := 44) (by decide) (by decide), read_slot hsize h (k := 48) (by decide) (by decide),
    read_slot hsize h (k := 52) (by decide) (by decide), read_slot hsize h (k := 54) (by decide) (by decide),
    read_slot hsize h (k := 56) (by decide) (by decide)]
  rfl

theorem slotByteForChecksum_eq (hk : k.toNat < 512) :
    slotByteForChecksum bytes slotIndex k =
      (slotBytes (decodeSlot (bytes.slotAt slotIndex.toNat)) 0)[k.toNat]? := by
  have hlen := bytes.length_slotAt h
  rw [slotBytes_decodeSlot hlen, slotByteForChecksum]
  have h48 : ¬ below k 48 ↔ 48 ≤ k.toNat := by
    rw [below_iff (by omega) (by decide), UInt64.not_lt]
    exact le_iff_toNat_le
  have h52 : below k 52 ↔ k.toNat < 52 := (below_iff (by omega) (by decide)).trans lt_iff_toNat_lt
  have hzero : littleEndian 4 (0 : UInt32).toNat = List.replicate 4 0 := rfl
  simp only [h48, h52, hzero]
  split_ifs with hr
  · rw [getElem?_append_left (by simp; omega), getElem?_append_right (by simp; omega),
      getElem?_replicate, if_pos (by simp; omega)]
  · have hread : bytes.readU8 (slotIndex*storageEventSlotSize+k) =
        (bytes.slotAt slotIndex.toNat)[k.toNat]? := by
      rw [BoundedBytes.readU8, read_slot hsize h (by omega) (by omega), map_some, field,
        getElem?_eq_getElem (by omega), drop_eq_getElem_cons (by omega),
        take_succ_cons, littleEndianValue, take_zero, littleEndianValue, Nat.mul_zero,
        Nat.add_zero, UInt8.ofNat_toNat]
    rw [hread]
    by_cases h1 : k.toNat < 48
    · rw [append_assoc, getElem?_append_left (by simp; omega), getElem?_take_of_lt h1]
    · rw [getElem?_append_right (by simp; omega), getElem?_drop]
      congr 1
      simp
      omega

end

/-! ## The checksum -/

theorem crcBit_toUInt64 (c : UInt32) :
    (if c.toUInt64 &&& 1 ≠ 0 then (c.toUInt64 >>> 1) ^^^ 0x82F63B78 else c.toUInt64 >>> 1) =
      (crcBit c).toUInt64 := by
  have hand : c.toUInt64 &&& 1 = (c &&& 1).toUInt64 := by simp
  have hshift : c.toUInt64 >>> 1 = (c >>> 1).toUInt64 := by simp
  have hzero : (c &&& 1).toUInt64 = 0 ↔ c &&& 1 = 0 := by
    rw [← UInt64.toNat_inj, ← UInt32.toNat_inj]
    simp
  simp only [hand, hshift, ne_eq, hzero, crcBit, ite_not]
  split_ifs
  · rfl
  · rw [UInt32.toUInt64_xor]
    rfl

theorem below_le_iff {k bound : UInt64} (hle : k ≤ bound) (hb : bound.toNat < 2^63) :
    below k bound ↔ k < bound :=
  below_iff ((le_iff_toNat_le.mp hle).trans_lt hb) hb

/-- A counter that is not below its bound any more has come to it. -/
theorem below_end {k bound : UInt64} (hle : k ≤ bound) (hb : bound.toNat < 2^63)
    (h : below k bound = false) : k = bound := by
  refine UInt64.le_antisymm hle (UInt64.not_lt.mp fun hlt => ?_)
  rw [(below_le_iff hle hb).mpr hlt] at h
  cases h

theorem add_one_toNat {k bound : UInt64} (h : k < bound) : (k+1).toNat = k.toNat+1 := by
  have hk := lt_iff_toNat_lt.mp h
  have hb := bound.toNat_lt
  have hone : (1 : UInt64).toNat = 1 := rfl
  rw [UInt64.toNat_add]
  omega

theorem bits_eq (c : UInt32) :
    WhileLoop.run (fun s => below s.2 8) bitBody 9 (c.toUInt64, 0) =
      some (.inl ((Nat.iterate crcBit 8 c).toUInt64, 8)) := by
  -- the bits still to come lead from the current remainder to the same result
  refine WhileLoop.run_eq (fun s => below s.2 8) bitBody
    (P := fun s => s.2 ≤ 8 ∧ ∃ d : UInt32, s.1 = d.toUInt64 ∧
      Nat.iterate crcBit (8-s.2.toNat) d = Nat.iterate crcBit 8 c)
    (fun s => 8-s.2.toNat) 9 ?_ ?_ ⟨by simp,c,rfl,rfl⟩ (by simp)
  · rintro ⟨_,bit⟩ ⟨hle,d,rfl,hd⟩ hlt
    have hlt : bit < 8 := (below_le_iff hle (by decide)).mp hlt
    have hnat : bit.toNat < 8 := lt_iff_toNat_lt.mp hlt
    have hnext := add_one_toNat hlt
    refine ⟨_,rfl,⟨?_,crcBit d,crcBit_toUInt64 d,?_⟩,?_⟩
    · rw [le_iff_toNat_le, hnext]
      exact hnat
    · rw [← hd, hnext, show 8-bit.toNat = (8-(bit.toNat+1))+1 by omega, Function.iterate_succ_apply]
    · change 8-(bit+1).toNat < 8-bit.toNat
      omega
  · rintro ⟨_,bit⟩ ⟨hle,d,rfl,hd⟩ hge
    have hbit : bit = 8 := below_end hle (by decide) hge
    subst hbit
    exact congrArg (fun x : UInt32 => Sum.inl (x.toUInt64, 8)) hd

theorem byteBody_eq {k : UInt64} {b : UInt8}
    (hb : slotByteForChecksum bytes slotIndex k = some b) (c : UInt32) :
    byteBody bytes slotIndex (c.toUInt64, k) = some (.inl ((crcByte c b).toUInt64, k+1)) := by
  rw [byteBody, hb, bind_some, ← UInt32.toUInt64_xor, bits_eq, bind_some]
  rfl

theorem slotChecksum_eq (hsize : bytes.data.length < 2^63)
    (h : (slotIndex.toNat+1)*512 ≤ bytes.data.length) :
    slotChecksum bytes slotIndex =
      some (StorageFormat.slotChecksum (decodeSlot (bytes.slotAt slotIndex.toNat))) := by
  obtain ⟨slot,hslot⟩ : ∃ slot, slot = slotBytes (decodeSlot (bytes.slotAt slotIndex.toNat)) 0 :=
    ⟨_,rfl⟩
  have hlen : slot.length = 512 := by
    have := bytes.length_slotAt h
    rw [hslot, slotBytes_decodeSlot this]
    simp [this, StorageFormat.littleEndian]
  have hbyte (k : UInt64) (hk : k.toNat < 512) :
      slotByteForChecksum bytes slotIndex k = slot[k.toNat]? :=
    hslot ▸ slotByteForChecksum_eq hsize h hk
  have hloop : WhileLoop.run (fun s => below s.2 storageEventSlotSize) (byteBody bytes slotIndex) 513
      (0xFFFFFFFF, 0) = some (.inl ((slot.foldl crcByte 0xFFFFFFFF).toUInt64, 512)) := by
    refine WhileLoop.run_eq (fun s => below s.2 storageEventSlotSize) (byteBody bytes slotIndex)
      (P := fun s => s.2 ≤ 512 ∧ ∃ c : UInt32, s.1 = c.toUInt64 ∧
        (slot.drop s.2.toNat).foldl crcByte c = slot.foldl crcByte 0xFFFFFFFF)
      (fun s => 512-s.2.toNat) 513 ?_ ?_ ⟨by simp,0xFFFFFFFF,rfl,rfl⟩ (by simp)
    · rintro ⟨_,k⟩ ⟨hle,c,rfl,hc⟩ hlt
      have hlt : k < storageEventSlotSize := (below_le_iff hle (by decide)).mp hlt
      have hnat : k.toNat < 512 := lt_iff_toNat_lt.mp hlt
      have hk : k.toNat < slot.length := by omega
      have hnext := add_one_toNat hlt
      rw [drop_eq_getElem_cons hk, foldl_cons] at hc
      refine ⟨_,byteBody_eq ((hbyte k hnat).trans (getElem?_eq_getElem hk)) c,⟨?_,_,rfl,?_⟩,?_⟩
      · rw [le_iff_toNat_le, hnext]
        exact hnat
      · rw [hnext]
        exact hc
      · change 512-(k+1).toNat < 512-k.toNat
        omega
    · rintro ⟨_,k⟩ ⟨hle,c,rfl,hc⟩ hge
      have hk : k = 512 := below_end hle (by decide) hge
      subst hk
      have hend : slot.drop (512 : UInt64).toNat = [] := drop_eq_nil_of_le (by rw [hlen]; decide)
      rw [hend] at hc
      exact congrArg (fun x : UInt32 => Sum.inl (x.toUInt64, 512)) hc
  rw [slotChecksum, hloop, bind_some, StorageFormat.slotChecksum, crc32c, ← hslot]
  simp

theorem slotChecksumValid_eq (hsize : bytes.data.length < 2^63)
    (h : (slotIndex.toNat+1)*512 ≤ bytes.data.length) :
    slotChecksumValid bytes slotIndex =
      some (StorageFormat.slotChecksumValid (decodeSlot (bytes.slotAt slotIndex.toNat))) := by
  rw [slotChecksumValid, BoundedBytes.readU32, read_slot hsize h (k := 48) (by decide) (by decide),
    slotChecksum_eq hsize h]
  rfl

/-! ## The scan -/

/-- The number that the scanner has for a reason of the reference. -/
def stopCode : RecoveryStopReason → UInt64
  | .cleanEOF => stopCleanEof
  | .checksumMismatch => stopChecksumMismatch
  | .incompleteAtomicGroup => stopIncompleteAtomicGroup
  | .invalidEmptySlot => stopInvalidEmptySlot

def reported (r : StorageFormat.RecoveryResult) : RecoveryResult :=
  ⟨r.visibleEvents,r.nextEventID,r.lastCommittedGroupEnd,stopCode r.stopReason⟩

/-- The fault of one member of a group, in the order of the reference's tests. -/
def memberFault (groupLen : UInt32) (expected : UInt64) (j : UInt32) (member : Slot) :
    Option RecoveryStopReason :=
  if member.header.eventID ≠ expected+j.toUInt64 ∨
      StorageFormat.slotChecksumValid member = false then some .checksumMismatch
  else if member.header.eventTypeID = 0 ∨ member.header.atomicGroupLen ≠ groupLen ∨
      member.header.atomicGroupIndex ≠ j then some .incompleteAtomicGroup
  else none

theorem groupFault_cons (groupLen : UInt32) (expected : UInt64) (j : UInt32) (member : Slot)
    (rest : List Slot) : groupFault groupLen expected j (member::rest) =
      (memberFault groupLen expected j member).or
        (groupFault groupLen expected (j+1) rest) := by
  rw [groupFault, memberFault]
  split_ifs <;> rfl

section
variable {bytes : BoundedBytes} {slotCount : UInt64} {s : ScanState} {groupLen : UInt32}

theorem memberBody_eq {j : UInt32} {member : Slot}
    (hheader : headerAt bytes (s.slotIndex+j.toUInt64) = some member.header)
    (hvalid : slotChecksumValid bytes (s.slotIndex+j.toUInt64) =
      some (StorageFormat.slotChecksumValid member)) :
    memberBody bytes s groupLen j.toUInt64 =
      some (match memberFault groupLen s.expectedEventID j member with
        | some why => .inr (s.stop (stopCode why))
        | none => .inl (j.toUInt64+1)) := by
  have hj : u64ToU32 j.toUInt64 = j := by
    apply UInt32.toNat_inj.mp
    have hmask : j.toNat &&& 4294967295 = j.toNat%2^32 := Nat.and_two_pow_sub_one_eq_mod _ 32
    simp [u64ToU32, hmask]
  rw [memberBody, hheader, bind_some, hvalid, bind_some, hj, memberFault]
  by_cases hid : member.header.eventID = s.expectedEventID+j.toUInt64 <;>
  by_cases hv : StorageFormat.slotChecksumValid member = false <;>
  by_cases ht : member.header.eventTypeID = 0 <;>
  by_cases hl : member.header.atomicGroupLen = groupLen <;>
  by_cases hi : member.header.atomicGroupIndex = j <;>
  simp [hid, hv, ht, hl, hi, stopCode]

theorem isReservedEmptySlot_eq {header : EventSlotHeader} (h : header.eventTypeID = 0) :
    isReservedEmptySlot header = StorageFormat.isReservedEmptySlot header := by
  have hflag : u64ToU32 storageSlotReservedEmpty = StorageFormat.storageSlotReservedEmpty := by
    decide
  rw [isReservedEmptySlot, StorageFormat.isReservedEmptySlot, h, hflag]
  split_ifs <;> simp_all

variable (hsize : bytes.data.length < 2^63) (hfits : slotCount.toNat*512 ≤ bytes.data.length)

theorem decodeSlots_drop (hi : i < slotCount.toNat) :
    (decodeSlots bytes slotCount).drop i =
      decodeSlot (bytes.slotAt i)::(decodeSlots bytes slotCount).drop (i+1) := by
  have hlen : i < (decodeSlots bytes slotCount).length := by simpa [decodeSlots] using hi
  rw [drop_eq_getElem_cons hlen]
  simp [decodeSlots]

include hsize hfits

theorem slot_read (h : slotIndex < slotCount) :
    headerAt bytes slotIndex = some (decodeSlot (bytes.slotAt slotIndex.toNat)).header ∧
    slotChecksumValid bytes slotIndex =
      some (StorageFormat.slotChecksumValid (decodeSlot (bytes.slotAt slotIndex.toNat))) := by
  have hin : (slotIndex.toNat+1)*512 ≤ bytes.data.length :=
    le_trans (Nat.mul_le_mul_right 512 (lt_iff_toNat_lt.mp h)) hfits
  exact ⟨headerAt_eq hsize hin,slotChecksumValid_eq hsize hin⟩

theorem members_eq (hend : s.slotIndex.toNat+groupLen.toNat ≤ slotCount.toNat) :
    WhileLoop.run (fun m => below m groupLen.toUInt64) (memberBody bytes s groupLen)
        (groupLen.toNat+1) 0 =
      some (match groupFault groupLen s.expectedEventID 0
          (((decodeSlots bytes slotCount).drop s.slotIndex.toNat).take groupLen.toNat) with
        | some why => .inr (s.stop (stopCode why))
        | none => .inl groupLen.toUInt64) := by
  generalize hF : groupFault groupLen s.expectedEventID 0
    (((decodeSlots bytes slotCount).drop s.slotIndex.toNat).take groupLen.toNat) = fault
  have hcount := slotCount.toNat_lt
  have hmeasure (j : UInt32) : j.toUInt64.toNat = j.toNat := UInt32.toNat_toUInt64 j
  have widen {j : UInt32} (h : j ≤ groupLen) : j.toUInt64 ≤ groupLen.toUInt64 := by
    rw [le_iff_toNat_le, hmeasure, hmeasure]
    exact UInt32.le_iff_toNat_le.mp h
  have hbound : groupLen.toUInt64.toNat < 2^63 := by
    have := groupLen.toNat_lt
    rw [hmeasure]
    omega
  -- the members not yet visited decide what the whole group is found to be
  refine WhileLoop.run_eq _ _ (P := fun m => ∃ j : UInt32, m = j.toUInt64 ∧ j ≤ groupLen ∧
      groupFault groupLen s.expectedEventID j
        (((decodeSlots bytes slotCount).drop (s.slotIndex.toNat+j.toNat)).take
          (groupLen.toNat-j.toNat)) = fault)
    (fun m => groupLen.toNat-m.toNat) (groupLen.toNat+1) ?_ ?_ ⟨0,rfl,by simp,hF⟩ (by simp)
  · rintro _ ⟨j,rfl,hle,hj⟩ hlt
    have hlt : j.toNat < groupLen.toNat := by
      simpa [lt_iff_toNat_lt] using (below_le_iff (widen hle) hbound).mp hlt
    have hindex : (s.slotIndex+j.toUInt64).toNat = s.slotIndex.toNat+j.toNat := by
      rw [UInt64.toNat_add, hmeasure]
      omega
    have hin : s.slotIndex+j.toUInt64 < slotCount := by
      rw [lt_iff_toNat_lt, hindex]
      omega
    obtain ⟨hheader,hvalid⟩ := slot_read hsize hfits hin
    have hnext : (j+1).toNat = j.toNat+1 := by
      have hg := groupLen.toNat_lt
      have hone : (1 : UInt32).toNat = 1 := rfl
      rw [UInt32.toNat_add]
      omega
    have hcast : (j+1).toUInt64 = j.toUInt64+1 := by
      have hone : (1 : UInt64).toNat = 1 := rfl
      apply UInt64.toNat_inj.mp
      rw [UInt64.toNat_add, hmeasure, hmeasure, hnext]
      omega
    rw [decodeSlots_drop (by omega), show groupLen.toNat-j.toNat = groupLen.toNat-(j.toNat+1)+1 by
      omega, take_succ_cons, groupFault_cons, ← hindex] at hj
    refine ⟨_,memberBody_eq hheader hvalid,?_⟩
    cases hm : memberFault groupLen s.expectedEventID j
        (decodeSlot (bytes.slotAt (s.slotIndex+j.toUInt64).toNat)) with
    | some why =>
      rw [hm, some_or] at hj
      rw [← hj]
      rfl
    | none =>
      rw [hm, none_or] at hj
      refine ⟨⟨j+1,hcast.symm,?_,?_⟩,?_⟩
      · rw [UInt32.le_iff_toNat_le, hnext]
        exact hlt
      · rw [hnext, ← add_assoc, ← hindex]
        exact hj
      · rw [← hcast, hmeasure, hmeasure, hnext]
        omega
  · rintro _ ⟨j,rfl,hle,hj⟩ hge
    have hjg : j = groupLen := by
      have := congrArg UInt64.toNat (below_end (widen hle) hbound hge)
      rw [hmeasure, hmeasure] at this
      exact UInt32.toNat_inj.mp this
    subst hjg
    rw [Nat.sub_self, take_zero, groupFault] at hj
    rw [← hj]

omit hsize hfits in
theorem oversized_iff (groupLen : UInt32) : below storageMaxAtomicGroupSlots groupLen.toUInt64 ↔
    groupLen > storageMaxAtomicGroupSlots.toUInt32 := by
  have hlt : groupLen.toUInt64.toNat < 2^63 := by
    have := groupLen.toNat_lt
    rw [UInt32.toNat_toUInt64]
    omega
  rw [below_iff (by decide) hlt, gt_iff_lt, lt_iff_toNat_lt, UInt32.lt_iff_toNat_lt,
    UInt32.toNat_toUInt64]
  rfl

omit hsize in
theorem group_end (hs : slotIndex < slotCount)
    (h : ¬ groupLen > storageMaxAtomicGroupSlots.toUInt32) :
    (slotIndex+groupLen.toUInt64).toNat = slotIndex.toNat+groupLen.toNat := by
  have hlen := bytes.length_lt
  have hnat := lt_iff_toNat_lt.mp hs
  have hmax : storageMaxAtomicGroupSlots.toUInt32.toNat = 32 := rfl
  rw [gt_iff_lt, UInt32.lt_iff_toNat_lt, hmax] at h
  rw [UInt64.toNat_add, UInt32.toNat_toUInt64]
  omega

/-- What the reference answers from the scanner's state on. -/
def continued (bytes : BoundedBytes) (slotCount : UInt64) (s : ScanState) :
    StorageFormat.RecoveryResult :=
  recoverFrom ((decodeSlots bytes slotCount).drop s.slotIndex.toNat) s.expectedEventID
    ⟨s.visibleEvents,s.expectedEventID,s.lastCommittedGroupEnd,.cleanEOF⟩

/-- A turn of the scan ends with the answer of the reference or leaves the answer as it
is for the slots that come. -/
theorem scanBody_spec (hs : s.slotIndex < slotCount)
    (hnone : ∀ slot ∈ decodeSlots bytes slotCount, StorageFormat.slotChecksumValid slot →
      StorageFormat.isReservedEmptySlot slot.header = false) :
    ∃ r, scanBody bytes slotCount s = some r ∧ r.elim
      (fun t => (t.slotIndex ≤ slotCount ∧
          continued bytes slotCount t = continued bytes slotCount s) ∧ s.slotIndex < t.slotIndex)
      (fun x => x = reported (continued bytes slotCount s)) := by
  obtain ⟨hheader,hvalid⟩ := slot_read hsize hfits hs
  have hnat := lt_iff_toNat_lt.mp hs
  have hslots : (decodeSlots bytes slotCount).drop s.slotIndex.toNat = _ := decodeSlots_drop hnat
  have hlength : ((decodeSlots bytes slotCount).drop s.slotIndex.toNat).length =
      slotCount.toNat-s.slotIndex.toNat := by simp [decodeSlots]
  rw [scanBody, hheader, bind_some, hvalid, bind_some]
  rw [continued, hslots]
  rw [hslots] at hlength
  generalize decodeSlot (bytes.slotAt s.slotIndex.toNat) = slot at hslots hlength ⊢
  by_cases hv : StorageFormat.slotChecksumValid slot = false
  · rw [if_pos hv, recoverFrom, if_pos hv]
    exact ⟨_,rfl,rfl⟩
  rw [if_neg hv, recoverFrom, if_neg hv]
  by_cases ht : slot.header.eventTypeID = 0
  · have he : StorageFormat.isReservedEmptySlot slot.header = false :=
      hnone slot (mem_of_mem_drop (hslots ▸ mem_cons_self ..)) (Bool.of_not_eq_false hv)
    rw [if_pos ht, if_pos he, if_pos ⟨ht,(isReservedEmptySlot_eq ht).trans he⟩]
    exact ⟨_,rfl,rfl⟩
  rw [if_neg ht, if_neg (fun h => ht h.1)]
  by_cases hid : slot.header.eventID = s.expectedEventID
  · rw [if_neg (not_not.mpr hid), if_neg (not_not.mpr hid)]
    dsimp only
    generalize slot.header.atomicGroupLen = groupLen
    by_cases h0 : groupLen = 0
    · rw [if_pos h0, dif_pos (.inl h0)]
      exact ⟨_,rfl,rfl⟩
    by_cases h32 : groupLen > storageMaxAtomicGroupSlots.toUInt32
    · rw [if_neg h0, if_pos ((oversized_iff _).mpr h32), dif_pos (.inr (.inl h32))]
      exact ⟨_,rfl,rfl⟩
    have hend := group_end hfits hs h32
    have hsmall : s.slotIndex.toNat+groupLen.toNat < 2^63 := by
      have hmax : storageMaxAtomicGroupSlots.toUInt32.toNat = 32 := rfl
      rw [gt_iff_lt, UInt32.lt_iff_toNat_lt, hmax] at h32
      omega
    have hover : below slotCount (s.slotIndex+groupLen.toUInt64) ↔ groupLen.toNat >
        (slot::(decodeSlots bytes slotCount).drop (s.slotIndex.toNat+1)).length := by
      rw [below_iff (by omega) (by omega), lt_iff_toNat_lt, hend, hlength]
      omega
    by_cases hl : below slotCount (s.slotIndex+groupLen.toUInt64)
    · rw [if_neg h0, if_neg (h32 ∘ (oversized_iff _).mp), if_pos hl,
        dif_pos (.inr (.inr (hover.mp hl)))]
      exact ⟨_,rfl,rfl⟩
    have hin : s.slotIndex.toNat+groupLen.toNat ≤ slotCount.toNat := by
      rw [below_iff (by omega) (by omega), lt_iff_toNat_lt, hend] at hl
      omega
    rw [if_neg h0, if_neg (h32 ∘ (oversized_iff _).mp), if_neg hl, members_eq hsize hfits hin,
      dif_neg (by
        rintro (h | h | h)
        · exact h0 h
        · exact h32 h
        · exact hl (hover.mpr h)), ← hslots]
    cases groupFault groupLen s.expectedEventID 0
        (((decodeSlots bytes slotCount).drop s.slotIndex.toNat).take groupLen.toNat) with
    | some why => exact ⟨_,rfl,rfl⟩
    | none =>
      have hpos : groupLen.toNat ≠ 0 := fun h => h0 (UInt32.toNat_inj.mp h)
      refine ⟨_,rfl,⟨?_,?_⟩,?_⟩
      · rw [le_iff_toNat_le, hend]
        exact hin
      · rw [continued, hend, ← drop_drop]
      · rw [lt_iff_toNat_lt, hend]
        omega
  · rw [if_pos hid, if_pos hid]
    exact ⟨_,rfl,rfl⟩

/-- The slots that are left go down with every turn, so the scan ends, and with the answer
of the reference. -/
theorem recoverSlots_eq
    (hnone : ∀ slot ∈ decodeSlots bytes slotCount, StorageFormat.slotChecksumValid slot →
      StorageFormat.isReservedEmptySlot slot.header = false) :
    recoverSlots bytes slotCount =
    some (reported (StorageFormat.recoverSlots (decodeSlots bytes slotCount))) := by
  have hcount : slotCount.toNat < 2^63 := by omega
  obtain ⟨r,hr,hq⟩ := WhileLoop.run_total (fun s => below s.slotIndex slotCount)
    (scanBody bytes slotCount)
    (P := fun s => s.slotIndex ≤ slotCount ∧ continued bytes slotCount s =
      StorageFormat.recoverSlots (decodeSlots bytes slotCount))
    (Q := fun r => r.elim (·.stop stopCleanEof) id =
      reported (StorageFormat.recoverSlots (decodeSlots bytes slotCount)))
    (fun s => slotCount.toNat-s.slotIndex.toNat) (slotCount.toNat+1)
    (by
      rintro s ⟨hle,hs⟩ hlt
      obtain ⟨r,hr,hq⟩ := scanBody_spec hsize hfits ((below_le_iff hle hcount).mp hlt) hnone
      refine ⟨r,hr,?_⟩
      cases r with
      | inl t =>
        obtain ⟨⟨hle,ht⟩,hup⟩ := hq
        have hle' := le_iff_toNat_le.mp hle
        have hup' := lt_iff_toNat_lt.mp hup
        refine ⟨⟨hle,ht.trans hs⟩,?_⟩
        omega
      | inr x => exact hq.trans (congrArg reported hs))
    (by
      rintro s ⟨hle,hs⟩ hge
      have hend : s.slotIndex = slotCount := below_end hle hcount hge
      have hnil : (decodeSlots bytes slotCount).drop s.slotIndex.toNat = [] := by
        simp [decodeSlots, hend]
      rw [continued, hnil, CrashAtomicity.recover_nil] at hs
      rw [← hs]
      rfl)
    (s := ⟨0,0,0,0⟩) ⟨by simp,rfl⟩ (by simp)
  rw [recoverSlots, hr, map_some, ← hq]
  cases r <;> rfl

end

/-! ## The writers -/

inductive Request where
  | enqueue (semanticSlots reservedEmptySlots : UInt64)
  | durabilityCompleted (token : CommitToken)

variable (w : StorageWriter)

def StorageWriter.serve : Request → StorageWriter × StorageAppendResult
  | .enqueue s r => w.enqueueAtomicGroup ⟨s,r⟩
  | .durabilityCompleted token => w.onDurabilityCompleted token

def policyServe (w : WriterPolicy) : Request → WriterPolicy × EnqueueResult
  | .enqueue s r => w.enqueueAtomicGroupWithReserved s r
  | .durabilityCompleted token => w.onDurabilityCompleted token

def serveAll {σ ρ : Type} (serve : σ → Request → σ × ρ) : σ → List Request → σ × List ρ
  | w, [] => (w, [])
  | w, q::qs =>
    ((serveAll serve (serve w q).1 qs).1, (serve w q).2::(serveAll serve (serve w q).1 qs).2)

/-- The reference's writer with the same counts. -/
def StorageWriter.policy : WriterPolicy :=
  ⟨w.nextEventID,w.nextStreamID,w.openBatchSlots,w.durableFrontier⟩

def rejectCode (code : String) : UInt64 :=
  if code = "SEM0114" then 1114 else if code = "SEM0116" then 1116 else 0

def appended (r : EnqueueResult) : StorageAppendResult :=
  ⟨r.accepted,r.firstEventID,r.lastEventID,r.openBatchSlots,r.flushRequested,
    rejectCode r.rejectCode⟩

def StorageWriter.refuses : Request → Bool
  | .enqueue s r => !(w.enqueueAtomicGroup ⟨s,r⟩).2.accepted
  | .durabilityCompleted _ => false

/-- No count or id of a completion that is compared, and no semantic count, has its top
bit set. -/
def Request.Small : Request → Prop
  | .enqueue s _ => s.toNat < 2^63
  | .durabilityCompleted token => token.completedWriteCount.toNat < 2^63 ∧
    token.pendingWriteCount.toNat < 2^63 ∧ token.lastEventID.toNat < 2^63

structure StorageWriter.Small (w : StorageWriter) : Prop where
  openBatchSlots : w.openBatchSlots.toNat < 2^62
  durableFrontier : w.durableFrontier.toNat < 2^63

theorem below_of_top {a b : UInt64} (ha : 2^63 ≤ a.toNat) (hb : b.toNat < 2^63) : below a b := by
  have hb' : b.toBitVec.toNat = b.toNat := rfl
  have ha' : a.toBitVec.toNat = a.toNat := rfl
  have := a.toNat_lt
  rw [below, BitVec.slt, decide_eq_true_iff, BitVec.toInt_eq_toNat_cond,
    BitVec.toInt_eq_toNat_cond, if_neg (by omega), if_pos (by omega)]
  omega

section
variable (w : StorageWriter)

theorem acknowledged_eq {token : CommitToken} (h : (Request.durabilityCompleted token).Small) :
    acknowledged token = token.acknowledged := by
  rw [acknowledged, CommitToken.acknowledged]
  simp only [below_iff h.1 h.2.1]
  cases token.flushRequired <;> cases token.flushCompleted <;> rfl

/-- A sum with its top bit set is refused by the first test here and by the second one
there. -/
theorem refused_iff {s r : UInt64} (hs : s.toNat < 2^63) :
    (below (s+r) s ∨ below StorageFormat.storageMaxBatchSlots (s+r)) ↔
      (s+r < s ∨ s+r > StorageFormat.storageMaxBatchSlots) := by
  rcases Nat.lt_or_ge (s+r).toNat (2^63) with hlt | hge
  · rw [below_iff hlt hs, below_iff (by decide) hlt]
  · refine iff_of_true (.inl (below_of_top hge hs)) (.inr ?_)
    have hmax : StorageFormat.storageMaxBatchSlots.toNat = 72 := rfl
    rw [gt_iff_lt, lt_iff_toNat_lt]
    omega

theorem batch_eq (hw : w.openBatchSlots.toNat < 2^62) {n : UInt64}
    (hn : ¬ n > StorageFormat.storageMaxBatchSlots) :
    (if below (w.openBatchSlots+n) StorageFormat.storageTargetBatchSlots then
        (w.openBatchSlots+n, false)
      else if ¬ below StorageFormat.storageMaxBatchSlots (w.openBatchSlots+n) then
        (w.openBatchSlots+n, true)
      else (n, true)) = StorageFormat.batchAfter w.openBatchSlots n := by
  have hmax : StorageFormat.storageMaxBatchSlots.toNat = 72 := rfl
  have hsum : (w.openBatchSlots+n).toNat < 2^63 := by
    rw [gt_iff_lt, lt_iff_toNat_lt] at hn
    rw [UInt64.toNat_add]
    omega
  simp only [below_iff hsum (show StorageFormat.storageTargetBatchSlots.toNat < 2^63 by decide),
    below_iff (show StorageFormat.storageMaxBatchSlots.toNat < 2^63 by decide) hsum,
    UInt64.not_lt]
  rfl

theorem batchAfter_le {opened n : UInt64} (h : n ≤ StorageFormat.storageMaxBatchSlots) :
    (StorageFormat.batchAfter opened n).1 ≤ StorageFormat.storageMaxBatchSlots := by
  rw [StorageFormat.batchAfter]
  split_ifs with hlow hfull
  · exact UInt64.le_of_lt (UInt64.lt_of_lt_of_le hlow (by decide))
  · exact hfull
  · exact h

/-- Both writers refuse a group, or both take it and answer alike. -/
theorem enqueue_cases (hw : w.Small) {s : UInt64} (hs : s.toNat < 2^63) (r : UInt64) :
    w.enqueueAtomicGroup ⟨s,r⟩ = (w, w.rejected) ∧
      w.policy.enqueueAtomicGroupWithReserved s r =
        (w.policy, StorageFormat.rejected "SEM0114") ∨
    (w.enqueueAtomicGroup ⟨s,r⟩).2.accepted ∧
      (w.policy.enqueueAtomicGroupWithReserved s r).1 = (w.enqueueAtomicGroup ⟨s,r⟩).1.policy ∧
      (w.enqueueAtomicGroup ⟨s,r⟩).2 =
        appended (w.policy.enqueueAtomicGroupWithReserved s r).2 := by
  rw [StorageWriter.enqueueAtomicGroup, WriterPolicy.enqueueAtomicGroupWithReserved]
  by_cases h1 : s = 0
  · rw [if_pos h1, if_pos (Or.inl h1)]
    exact .inl ⟨rfl,rfl⟩
  have hmax : below storageMaxAtomicGroupSlots s ↔ s > storageMaxAtomicGroupSlots :=
    below_iff (by decide) hs
  by_cases h2 : s > storageMaxAtomicGroupSlots
  · rw [if_neg h1, if_pos (hmax.mpr h2), if_pos (Or.inr h2)]
    exact .inl ⟨rfl,rfl⟩
  rw [if_neg h1, if_neg (mt hmax.mp h2), if_neg (not_or.mpr ⟨h1,h2⟩)]
  have hrefused := refused_iff (r := r) hs
  by_cases h3 : s+r < s ∨ s+r > StorageFormat.storageMaxBatchSlots
  · rw [if_pos h3]
    refine .inl ⟨?_,rfl⟩
    rcases hrefused.mpr h3 with h | h
    · rw [if_pos h]
    · simp only [h, if_true, ite_self]
  have hnone := mt hrefused.mp h3
  rw [if_neg (fun h => hnone (.inl h)), if_neg (fun h => hnone (.inr h)), if_neg h3]
  have hbatch := batch_eq w hw.openBatchSlots (fun h => h3 (.inr h))
  refine .inr ⟨rfl,?_,?_⟩
  · simp only [hbatch]
    rfl
  · simp only [hbatch]
    rfl

theorem durability_eq (hw : w.Small) {token : CommitToken}
    (h : (Request.durabilityCompleted token).Small) :
    (w.policy.onDurabilityCompleted token).1 = (w.onDurabilityCompleted token).1.policy ∧
    (w.onDurabilityCompleted token).2 = appended (w.policy.onDurabilityCompleted token).2 := by
  rw [StorageWriter.onDurabilityCompleted, WriterPolicy.onDurabilityCompleted, acknowledged_eq h]
  by_cases ha : token.acknowledged = false
  · rw [if_pos ha, if_pos ha]
    exact ⟨rfl,rfl⟩
  · rw [if_neg ha, if_neg ha]
    simp only [below_iff hw.durableFrontier h.2.2]
    exact ⟨rfl,rfl⟩

/-- The counts stay below the values at which the signed comparison differs. -/
theorem serve_small (hw : w.Small) {q : Request} (hq : q.Small) : (w.serve q).1.Small := by
  cases q with
  | enqueue s r =>
    rw [StorageWriter.serve]
    obtain ⟨hw',-⟩ | ⟨ha,hstate,hanswer⟩ := enqueue_cases w hw hq r
    · rw [hw']
      exact hw
    · have haccepted : (w.policy.enqueueAtomicGroupWithReserved s r).2.accepted := by
        rwa [hanswer] at ha
      obtain ⟨hopen,-,hle⟩ := StorageFormat.enqueue_batch w.policy s r haccepted
      have hfrontier := StorageFormat.enqueue_frontier w.policy s r
      rw [hstate] at hopen hfrontier
      constructor
      · change (w.enqueueAtomicGroup ⟨s,r⟩).1.openBatchSlots = _ at hopen
        rw [hopen]
        exact Nat.lt_of_le_of_lt (le_iff_toNat_le.mp (batchAfter_le hle)) (by decide)
      · change (w.enqueueAtomicGroup ⟨s,r⟩).1.durableFrontier = _ at hfrontier
        rw [hfrontier]
        exact hw.durableFrontier
  | durabilityCompleted token =>
    rw [StorageWriter.serve, StorageWriter.onDurabilityCompleted]
    split
    · exact hw
    · refine ⟨?_,?_⟩
      · dsimp only
        split
        · decide
        · exact hw.openBatchSlots
      · dsimp only
        split
        · exact hq.2.2
        · exact hw.durableFrontier

/-- One request: the same next state and the same decision, and the same answer
unless an append is refused while a batch is open. -/
theorem serve_spec (hw : w.Small) {q : Request} (hq : q.Small) :
    (policyServe w.policy q).1 = (w.serve q).1.policy ∧
    (policyServe w.policy q).2.accepted = (w.serve q).2.accepted ∧
    ((w.serve q).2 = appended (policyServe w.policy q).2 ↔
      (w.refuses q → w.openBatchSlots = 0)) := by
  cases q with
  | enqueue s r =>
    rw [StorageWriter.serve, policyServe, StorageWriter.refuses]
    obtain ⟨hr,hp⟩ | ⟨ha,hstate,hanswer⟩ := enqueue_cases w hw hq r
    · rw [hr, hp]
      simp [StorageWriter.rejected, appended, StorageFormat.rejected, rejectCode]
    · refine ⟨hstate,by rw [hanswer]; rfl,?_⟩
      rw [ha]
      exact iff_of_true hanswer (by simp)
  | durabilityCompleted token =>
    obtain ⟨hstate,hanswer⟩ := durability_eq w hw hq
    exact ⟨hstate,by rw [StorageWriter.serve, hanswer]; rfl,
      iff_of_true hanswer (by simp [StorageWriter.refuses])⟩

variable {w} {qs : List Request} (hw : w.Small) (hqs : ∀ q ∈ qs, q.Small)
include hw hqs

theorem serveAll_policy :
    (serveAll policyServe w.policy qs).1 = (serveAll StorageWriter.serve w qs).1.policy := by
  induction qs generalizing w with
  | nil => rfl
  | cons q qs ih =>
    obtain ⟨hq,hqs⟩ := forall_mem_cons.mp hqs
    rw [serveAll, serveAll, (serve_spec w hw hq).1, ih (serve_small w hw hq) hqs]

theorem serveAll_accepted :
    (serveAll policyServe w.policy qs).2.map (·.accepted) =
      (serveAll StorageWriter.serve w qs).2.map (·.accepted) := by
  induction qs generalizing w with
  | nil => rfl
  | cons q qs ih =>
    obtain ⟨hq,hqs⟩ := forall_mem_cons.mp hqs
    obtain ⟨hstate,haccepted,-⟩ := serve_spec w hw hq
    rw [serveAll, serveAll, map_cons, map_cons, haccepted, hstate, ih (serve_small w hw hq) hqs]

theorem serveAll_answers :
    (serveAll StorageWriter.serve w qs).2 =
        (serveAll policyServe w.policy qs).2.map appended ↔
      ∀ n q, qs[n]? = some q →
        (serveAll StorageWriter.serve w (qs.take n)).1.refuses q →
        (serveAll StorageWriter.serve w (qs.take n)).1.openBatchSlots = 0 := by
  induction qs generalizing w with
  | nil => simp [serveAll]
  | cons q qs ih =>
    obtain ⟨hq,hqs⟩ := forall_mem_cons.mp hqs
    obtain ⟨hstate,-,hanswer⟩ := serve_spec w hw hq
    rw [serveAll, serveAll, map_cons, List.cons.injEq, hanswer, hstate,
      ih (serve_small w hw hq) hqs]
    constructor
    · rintro ⟨hhead,htail⟩ (_ | n) q' hq'
      · obtain rfl : q = q' := by simpa using hq'
        exact hhead
      · exact htail n q' (by simpa using hq')
    · intro h
      exact ⟨h 0 q rfl,fun n q' hq' => h (n+1) q' (by simpa using hq')⟩

end

/-- The bytes of slots one after another. -/
def logBytes (slots : List Slot) : List UInt8 :=
  slots.flatMap fun slot => slotBytes slot slot.header.checksum32

theorem length_logBytes (slots : List Slot) : (logBytes slots).length = slots.length*512 := by
  simp [logBytes, length_flatMap, slotBytes_length]

theorem drop_logBytes (slots : List Slot) (i : ℕ) :
    (logBytes slots).drop (i*512) = logBytes (slots.drop i) := by
  induction slots generalizing i with
  | nil => simp [logBytes]
  | cons slot slots ih =>
    cases i with
    | zero => simp
    | succ i =>
      have hlength := slotBytes_length slot slot.header.checksum32
      rw [drop_succ_cons, ← ih, logBytes, flatMap_cons, drop_append, drop_of_length_le (by omega),
        nil_append, hlength, Nat.succ_mul, Nat.add_sub_cancel]
      rfl

theorem decodeSlots_logBytes {slots : List Slot} {bytes : BoundedBytes} {slotCount : UInt64}
    (hbytes : bytes.data = logBytes slots) (hcount : slotCount.toNat = slots.length) :
    decodeSlots bytes slotCount = slots := by
  refine ext_getElem (by simp [decodeSlots, hcount]) fun i _ hi => ?_
  have hslot : bytes.slotAt i = slotBytes slots[i] slots[i].header.checksum32 := by
    rw [BoundedBytes.slotAt, hbytes, drop_logBytes, drop_eq_getElem_cons hi, logBytes, flatMap_cons]
    exact take_left' (slotBytes_length _ _)
  simp [decodeSlots, hslot, decodeSlot_slotBytes]

def twoEvents : List Slot := CrashAtomicity.groupSlots CrashAtomicity.blankContents ⟨0,1,2,0⟩

theorem recover_twoEvents : StorageFormat.recoverSlots twoEvents = ⟨2,2,1,.cleanEOF⟩ := by
  have hfault := CrashAtomicity.group_fault_none CrashAtomicity.blankContents ⟨0,1,2,0⟩ 0 2 (by decide)
  have hvalid := CrashAtomicity.semantic_slot_valid CrashAtomicity.blankContents ⟨0,1,2,0⟩ 0
  have htype := CrashAtomicity.semantic_slot_type CrashAtomicity.blankContents ⟨0,1,2,0⟩ 0
  have hlength : UInt32.toNat 2 ≤ twoEvents.length := Nat.le_refl 2
  have hgroup := CrashAtomicity.recover_group _ _ _ ⟨0,0,0,.cleanEOF⟩ 2 hvalid htype rfl rfl (by decide)
    (by decide) hlength hfault
  exact hgroup.trans (CrashAtomicity.recover_nil ..)

theorem twoEvents_typed : ∀ slot ∈ twoEvents, StorageFormat.isReservedEmptySlot slot.header = false := by
  intro slot hslot
  rw [twoEvents, CrashAtomicity.groupSlots, mem_append, List.mem_map, List.mem_map] at hslot
  rcases hslot with ⟨j,-,rfl⟩ | ⟨j,hj,-⟩
  · rfl
  · cases hj

end Wrela.StorageRuntime

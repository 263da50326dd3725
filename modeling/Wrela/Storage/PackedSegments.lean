import Wrela.Storage.Refinement
import Wrela.UnitParse
import Mathlib.Data.List.MinMax

/-!
# Packed segments

`PackSlots` writes slots one after the other without the padding behind their
payloads, with an index entry for every slot whose id is a multiple of the
stride away from the first. A slot is found again from the nearest index entry
below it by skipping whole slots with the payload lengths they store.
-/

set_option autoImplicit false

namespace Wrela.PackedSegments
open StorageFormat List UInt64
open StorageRuntime (field decodeSlot decodeSlot_slotBytes)

structure SegmentIndexEntry where
  eventIDDelta : UInt64
  byteOffset : UInt64
  deriving DecidableEq, Repr

structure PackedSegment where
  baseEventID : UInt64
  bytes : List UInt8
  index : List SegmentIndexEntry
  deriving DecidableEq, Repr

def packedPayloadLength (slot : Slot) : UInt64 :=
  let payloadLength := slot.header.payloadLength.toUInt64
  if payloadLength > 448 then 448 else payloadLength

def packedBytes (slot : Slot) : List UInt8 :=
  (slotBytes slot slot.header.checksum32).take (64+(packedPayloadLength slot).toNat)

def packSlot (stride : UInt64) (packed : PackedSegment) (slot : Slot) : PackedSegment :=
  let delta := slot.header.eventID-packed.baseEventID
  { packed with
    index := if delta % stride = 0 then
        packed.index++[⟨delta,UInt64.ofNat packed.bytes.length⟩]
      else packed.index
    bytes := packed.bytes++packedBytes slot }

variable (slots : List Slot)

def packSlots (stride : UInt64) : PackedSegment :=
  match slots with
  | [] => ⟨0,[],[]⟩
  | first::_ =>
    slots.foldl (packSlot (if stride = 0 then 1 else stride)) ⟨first.header.eventID,[],[]⟩

/-! ## What a packed slot holds -/

section
variable {bs : List UInt8} {offset width : ℕ}

theorem field_take {n : ℕ} (h : offset+width ≤ n) :
    field (bs.take n) offset width = field bs offset width := by
  rw [field, field, drop_take, take_take, Nat.min_eq_left (by omega)]

theorem field_append {rest : List UInt8} (h : offset+width ≤ bs.length) :
    field (bs++rest) offset width = field bs offset width := by
  have htake : field ((bs++rest).take bs.length) offset width = field (bs++rest) offset width :=
    field_take h
  rw [← htake, take_left]

end

section
variable {slot : Slot}

theorem packedPayloadLength_eq (h : slot.header.payloadLength ≤ 448) :
    (packedPayloadLength slot).toNat = slot.header.payloadLength.toNat := by
  have hle : slot.header.payloadLength.toNat ≤ 448 := UInt32.le_iff_toNat_le.mp h
  have hword : slot.header.payloadLength.toUInt64.toNat = slot.header.payloadLength.toNat :=
    UInt32.toNat_toUInt64 _
  rw [packedPayloadLength, if_neg, hword]
  rw [gt_iff_lt, lt_iff_toNat_lt, hword]
  exact not_lt.mpr hle

theorem packedBytes_length (h : slot.header.payloadLength ≤ 448) :
    (packedBytes slot).length = 64+slot.header.payloadLength.toNat := by
  have hle : slot.header.payloadLength.toNat ≤ 448 := UInt32.le_iff_toNat_le.mp h
  rw [packedBytes, length_take, slotBytes_length, packedPayloadLength_eq h]
  omega

/-- The slot is read back from its packed bytes when it has nothing behind its
payload. -/
theorem decode_packedBytes (h : slot.header.payloadLength ≤ 448)
    (hzero : ∀ k : Fin eventPayloadBytes, slot.header.payloadLength.toNat ≤ k.val →
      slot.payload[k] = 0) : decodeSlot (packedBytes slot) = slot := by
  have hheader : (decodeSlot (packedBytes slot)).header = slot.header := by
    nth_rewrite 2 [← decodeSlot_slotBytes slot]
    simp (disch := omega) only [decodeSlot, packedBytes, field_take]
  have hpayload : (decodeSlot (packedBytes slot)).payload = slot.payload := by
    apply Vector.ext
    intro k hk
    simp only [decodeSlot, packedBytes, packedPayloadLength_eq h, Vector.getElem_ofFn,
      getD_eq_getElem?_getD]
    by_cases hlt : k < slot.header.payloadLength.toNat
    · rw [getElem?_take_of_lt (by omega), slotBytes_payload _ _ hk]
      rfl
    · -- behind the payload the reader fills in zeros
      rw [getElem?_take_eq_none (by omega)]
      exact (hzero ⟨k,hk⟩ (Nat.le_of_not_lt hlt)).symm
  change Slot.mk (decodeSlot (packedBytes slot)).header (decodeSlot (packedBytes slot)).payload =
    Slot.mk slot.header slot.payload
  rw [hheader, hpayload]

end

/-! ## Reading -/

def storedLength (bytes : List UInt8) : ℕ := 64+field bytes 40 4

theorem storedLength_packedBytes (slot : Slot) (rest : List UInt8)
    (h : slot.header.payloadLength ≤ 448) :
    storedLength (packedBytes slot++rest) = (packedBytes slot).length := by
  have hfield : UInt32.ofNat (field (packedBytes slot) 40 4) = slot.header.payloadLength := by
    have hheader := congrArg (·.header.payloadLength) (decodeSlot_slotBytes slot)
    rw [packedBytes, field_take (by omega)]
    exact hheader
  have hlt : field (packedBytes slot) 40 4 < 2^32 := StorageRuntime.field_lt _ 40 4
  have hlength := packedBytes_length h
  rw [storedLength, field_append (by omega), hlength, ← hfield, UInt32.toNat_ofNat_of_lt' hlt]

def slotFormat : RecordStream.Format Slot UInt8 where
  Valid slot := slot.header.payloadLength ≤ 448
  encode := packedBytes
  width := storedLength
  width_encode := storedLength_packedBytes

def PackedSegment.nearest (packed : PackedSegment) (delta : UInt64) : Option SegmentIndexEntry :=
  (packed.index.filter fun entry => entry.eventIDDelta ≤ delta).argmax fun entry =>
    entry.eventIDDelta.toNat

/-- The slot of an event: from the nearest index entry on, whole slots are skipped
by their stored lengths. -/
def PackedSegment.readSlot (packed : PackedSegment) (eventID : UInt64) : Option Slot :=
  let delta := eventID-packed.baseEventID
  (packed.nearest delta).bind fun entry =>
    let bytes := slotFormat.skip (delta-entry.eventIDDelta).toNat
      (packed.bytes.drop entry.byteOffset.toNat)
    if storedLength bytes ≤ bytes.length then some (decodeSlot (bytes.take (storedLength bytes)))
    else none

/-! ## The encoder's positions -/

/-- What has been packed of slots with consecutive ids: their bytes, and index
entries with the deltas and positions of some of them, the first among them. -/
structure Packed (base : UInt64) (slots : List Slot) (packed : PackedSegment) : Prop where
  baseEventID : packed.baseEventID = base
  bytes : packed.bytes = slotFormat.stream slots
  first : slots ≠ [] → ∃ entry ∈ packed.index, entry.eventIDDelta = 0
  entries : ∀ entry ∈ packed.index, ∃ j ≤ slots.length, entry.eventIDDelta = UInt64.ofNat j ∧
    entry.byteOffset = UInt64.ofNat (slotFormat.stream (slots.take j)).length

theorem Packed.step {base stride : UInt64} {slots : List Slot} {packed : PackedSegment} {slot : Slot}
    (h : Packed base slots packed) (hid : slot.header.eventID = base+UInt64.ofNat slots.length) :
    Packed base (slots++[slot]) (packSlot stride packed slot) := by
  have hdelta : slot.header.eventID-packed.baseEventID = UInt64.ofNat slots.length := by
    rw [hid, h.baseEventID, UInt64.add_comm, UInt64.add_sub_cancel]
  have hmem : ∀ entry ∈ packed.index, entry ∈ (packSlot stride packed slot).index := by
    intro entry hentry
    simp only [packSlot]
    split_ifs
    · exact mem_append_left _ hentry
    · exact hentry
  refine ⟨h.baseEventID,?_,fun _ => ?_,?_⟩
  · rw [slotFormat.stream_append, ← h.bytes]
    simp [packSlot, RecordStream.Format.stream, slotFormat]
  · by_cases hslots : slots = []
    · -- the first slot is a multiple of every stride away from itself
      subst hslots
      refine ⟨⟨0,UInt64.ofNat packed.bytes.length⟩,?_,rfl⟩
      have hzero : UInt64.ofNat 0 % stride = 0 := UInt64.zero_mod
      simp only [packSlot, hdelta, length_nil]
      rw [if_pos hzero]
      exact mem_append_right _ (mem_singleton.mpr rfl)
    · obtain ⟨entry,hentry,hzero⟩ := h.first hslots
      exact ⟨entry,hmem entry hentry,hzero⟩
  · intro entry hentry
    have hcases : entry ∈ packed.index ∨
        entry = ⟨UInt64.ofNat slots.length,UInt64.ofNat packed.bytes.length⟩ := by
      simp only [packSlot, hdelta] at hentry
      split_ifs at hentry
      · rwa [mem_append, mem_singleton] at hentry
      · exact .inl hentry
    obtain hold | rfl := hcases
    · obtain ⟨j,hj,hentry⟩ := h.entries entry hold
      refine ⟨j,?_,?_⟩
      · rw [length_append]
        omega
      · rw [take_append_of_le_length hj]
        exact hentry
    · refine ⟨slots.length,?_,rfl,?_⟩
      · rw [length_append]
        omega
      · rw [h.bytes, take_left]

theorem packed_foldl {base stride : UInt64} (done : List Slot) (packed : PackedSegment)
    (h : Packed base done packed)
    (hid : ∀ i slot, (done++slots)[i]? = some slot → slot.header.eventID = base+UInt64.ofNat i) :
    Packed base (done++slots) (slots.foldl (packSlot stride) packed) := by
  induction slots generalizing done packed with
  | nil => rwa [append_nil]
  | cons slot slots ih =>
    have hslot := hid done.length slot (by simp)
    have hsplit : done++slot::slots = (done++[slot])++slots := by simp
    rw [hsplit] at hid ⊢
    exact ih (done++[slot]) _ (h.step hslot) hid

theorem packed_packSlots (stride base : UInt64)
    (hid : ∀ i slot, slots[i]? = some slot → slot.header.eventID = base+UInt64.ofNat i) :
    slots ≠ [] → Packed base slots (packSlots slots stride) := by
  intro hne
  cases slots with
  | nil => exact absurd rfl hne
  | cons first rest =>
    have hbase : first.header.eventID = base := by
      rw [hid 0 first rfl]
      exact UInt64.add_zero base
    rw [packSlots, hbase]
    apply packed_foldl (first::rest) [] _ _ hid
    exact ⟨rfl,rfl,fun h => absurd rfl h,fun _ h => absurd h not_mem_nil⟩

theorem stream_length_le : (slotFormat.stream slots).length ≤ 512*slots.length := by
  induction slots with
  | nil => exact le_refl _
  | cons slot slots ih =>
    have hone : (slotFormat.encode slot).length ≤ 512 := by
      change (packedBytes slot).length ≤ 512
      rw [packedBytes, length_take, slotBytes_length]
      exact Nat.min_le_right _ _
    rw [slotFormat.stream_cons, length_append, length_cons]
    omega

section
variable {base : UInt64} {slots : List Slot} {packed : PackedSegment} {i : ℕ}

/-- The nearest entry is the one of a slot at the wanted position or before it. -/
theorem Packed.nearest (h : Packed base slots packed) (hfits : 512*slots.length < 2^64)
    (hi : i < slots.length) :
    ∃ entry j, packed.nearest (UInt64.ofNat i) = some entry ∧ j ≤ i ∧
      entry.eventIDDelta = UInt64.ofNat j ∧
      entry.byteOffset.toNat = (slotFormat.stream (slots.take j)).length := by
  have htoNat : ∀ k ≤ slots.length, (UInt64.ofNat k).toNat = k := fun k hk =>
    toNat_ofNat_of_lt' (show k < 2^64 by omega)
  have hne : slots ≠ [] := fun hnil => by simp [hnil] at hi
  cases hnearest : packed.nearest (UInt64.ofNat i) with
  | none =>
    obtain ⟨entry,hentry,hzero⟩ := h.first hne
    have hnil := argmax_eq_none.mp hnearest
    have hmem : entry ∈ packed.index.filter fun entry => entry.eventIDDelta ≤ UInt64.ofNat i := by
      rw [mem_filter, hzero]
      exact ⟨hentry,decide_eq_true (le_iff_toNat_le.mpr (Nat.zero_le _))⟩
    rw [hnil] at hmem
    exact absurd hmem not_mem_nil
  | some entry =>
    obtain ⟨hentry,hle⟩ := mem_filter.mp (argmax_mem hnearest)
    obtain ⟨j,hj,hdelta,hoffset⟩ := h.entries entry hentry
    refine ⟨entry,j,rfl,?_,hdelta,?_⟩
    · have hle := le_iff_toNat_le.mp (of_decide_eq_true hle)
      rwa [hdelta, htoNat j hj, htoNat i hi.le] at hle
    · have hstream := stream_length_le (slots.take j)
      have htake : (slots.take j).length ≤ slots.length := length_take_le' j slots
      rw [hoffset]
      exact toNat_ofNat_of_lt' (show _ < 2^64 by omega)

end

/-- Every slot of a packed list with consecutive ids is read back. The list is
one that a machine with 64-bit addresses can hold. -/
theorem packed_slots_lossless (slots : List Slot) (stride base : UInt64)
    (hfits : 512*slots.length < 2^64)
    (hid : ∀ i slot, slots[i]? = some slot → slot.header.eventID = base+UInt64.ofNat i)
    (hlength : ∀ slot ∈ slots, slot.header.payloadLength ≤ 448)
    (hzero : ∀ slot ∈ slots, ∀ k : Fin eventPayloadBytes,
      slot.header.payloadLength.toNat ≤ k.val → slot.payload[k] = 0) :
    ∀ slot ∈ slots, (packSlots slots stride).readSlot slot.header.eventID = some slot := by
  intro slot hslot
  obtain ⟨i,hget⟩ := mem_iff_getElem?.mp hslot
  obtain ⟨hi,hslot_eq⟩ := List.getElem?_eq_some_iff.mp hget
  have hp := packed_packSlots slots stride base hid (ne_nil_of_mem hslot)
  have hdelta : slot.header.eventID-base = UInt64.ofNat i := by
    rw [hid i slot hget, UInt64.add_comm, UInt64.add_sub_cancel]
  obtain ⟨entry,j,hnearest,hj,hentry,hoffset⟩ := hp.nearest hfits hi
  have hcount : (UInt64.ofNat i-UInt64.ofNat j).toNat = i-j := by
    have hi' : (UInt64.ofNat i).toNat = i := toNat_ofNat_of_lt' (show i < 2^64 by omega)
    have hj' : (UInt64.ofNat j).toNat = j := toNat_ofNat_of_lt' (show j < 2^64 by omega)
    rw [UInt64.toNat_sub_of_le _ _ (le_iff_toNat_le.mpr (by omega)), hi', hj']
  have hbytes : slotFormat.skip (i-j) ((packSlots slots stride).bytes.drop entry.byteOffset.toNat) =
      packedBytes slot++slotFormat.stream (slots.drop (i+1)) := by
    rw [hp.bytes, hoffset, slotFormat.skip_from hlength hi.le hj, drop_eq_getElem_cons hi,
      slotFormat.stream_cons, hslot_eq]
    rfl
  simp only [PackedSegment.readSlot, hp.baseEventID, hdelta, hnearest, Option.bind_some, hentry,
    hcount, hbytes, storedLength_packedBytes slot _ (hlength slot hslot)]
  rw [if_pos (by rw [length_append]; omega), take_left,
    decode_packedBytes (hlength slot hslot) (hzero slot hslot)]

def oneByteSlot (eventID : UInt64) (b : UInt8) : Slot :=
  ⟨⟨eventID,7,eventID,1001,1,1,0,1,0,0x1234,1,0,0⟩,(Vector.replicate eventPayloadBytes 0).set 0 b⟩

theorem oneByteSlot_zero (eventID : UInt64) (b : UInt8) (k : Fin eventPayloadBytes)
    (hk : (oneByteSlot eventID b).header.payloadLength.toNat ≤ k.val) :
    (oneByteSlot eventID b).payload[k] = 0 := by
  have hpos : (0 : ℕ) ≠ k.val := ne_of_lt hk
  simp [oneByteSlot, hpos]

theorem packed_slots_lossless_three :
    (packSlots [oneByteSlot 40 5,oneByteSlot 41 6,oneByteSlot 42 7] 2).readSlot 41 =
      some (oneByteSlot 41 6) := by
  refine packed_slots_lossless [oneByteSlot 40 5,oneByteSlot 41 6,oneByteSlot 42 7] 2 40 (by decide)
    ?_ ?_ ?_ (oneByteSlot 41 6) (by simp)
  · intro i slot hslot
    match i with
    | 0 | 1 | 2 =>
      obtain rfl := Option.some.inj hslot
      rfl
    | i+3 => cases hslot
  · intro slot hslot
    simp only [mem_cons, not_mem_nil, or_false] at hslot
    obtain rfl | rfl | rfl := hslot <;> decide
  · intro slot hslot
    simp only [mem_cons, not_mem_nil, or_false] at hslot
    obtain rfl | rfl | rfl := hslot <;> exact oneByteSlot_zero _ _

end Wrela.PackedSegments

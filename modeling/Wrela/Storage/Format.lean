import Wrela.IntervalList

/-!
# Event slots, recovery and the append writer

The on-disk event log is a sequence of 512-byte slots. Recovery scans the
slots once and accepts whole atomic groups; the writer hands out event ids.
Counters and ids are the 64-bit and 32-bit words of the reference code, so
every addition wraps as it does there.

The regions of a disk are sorted by offset and each one is compared with the end
of the one before it only; ends may wrap around.
-/

set_option autoImplicit false

namespace Wrela.StorageFormat

abbrev eventPayloadBytes : ℕ := 448
def storageTargetBatchSlots : UInt64 := 64
def storageMaxBatchSlots : UInt64 := 72
def storageMaxAtomicGroupSlots : UInt64 := 32
def storageSlotReservedEmpty : UInt32 := 1

def castagnoli : UInt32 := 0x82f63b78

def crcBit (crc : UInt32) : UInt32 :=
  if crc &&& 1 = 0 then crc >>> 1 else (crc >>> 1) ^^^ castagnoli

def crcByte (crc : UInt32) (b : UInt8) : UInt32 :=
  Nat.iterate crcBit 8 (crc ^^^ b.toUInt32)

def crc32c (data : List UInt8) : UInt32 :=
  data.foldl crcByte 0xffffffff ^^^ 0xffffffff

structure EventSlotHeader where
  eventID : UInt64
  streamID : UInt64
  streamSequence : UInt64
  eventTypeID : UInt32
  payloadLayoutID : UInt32
  atomicGroupLen : UInt32
  atomicGroupIndex : UInt32
  payloadLength : UInt32
  flags : UInt32
  checksum32 : UInt32
  headerVersion : UInt16
  reserved16 : UInt16
  reserved64 : UInt64
  deriving DecidableEq, Repr

structure Slot where
  header : EventSlotHeader
  payload : Vector UInt8 eventPayloadBytes
  deriving DecidableEq, Repr

def littleEndian : ℕ → ℕ → List UInt8
  | 0, _ => []
  | n+1, v => UInt8.ofNat v :: littleEndian n (v/256)

theorem littleEndian_length (n v : ℕ) : (littleEndian n v).length = n := by
  induction n generalizing v with
  | zero => rfl
  | succ n ih => rw [littleEndian, List.length_cons, ih]

variable (slot : Slot)

def slotBytes (checksum : UInt32) : List UInt8 :=
  littleEndian 8 slot.header.eventID.toNat ++
  littleEndian 8 slot.header.streamID.toNat ++
  littleEndian 8 slot.header.streamSequence.toNat ++
  littleEndian 4 slot.header.eventTypeID.toNat ++
  littleEndian 4 slot.header.payloadLayoutID.toNat ++
  littleEndian 4 slot.header.atomicGroupLen.toNat ++
  littleEndian 4 slot.header.atomicGroupIndex.toNat ++
  littleEndian 4 slot.header.payloadLength.toNat ++
  littleEndian 4 slot.header.flags.toNat ++
  littleEndian 4 checksum.toNat ++
  littleEndian 2 slot.header.headerVersion.toNat ++
  littleEndian 2 slot.header.reserved16.toNat ++
  littleEndian 8 slot.header.reserved64.toNat ++
  slot.payload.toList

theorem slotBytes_length (checksum : UInt32) : (slotBytes slot checksum).length = 512 := by
  simp [slotBytes, littleEndian_length, eventPayloadBytes]

theorem slotBytes_payload {k : ℕ} (checksum : UInt32) (hk : k < eventPayloadBytes) :
    (slotBytes slot checksum)[64+k]? = some slot.payload[k] := by
  rw [slotBytes, List.getElem?_append_right (by simp [littleEndian_length])]
  simp [littleEndian_length, hk]

def slotChecksum : UInt32 := crc32c (slotBytes slot 0)

def slotChecksumValid : Bool := slot.header.checksum32 == slotChecksum slot

def refreshSlotChecksum : Slot :=
  let cleared := { slot with header := { slot.header with checksum32 := 0 } }
  { cleared with header := { cleared.header with checksum32 := slotChecksum cleared } }

theorem refresh_valid : slotChecksumValid (refreshSlotChecksum slot) := by
  simp [slotChecksumValid, refreshSlotChecksum, slotChecksum, slotBytes]

def isReservedEmptySlot (header : EventSlotHeader) : Bool :=
  header.eventTypeID == 0 && header.payloadLayoutID == 0 &&
  header.streamID == 0 && header.streamSequence == 0 &&
  header.atomicGroupLen == 0 && header.atomicGroupIndex == 0 &&
  header.payloadLength == 0 && header.flags &&& storageSlotReservedEmpty != 0

inductive RecoveryStopReason where
  | cleanEOF
  | checksumMismatch
  | incompleteAtomicGroup
  | invalidEmptySlot
  deriving DecidableEq, Repr

structure RecoveryResult where
  visibleEvents : UInt64
  nextEventID : UInt64
  lastCommittedGroupEnd : UInt64
  stopReason : RecoveryStopReason
  deriving DecidableEq, Repr

def RecoveryResult.stop (r : RecoveryResult) (expected : UInt64) (why : RecoveryStopReason) :
    RecoveryResult :=
  { r with nextEventID := expected, stopReason := why }

/-- The scan over the members of one candidate group; `none` accepts it. -/
def groupFault (groupLen : UInt32) (expected : UInt64) :
    UInt32 → List Slot → Option RecoveryStopReason
  | _, [] => none
  | j, member::rest =>
    if member.header.eventID ≠ expected+j.toUInt64 ∨ slotChecksumValid member = false then
      some .checksumMismatch
    else if member.header.eventTypeID = 0 ∨ member.header.atomicGroupLen ≠ groupLen ∨
        member.header.atomicGroupIndex ≠ j then
      some .incompleteAtomicGroup
    else groupFault groupLen expected (j+1) rest

def recoverFrom (slots : List Slot) (expected : UInt64) (r : RecoveryResult) : RecoveryResult :=
  match slots with
  | [] => { r with stopReason := .cleanEOF }
  | slot::rest =>
    if slotChecksumValid slot = false then r.stop expected .checksumMismatch
    else if slot.header.eventTypeID = 0 then
      if isReservedEmptySlot slot.header = false then r.stop expected .invalidEmptySlot
      else if slot.header.eventID ≠ expected then r.stop expected .checksumMismatch
      else recoverFrom rest (expected+1) { r with nextEventID := expected+1 }
    else if slot.header.eventID ≠ expected then r.stop expected .checksumMismatch
    else
      let groupLen := slot.header.atomicGroupLen
      if hg : groupLen = 0 ∨ groupLen > storageMaxAtomicGroupSlots.toUInt32 ∨
          groupLen.toNat > (slot::rest).length then
        r.stop expected .incompleteAtomicGroup
      else
        match groupFault groupLen expected 0 ((slot::rest).take groupLen.toNat) with
        | some why => r.stop expected why
        | none =>
          have : 0 < groupLen.toNat := by
            rw [Nat.pos_iff_ne_zero]
            exact fun h => hg (.inl (UInt32.toNat_inj.mp h))
          recoverFrom ((slot::rest).drop groupLen.toNat) (expected+groupLen.toUInt64)
            { visibleEvents := r.visibleEvents+groupLen.toUInt64
              nextEventID := expected+groupLen.toUInt64
              lastCommittedGroupEnd := expected+groupLen.toUInt64-1
              stopReason := r.stopReason }
termination_by slots.length
decreasing_by
  · simp
  · have hp : 0 < slot.header.atomicGroupLen.toNat := this
    simp only [List.length_drop, List.length_cons]
    omega

def recoverSlots (slots : List Slot) : RecoveryResult :=
  recoverFrom slots 0 ⟨0,0,0,.cleanEOF⟩

structure WriterPolicy where
  nextEventID : UInt64
  nextStreamID : UInt64
  openBatchSlots : UInt64
  durableFrontier : UInt64
  deriving DecidableEq, Repr

structure EnqueueResult where
  accepted : Bool
  firstEventID : UInt64
  lastEventID : UInt64
  openBatchSlots : UInt64
  flushRequested : Bool
  rejectCode : String
  deriving DecidableEq, Repr

structure CommitToken where
  firstEventID : UInt64
  lastEventID : UInt64
  pendingWriteCount : UInt64
  completedWriteCount : UInt64
  batchSubmitted : Bool
  flushRequired : Bool
  flushCompleted : Bool
  durabilityFailed : Bool
  deriving DecidableEq, Repr

def CommitToken.acknowledged (t : CommitToken) : Bool :=
  if t.durabilityFailed then false
  else if t.completedWriteCount < t.pendingWriteCount then false
  else if t.flushRequired && !t.flushCompleted then false
  else true

def assignEventIDs (first count : UInt64) : UInt64 × UInt64 := (first, first+count-1)

def rejected (code : String) : EnqueueResult := ⟨false,0,0,0,false,code⟩

/-- The open batch after `consumedSlots` more slots, and whether a flush is asked for. -/
def batchAfter (openBatchSlots consumedSlots : UInt64) : UInt64 × Bool :=
  if openBatchSlots+consumedSlots < storageTargetBatchSlots then
    (openBatchSlots+consumedSlots, false)
  else if openBatchSlots+consumedSlots ≤ storageMaxBatchSlots then
    (openBatchSlots+consumedSlots, true)
  else (consumedSlots, true)

def WriterPolicy.enqueueAtomicGroupWithReserved (w : WriterPolicy)
    (semanticSlots reservedEmptySlots : UInt64) : WriterPolicy × EnqueueResult :=
  if semanticSlots = 0 ∨ semanticSlots > storageMaxAtomicGroupSlots then
    (w, rejected "SEM0114")
  -- the sum wraps, so a reserved count near 2^64 shows as a sum below the semantic count
  else if semanticSlots+reservedEmptySlots < semanticSlots ∨
      semanticSlots+reservedEmptySlots > storageMaxBatchSlots then
    (w, rejected "SEM0114")
  else
    let ids := assignEventIDs w.nextEventID semanticSlots
    let batch := batchAfter w.openBatchSlots (semanticSlots+reservedEmptySlots)
    ({ w with
        nextEventID := ids.1+(semanticSlots+reservedEmptySlots)
        openBatchSlots := batch.1 },
      ⟨true,ids.1,ids.2,batch.1,batch.2,""⟩)

variable (w : WriterPolicy) (s r : UInt64)

section
variable (h : (w.enqueueAtomicGroupWithReserved s r).2.accepted)
include h

theorem enqueue_accepted : 1 ≤ s.toNat ∧ s.toNat ≤ 32 ∧
    (w.enqueueAtomicGroupWithReserved s r).1.nextEventID = w.nextEventID+(s+r) ∧
    (s+r).toNat = s.toNat+r.toNat ∧
    (w.enqueueAtomicGroupWithReserved s r).2.firstEventID = w.nextEventID ∧
    (w.enqueueAtomicGroupWithReserved s r).2.lastEventID = w.nextEventID+s-1 := by
  by_cases h1 : s = 0 ∨ s > storageMaxAtomicGroupSlots
  · simp [WriterPolicy.enqueueAtomicGroupWithReserved, h1, rejected] at h
  by_cases h2 : s+r < s ∨ s+r > storageMaxBatchSlots
  · simp only [WriterPolicy.enqueueAtomicGroupWithReserved, if_neg h1, if_pos h2, rejected] at h
    exact absurd h (by decide)
  simp only [WriterPolicy.enqueueAtomicGroupWithReserved, if_neg h1, if_neg h2, assignEventIDs]
  simp only [not_or, gt_iff_lt, UInt64.lt_iff_toNat_lt] at h1 h2
  have hs : s.toNat ≠ 0 := fun h0 => h1.1 (UInt64.toNat_inj.mp h0)
  have h32 : storageMaxAtomicGroupSlots.toNat = 32 := rfl
  have hsum := UInt64.toNat_add s r
  have hsl := s.toNat_lt
  have hrl := r.toNat_lt
  exact ⟨by omega,by omega,trivial,by omega,trivial,trivial⟩

theorem enqueue_batch :
    (w.enqueueAtomicGroupWithReserved s r).1.openBatchSlots = (batchAfter w.openBatchSlots (s+r)).1 ∧
    (w.enqueueAtomicGroupWithReserved s r).2.flushRequested = (batchAfter w.openBatchSlots (s+r)).2 ∧
    s+r ≤ storageMaxBatchSlots := by
  unfold WriterPolicy.enqueueAtomicGroupWithReserved at h ⊢
  split_ifs at h ⊢ with hsemantic hconsumed
  · cases h
  · cases h
  · exact ⟨rfl,rfl,UInt64.not_lt.mp fun hgt => hconsumed (.inr hgt)⟩

end

theorem enqueue_rejected (h : (w.enqueueAtomicGroupWithReserved s r).2.accepted = false) :
    (w.enqueueAtomicGroupWithReserved s r).1 = w := by
  unfold WriterPolicy.enqueueAtomicGroupWithReserved at h ⊢
  split_ifs at h ⊢
  · rfl
  · rfl

theorem enqueue_frontier :
    (w.enqueueAtomicGroupWithReserved s r).1.durableFrontier = w.durableFrontier := by
  unfold WriterPolicy.enqueueAtomicGroupWithReserved
  split_ifs <;> rfl

def WriterPolicy.onDurabilityCompleted (w : WriterPolicy) (token : CommitToken) :
    WriterPolicy × EnqueueResult :=
  if token.acknowledged = false then
    (w, ⟨false,token.firstEventID,token.lastEventID,w.openBatchSlots,false,"SEM0116"⟩)
  else
    let frontier :=
      if w.durableFrontier < token.lastEventID then token.lastEventID else w.durableFrontier
    let openSlots := if token.batchSubmitted then 0 else w.openBatchSlots
    ({ w with durableFrontier := frontier, openBatchSlots := openSlots },
      ⟨true,token.firstEventID,token.lastEventID,openSlots,token.flushRequired,""⟩)

open IntervalList List

def storageDiskBytes : UInt64 := 4*1024*1024*1024

structure Region where
  name : String
  offset : UInt64
  size : UInt64
  deriving DecidableEq, Repr

inductive StorageError where
  | errRegionOverlap
  deriving DecidableEq, Repr

def validateOrdered (prevEnd : UInt64) : List Region → Except StorageError Unit
  | [] => .ok ()
  | region::rest =>
    if region.size = 0 ∨ region.offset < prevEnd then .error .errRegionOverlap
    else if region.offset+region.size < region.offset ∨
        region.offset+region.size > storageDiskBytes then .error .errRegionOverlap
    else validateOrdered (region.offset+region.size) rest

def validateRegions (regions : List Region) : Except StorageError Unit :=
  validateOrdered 0 (regions.mergeSort fun a b => a.offset ≤ b.offset)

variable (prevEnd : UInt64)

namespace Region

variable (r : Region)

def bytes : ℕ × ℕ := (r.offset.toNat,r.offset.toNat+r.size.toNat)

def NonEmpty : Prop := r.size ≠ 0

def OnDisk : Prop := r.offset.toNat+r.size.toNat ≤ storageDiskBytes.toNat

def Apart (r' : Region) : Prop := IntervalList.Apart r.bytes r'.bytes

theorem nonEmpty_iff : r.NonEmpty ↔ r.bytes.1 < r.bytes.2 := by
  have hzero : r.size = 0 ↔ r.size.toNat = 0 := UInt64.toNat_inj.symm
  simp only [NonEmpty, bytes, ne_eq, hzero]
  omega

theorem checked_iff :
    (¬ (r.size = 0 ∨ r.offset < prevEnd) ∧
      ¬ (r.offset+r.size < r.offset ∨ r.offset+r.size > storageDiskBytes)) ↔
    r.NonEmpty ∧ prevEnd.toNat ≤ r.offset.toNat ∧ r.OnDisk := by
  have hdisk : storageDiskBytes.toNat = 4294967296 := rfl
  have hoffset := r.offset.toNat_lt
  have hsize := r.size.toNat_lt
  have hsum := UInt64.toNat_add r.offset r.size
  simp only [NonEmpty, OnDisk, gt_iff_lt, UInt64.lt_iff_toNat_lt, hdisk, not_or, ne_eq]
  constructor
  · rintro ⟨⟨hne,hle⟩,hwrap,hend⟩
    exact ⟨hne,by omega,by omega⟩
  · rintro ⟨hne,hle,hend⟩
    exact ⟨⟨hne,by omega⟩,by omega,by omega⟩

theorem end_toNat {r : Region} (h : r.OnDisk) :
    (r.offset+r.size).toNat = r.offset.toNat+r.size.toNat := by
  have hdisk : storageDiskBytes.toNat = 4294967296 := rfl
  have hsum := UInt64.toNat_add r.offset r.size
  rw [OnDisk] at h
  omega

end Region

theorem validateOrdered_cons (r : Region) (rest : List Region) :
    validateOrdered prevEnd (r::rest) = .ok () ↔
      (r.NonEmpty ∧ prevEnd.toNat ≤ r.offset.toNat ∧ r.OnDisk) ∧
        validateOrdered (r.offset+r.size) rest = .ok () := by
  rw [← r.checked_iff prevEnd, validateOrdered]
  split_ifs with hsize hend
  · simp [hsize]
  · simp [hend]
  · simp [hsize, hend]

/-- The loop accepts when every region is on the disk, ends before the next ones
begin, and none begins before the given end. -/
theorem validateOrdered_iff (ordered : List Region) :
    validateOrdered prevEnd ordered = .ok () ↔
      (∀ r ∈ ordered, r.NonEmpty ∧ r.OnDisk) ∧ (∀ r ∈ ordered, prevEnd.toNat ≤ r.offset.toNat) ∧
        Spread (ordered.map Region.bytes) := by
  induction ordered generalizing prevEnd with
  | nil => simp [validateOrdered, Spread]
  | cons r rest ih =>
    rw [validateOrdered_cons, ih, map_cons, spread_cons, forall_mem_map,
      forall_mem_cons, forall_mem_cons]
    constructor
    · rintro ⟨⟨hne,hle,hdisk⟩,hall,hafter,hspread⟩
      rw [Region.end_toNat hdisk] at hafter
      refine ⟨⟨⟨hne,hdisk⟩,hall⟩,⟨hle,fun x hx => ?_⟩,hafter,hspread⟩
      have := hafter x hx
      omega
    · rintro ⟨⟨⟨hne,hdisk⟩,hall⟩,⟨hle,_⟩,hafter,hspread⟩
      refine ⟨⟨hne,hle,hdisk⟩,hall,?_,hspread⟩
      rw [Region.end_toNat hdisk]
      exact hafter

theorem validateOrdered_exact {regions ordered : List Region} (hperm : ordered.Perm regions)
    (hsorted : ordered.Pairwise fun a b => a.offset ≤ b.offset) :
    validateOrdered 0 ordered = .ok () ↔
      (∀ r ∈ regions, r.NonEmpty ∧ r.OnDisk) ∧ regions.Pairwise Region.Apart := by
  have hmem : (∀ r ∈ ordered, r.NonEmpty ∧ r.OnDisk) ↔ ∀ r ∈ regions, r.NonEmpty ∧ r.OnDisk := by
    simp [hperm.mem_iff]
  have hzero : ∀ r ∈ ordered, (0 : UInt64).toNat ≤ r.offset.toNat := fun r _ => Nat.zero_le _
  rw [validateOrdered_iff, hmem, and_iff_right hzero]
  refine and_congr_right fun hall => ?_
  have hproper : Proper (ordered.map Region.bytes) := by
    intro i hi
    obtain ⟨r,hr,rfl⟩ := mem_map.mp hi
    exact r.nonEmpty_iff.mp (hall r (hperm.mem_iff.mp hr)).1
  have hstarts : (ordered.map Region.bytes).Pairwise fun i j => i.1 ≤ j.1 :=
    pairwise_map.mpr (hsorted.imp fun h => h)
  rw [spread_iff_apart hproper hstarts, pairwise_map]
  exact hperm.pairwise_iff fun h => h.symm

theorem validateRegions_iff (regions : List Region) :
    validateRegions regions = .ok () ↔
      (∀ r ∈ regions, r.NonEmpty ∧ r.OnDisk) ∧ regions.Pairwise Region.Apart := by
  apply validateOrdered_exact (mergeSort_perm _ _)
  have htrans : ∀ a b c : Region, decide (a.offset ≤ b.offset) →
      decide (b.offset ≤ c.offset) → decide (a.offset ≤ c.offset) := by
    intro a b c hab hbc
    exact decide_eq_true (UInt64.le_trans (of_decide_eq_true hab) (of_decide_eq_true hbc))
  have htotal : ∀ a b : Region, (decide (a.offset ≤ b.offset) || decide (b.offset ≤ a.offset)) := by
    intro a b
    simpa using UInt64.le_total a.offset b.offset
  exact (pairwise_mergeSort htrans htotal regions).imp fun h => of_decide_eq_true h

end Wrela.StorageFormat

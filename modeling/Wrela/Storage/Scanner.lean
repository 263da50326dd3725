import Wrela.Storage.Format
import Wrela.Transition

/-!
# The storage code of the runtime

The recovery scanner and the append writer as the Wrela sources are compiled. The
scanner works on the bytes of the log: it reads header fields at offsets of a
bounded buffer and computes the checksum bit by bit. A read outside the buffer
ends in the boot panic, which does not return. Integer literals are 64-bit, so
the checksum is held in a 64-bit variable, and 64-bit words are compared as signed
numbers.
-/

set_option autoImplicit false

namespace Wrela.StorageRuntime
open StorageFormat (EventSlotHeader storageMaxAtomicGroupSlots storageTargetBatchSlots
  storageMaxBatchSlots CommitToken)

def below (a b : UInt64) : Bool := a.toBitVec.slt b.toBitVec

def littleEndianValue : List UInt8 → ℕ
  | [] => 0
  | b::bs => b.toNat+256*littleEndianValue bs

structure BoundedBytes where
  data : List UInt8
  length_lt : data.length < 2^64

variable (bytes : BoundedBytes) (slotIndex offset : UInt64)

namespace BoundedBytes

def length : UInt64 := UInt64.ofNat bytes.data.length

def requireRange (width : UInt64) : Option UInt64 :=
  if below bytes.length offset then none
  else if below (bytes.length-offset) width then none
  else some offset

/-- The reads differ in their width only. -/
def read (width : ℕ) (offset : UInt64) : Option ℕ :=
  (bytes.requireRange offset (UInt64.ofNat width)).map fun o =>
    littleEndianValue ((bytes.data.drop o.toNat).take width)

def readU8 : Option UInt8 :=
  (bytes.read 1 offset).map UInt8.ofNat

def readU16 : Option UInt16 :=
  (bytes.read 2 offset).map UInt16.ofNat

def readU32 : Option UInt32 :=
  (bytes.read 4 offset).map UInt32.ofNat

def readU64 : Option UInt64 :=
  (bytes.read 8 offset).map UInt64.ofNat

end BoundedBytes

def storageEventSlotSize : UInt64 := 512
def storageSlotReservedEmpty : UInt64 := 1

def stopCleanEof : UInt64 := 0
def stopChecksumMismatch : UInt64 := 1
def stopIncompleteAtomicGroup : UInt64 := 2
def stopInvalidEmptySlot : UInt64 := 3

structure RecoveryResult where
  visibleEvents : UInt64
  nextEventID : UInt64
  lastCommittedGroupEnd : UInt64
  stopReason : UInt64
  deriving DecidableEq, Repr

def u64ToU32 (value : UInt64) : UInt32 := (value &&& 0xFFFFFFFF).toUInt32

def headerAt : Option EventSlotHeader := do
  let slotOffset := slotIndex*storageEventSlotSize
  let eventID ← bytes.readU64 (slotOffset+0)
  let streamID ← bytes.readU64 (slotOffset+8)
  let streamSequence ← bytes.readU64 (slotOffset+16)
  let eventTypeID ← bytes.readU32 (slotOffset+24)
  let payloadLayoutID ← bytes.readU32 (slotOffset+28)
  let atomicGroupLen ← bytes.readU32 (slotOffset+32)
  let atomicGroupIndex ← bytes.readU32 (slotOffset+36)
  let payloadLength ← bytes.readU32 (slotOffset+40)
  let flags ← bytes.readU32 (slotOffset+44)
  let checksum32 ← bytes.readU32 (slotOffset+48)
  let headerVersion ← bytes.readU16 (slotOffset+52)
  let reserved16 ← bytes.readU16 (slotOffset+54)
  let reserved64 ← bytes.readU64 (slotOffset+56)
  return ⟨eventID,streamID,streamSequence,eventTypeID,payloadLayoutID,atomicGroupLen,
    atomicGroupIndex,payloadLength,flags,checksum32,headerVersion,reserved16,reserved64⟩

def isReservedEmptySlot (header : EventSlotHeader) : Bool :=
  if header.payloadLayoutID ≠ 0 then false
  else if header.streamID ≠ 0 then false
  else if header.streamSequence ≠ 0 then false
  else if header.atomicGroupLen ≠ 0 then false
  else if header.atomicGroupIndex ≠ 0 then false
  else if header.payloadLength ≠ 0 then false
  else header.flags &&& u64ToU32 storageSlotReservedEmpty != 0

def slotByteForChecksum (byteIndex : UInt64) : Option UInt8 :=
  if ¬ below byteIndex 48 ∧ below byteIndex 52 then some 0
  else bytes.readU8 (slotIndex*storageEventSlotSize+byteIndex)

def bitBody : UInt64 × UInt64 → Option (UInt64 × UInt64 ⊕ Empty)
  | (crc,bit) =>
    some (.inl (if crc &&& 1 ≠ 0 then (crc >>> 1) ^^^ 0x82F63B78 else crc >>> 1, bit+1))

def byteBody : UInt64 × UInt64 → Option (UInt64 × UInt64 ⊕ Empty)
  | (crc,byteIndex) =>
    (slotByteForChecksum bytes slotIndex byteIndex).bind fun b =>
    (WhileLoop.run (fun s => below s.2 8) bitBody 9 (crc ^^^ b.toUInt32.toUInt64, 0)).bind fun
      | .inl s => some (.inl (s.1, byteIndex+1))
      | .inr e => nomatch e

def slotChecksum : Option UInt32 :=
  (WhileLoop.run (fun s => below s.2 storageEventSlotSize) (byteBody bytes slotIndex) 513
      (0xFFFFFFFF, 0)).bind fun
    | .inl s => some (s.1 ^^^ 0xFFFFFFFF).toUInt32
    | .inr e => nomatch e

def slotChecksumValid : Option Bool :=
  (bytes.readU32 (slotIndex*storageEventSlotSize+48)).bind fun storedChecksum =>
  (slotChecksum bytes slotIndex).map fun checksum => storedChecksum == checksum

structure ScanState where
  slotIndex : UInt64
  expectedEventID : UInt64
  visibleEvents : UInt64
  lastCommittedGroupEnd : UInt64

def ScanState.stop (s : ScanState) (stopReason : UInt64) : RecoveryResult :=
  ⟨s.visibleEvents,s.expectedEventID,s.lastCommittedGroupEnd,stopReason⟩

def memberBody (s : ScanState) (groupLen : UInt32)
    (memberIndex : UInt64) : Option (UInt64 ⊕ RecoveryResult) :=
  (headerAt bytes (s.slotIndex+memberIndex)).bind fun member =>
  if member.eventID ≠ s.expectedEventID+memberIndex then
    some (.inr (s.stop stopChecksumMismatch))
  else (slotChecksumValid bytes (s.slotIndex+memberIndex)).bind fun valid =>
  if valid = false then some (.inr (s.stop stopChecksumMismatch))
  else if member.eventTypeID = 0 then some (.inr (s.stop stopIncompleteAtomicGroup))
  else if member.atomicGroupLen ≠ groupLen then
    some (.inr (s.stop stopIncompleteAtomicGroup))
  else if member.atomicGroupIndex ≠ u64ToU32 memberIndex then
    some (.inr (s.stop stopIncompleteAtomicGroup))
  else some (.inl (memberIndex+1))

/-- The test for a reserved slot has the labels of the test of the type around it: the
jump past its return leads into the other branch of the outer test. -/
def scanBody (slotCount : UInt64) (s : ScanState) : Option (ScanState ⊕ RecoveryResult) :=
  (headerAt bytes s.slotIndex).bind fun header =>
  (slotChecksumValid bytes s.slotIndex).bind fun valid =>
  if valid = false then some (.inr (s.stop stopChecksumMismatch))
  else if header.eventTypeID = 0 ∧ isReservedEmptySlot header = false then
    some (.inr (s.stop stopInvalidEmptySlot))
  else if header.eventID ≠ s.expectedEventID then
    some (.inr (s.stop stopChecksumMismatch))
  else
    let groupLen := header.atomicGroupLen
    let groupLenU64 := groupLen.toUInt64
    if groupLen = 0 then some (.inr (s.stop stopIncompleteAtomicGroup))
    else if below storageMaxAtomicGroupSlots groupLenU64 then
      some (.inr (s.stop stopIncompleteAtomicGroup))
    else if below slotCount (s.slotIndex+groupLenU64) then
      some (.inr (s.stop stopIncompleteAtomicGroup))
    else (WhileLoop.run (fun memberIndex => below memberIndex groupLenU64)
        (memberBody bytes s groupLen) (groupLen.toNat+1) 0).bind fun
      | .inr result => some (.inr result)
      | .inl _ => some (.inl
          { visibleEvents := s.visibleEvents+groupLenU64
            expectedEventID := s.expectedEventID+groupLenU64
            lastCommittedGroupEnd := s.expectedEventID+groupLenU64-1
            slotIndex := s.slotIndex+groupLenU64 })

def recoverSlots (slotCount : UInt64) : Option RecoveryResult :=
  (WhileLoop.run (fun s => below s.slotIndex slotCount) (scanBody bytes slotCount)
      (slotCount.toNat+1) ⟨0,0,0,0⟩).map fun
    | .inl s => s.stop stopCleanEof
    | .inr result => result

def acknowledged (token : CommitToken) : Bool :=
  if token.durabilityFailed then false
  else if below token.completedWriteCount token.pendingWriteCount then false
  else if token.flushRequired then
    if token.flushCompleted = false then false else true
  else true

structure PendingAtomicGroup where
  semanticEventCount : UInt64
  reservedEmptySlotCount : UInt64
  deriving DecidableEq, Repr

structure StorageAppendResult where
  accepted : Bool
  firstEventID : UInt64
  lastEventID : UInt64
  openBatchSlots : UInt64
  flushRequested : Bool
  rejectCode : UInt64
  deriving DecidableEq, Repr

structure StorageWriter where
  nextEventID : UInt64
  nextStreamID : UInt64
  durableFrontier : UInt64
  openBatchSlots : UInt64
  deriving DecidableEq, Repr

namespace StorageWriter

variable (self : StorageWriter)

def rejected : StorageAppendResult :=
  ⟨false,0,0,self.openBatchSlots,false,1114⟩

def enqueueAtomicGroup (group : PendingAtomicGroup) : StorageWriter × StorageAppendResult :=
  if group.semanticEventCount = 0 then (self, self.rejected)
  else if below storageMaxAtomicGroupSlots group.semanticEventCount then (self, self.rejected)
  else
    let consumedSlots := group.semanticEventCount+group.reservedEmptySlotCount
    if below consumedSlots group.semanticEventCount then (self, self.rejected)
    else if below storageMaxBatchSlots consumedSlots then (self, self.rejected)
    else
      let first := self.nextEventID
      let last := self.nextEventID+group.semanticEventCount-1
      let combined := self.openBatchSlots+consumedSlots
      let batch :=
        if below combined storageTargetBatchSlots then (combined, false)
        else if ¬ below storageMaxBatchSlots combined then (combined, true)
        else (consumedSlots, true)
      ({ self with
          nextEventID := first+consumedSlots
          openBatchSlots := batch.1 },
        ⟨true,first,last,batch.1,batch.2,0⟩)

def onDurabilityCompleted (token : CommitToken) : StorageWriter × StorageAppendResult :=
  if acknowledged token = false then
    (self, ⟨false,token.firstEventID,token.lastEventID,self.openBatchSlots,false,1116⟩)
  else
    let frontier :=
      if below self.durableFrontier token.lastEventID then token.lastEventID else self.durableFrontier
    let openSlots := if token.batchSubmitted then 0 else self.openBatchSlots
    ({ self with durableFrontier := frontier, openBatchSlots := openSlots },
      ⟨true,token.firstEventID,token.lastEventID,openSlots,token.flushRequired,0⟩)

end StorageWriter

end Wrela.StorageRuntime

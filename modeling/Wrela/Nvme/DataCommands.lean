import Mathlib.Data.Nat.Bitwise

/-!
# Data commands

Building the read, write and zone-append commands. The block count has to fit
the 16-bit field of dword 12; the only guard is the limit on the transferred
bytes, divided by the block size the caller gives.
-/

set_option autoImplicit false

namespace Wrela.NvmeCommand
open Nat

inductive Opcode where
  | write | read | zoneAppend
  deriving DecidableEq, Repr

def Opcode.code : Opcode → UInt64
  | .write => 0x01
  | .read => 0x02
  | .zoneAppend => 0x7D

inductive CommandError where
  | transferTooLarge
  | invalidBlockCount
  deriving DecidableEq, Repr

def maxPRPTransferBytes : UInt64 := 131072

structure Command where
  opcode : UInt64
  namespaceID : UInt32
  startLBA : UInt64
  blockCountMinusOne : UInt32
  prp1 : UInt64
  cdw10 : UInt32
  cdw11 : UInt32
  cdw12 : UInt32
  deriving DecidableEq, Repr

variable (blockCount : UInt32)

def writeCommandDword12 (fua : Bool) : UInt32 :=
  if fua then (blockCount-1) ||| ((1 : UInt32)<<<(30 : UInt32)) else blockCount-1

/-- A division by zero ends the program: there is no result then. -/
def buildDataCommand (opcode : Opcode) (namespaceID : UInt32) (startLBA : UInt64)
    (blockCount : UInt32) (prp1 logicalBlockSize : UInt64) (fua : Bool) :
    Option (Except CommandError Command) :=
  if blockCount = 0 then some (.error .invalidBlockCount)
  else if logicalBlockSize = 0 then none
  else if blockCount.toUInt64 > maxPRPTransferBytes/logicalBlockSize then
    some (.error .transferTooLarge)
  else some (.ok ⟨opcode.code,namespaceID,startLBA,blockCount-1,prp1,startLBA.toUInt32,
    (startLBA>>>32).toUInt32,writeCommandDword12 blockCount fua⟩)

section
variable (namespaceID : UInt32) (startLBA : UInt64) (blockCount : UInt32)
  (prp1 logicalBlockSize : UInt64) (fua : Bool)

def buildReadCommand : Option (Except CommandError Command) :=
  buildDataCommand .read namespaceID startLBA blockCount prp1 logicalBlockSize false

def buildWriteCommand : Option (Except CommandError Command) :=
  buildDataCommand .write namespaceID startLBA blockCount prp1 logicalBlockSize fua

def buildZoneAppendCommand : Option (Except CommandError Command) :=
  buildDataCommand .zoneAppend namespaceID startLBA blockCount prp1 logicalBlockSize fua

end

/-! ## The layout of a command -/

structure Request where
  opcode : Opcode
  namespaceID : UInt32
  startLBA : UInt64
  blockCount : UInt32
  prp1 : UInt64
  logicalBlockSize : UInt64
  fua : Bool

structure Request.EncodedBy (q : Request) (c : Command) : Prop where
  opcode : c.opcode = q.opcode.code
  namespaceID : c.namespaceID = q.namespaceID
  prp1 : c.prp1 = q.prp1
  lba : c.cdw10.toNat+c.cdw11.toNat*2^32 = q.startLBA.toNat
  count : c.cdw12.toNat%2^16+1 = q.blockCount.toNat
  fua : c.cdw12.toNat.testBit 30 = q.fua
  clear : ∀ i, 16 ≤ i → i ≠ 30 → c.cdw12.toNat.testBit i = false
  transfer : q.blockCount.toNat*q.logicalBlockSize.toNat ≤ maxPRPTransferBytes.toNat

def Request.Served (q : Request) : Option (Except CommandError Command) → Prop
  | none => False
  | some (.error _) => True
  | some (.ok c) => q.EncodedBy c

def Request.build (q : Request) : Option (Except CommandError Command) :=
  buildDataCommand q.opcode q.namespaceID q.startLBA q.blockCount q.prp1 q.logicalBlockSize q.fua

/-- The block size is not zero, and with blocks of one byte the count is one that
fits its field or is refused. -/
def Fits (logicalBlockSize : UInt64) : Prop :=
  blockCount = 0 ∨ logicalBlockSize ≠ 0 ∧
    (logicalBlockSize = 1 → blockCount ≤ 65536 ∨ 131072 < blockCount)

theorem lba_split (startLBA : UInt64) :
    startLBA.toUInt32.toNat+(startLBA>>>32).toUInt32.toNat*2^32 = startLBA.toNat := by
  have := startLBA.toNat_lt
  rw [UInt64.toNat_toUInt32, UInt64.toNat_toUInt32, UInt64.toNat_shiftRight,
    show (32 : UInt64).toNat%64 = 32 from rfl, shiftRight_eq_div_pow]
  omega

theorem dword12_testBit {blockCount : UInt32} {fua : Bool} (i : ℕ) :
    (writeCommandDword12 blockCount fua).toNat.testBit i =
      ((blockCount-1).toNat.testBit i || (fua && decide (i = 30))) := by
  cases fua with
  | false => simp [writeCommandDword12]
  | true =>
    have h : ((1 : UInt32)<<<(30 : UInt32)).toNat = 2^30 := by decide
    rw [writeCommandDword12, if_pos rfl, UInt32.toNat_or, testBit_or, h, testBit_two_pow]
    simp [eq_comm]

theorem dword12_mod (fua : Bool) :
    (writeCommandDword12 blockCount fua).toNat%2^16 = (blockCount-1).toNat%2^16 := by
  apply eq_of_testBit_eq
  intro i
  rw [testBit_mod_two_pow, testBit_mod_two_pow, dword12_testBit]
  by_cases hi : i < 16
  · simp [show i ≠ 30 by omega]
  · simp [hi]

theorem toNat_pred {blockCount : UInt32} (h : blockCount ≠ 0) :
    (blockCount-1).toNat = blockCount.toNat-1 := by
  have hpos : blockCount.toNat ≠ 0 := fun h0 => h (UInt32.toNat_inj.mp h0)
  have := blockCount.toNat_lt
  rw [UInt32.toNat_sub, UInt32.toNat_one]
  omega

/-- A command that is built encodes the request exactly if the count fits its field. -/
theorem encodedBy_iff {q : Request} (hcount : q.blockCount ≠ 0)
    (hlimit : q.blockCount.toNat*q.logicalBlockSize.toNat ≤ 131072) :
    q.EncodedBy ⟨q.opcode.code,q.namespaceID,q.startLBA,q.blockCount-1,q.prp1,
      q.startLBA.toUInt32,(q.startLBA>>>32).toUInt32,writeCommandDword12 q.blockCount q.fua⟩ ↔
    q.blockCount.toNat ≤ 65536 := by
  have hpred := toNat_pred hcount
  constructor
  · intro h
    have hc := h.count
    have := mod_lt (writeCommandDword12 q.blockCount q.fua).toNat (show 0 < 2^16 by decide)
    omega
  · intro hle
    have hpos : q.blockCount.toNat ≠ 0 := fun h => hcount (UInt32.toNat_inj.mp h)
    have hsmall : (q.blockCount-1).toNat < 2^16 := by omega
    have hhigh : ∀ i, 16 ≤ i → (q.blockCount-1).toNat.testBit i = false := fun i hi =>
      testBit_lt_two_pow (hsmall.trans_le (Nat.pow_le_pow_right (by decide) hi))
    refine ⟨rfl,rfl,rfl,lba_split _,?_,?_,?_,hlimit⟩
    · simp only [dword12_mod, hpred]
      omega
    · simp [dword12_testBit, hhigh 30 (by decide)]
    · intro i hi hne
      simp [dword12_testBit, hhigh i hi, hne]

theorem served_iff (q : Request) : q.Served q.build ↔ Fits q.blockCount q.logicalBlockSize := by
  rw [Request.build, buildDataCommand, Fits]
  by_cases hcount : q.blockCount = 0
  · simp [hcount, Request.Served]
  by_cases hsize : q.logicalBlockSize = 0
  · simp [hcount, hsize, Request.Served]
  have hpos : 0 < q.logicalBlockSize.toNat :=
    Nat.pos_of_ne_zero fun h => hsize (UInt64.toNat_inj.mp h)
  have hguard : q.blockCount.toUInt64 > maxPRPTransferBytes/q.logicalBlockSize ↔
      131072 < q.blockCount.toNat*q.logicalBlockSize.toNat := by
    rw [gt_iff_lt, UInt64.lt_iff_toNat_lt, UInt64.toNat_div, UInt32.toNat_toUInt64,
      show maxPRPTransferBytes.toNat = 131072 from rfl, Nat.div_lt_iff_lt_mul hpos]
  rw [if_neg hcount, if_neg hsize]
  simp only [hguard, hcount, false_or, ne_eq, hsize, not_false_eq_true, true_and, UInt32.le_iff_toNat_le,
    UInt32.lt_iff_toNat_lt, ← UInt64.toNat_inj, UInt64.toNat_one, UInt32.reduceToNat]
  split_ifs with hlarge
  · refine iff_of_true trivial fun hone => .inr ?_
    rwa [hone, mul_one] at hlarge
  · rw [not_lt] at hlarge
    refine (encodedBy_iff hcount hlarge).trans ⟨fun h _ => .inl h,fun h => ?_⟩
    by_cases hone : q.logicalBlockSize.toNat = 1
    · rw [hone, mul_one] at hlarge
      have := h hone
      omega
    · -- with blocks of two bytes or more the limit on the transfer is enough
      have : q.blockCount.toNat*2 ≤ q.blockCount.toNat*q.logicalBlockSize.toNat :=
        Nat.mul_le_mul_left _ (by omega)
      omega

/-- Every build of a data command serves its request exactly if the block size is
not zero and a count of one-byte blocks fits. -/
theorem data_commands_served_iff (namespaceID : UInt32) (startLBA : UInt64) (blockCount : UInt32)
    (prp1 logicalBlockSize : UInt64) (fua : Bool) :
    (Request.Served ⟨.read,namespaceID,startLBA,blockCount,prp1,logicalBlockSize,false⟩
        (buildReadCommand namespaceID startLBA blockCount prp1 logicalBlockSize) ∧
      Request.Served ⟨.write,namespaceID,startLBA,blockCount,prp1,logicalBlockSize,fua⟩
        (buildWriteCommand namespaceID startLBA blockCount prp1 logicalBlockSize fua) ∧
      Request.Served ⟨.zoneAppend,namespaceID,startLBA,blockCount,prp1,logicalBlockSize,fua⟩
        (buildZoneAppendCommand namespaceID startLBA blockCount prp1 logicalBlockSize fua)) ↔
    Fits blockCount logicalBlockSize := by
  have hread := served_iff ⟨.read,namespaceID,startLBA,blockCount,prp1,logicalBlockSize,false⟩
  have hwrite := served_iff ⟨.write,namespaceID,startLBA,blockCount,prp1,logicalBlockSize,fua⟩
  have happend := served_iff
    ⟨.zoneAppend,namespaceID,startLBA,blockCount,prp1,logicalBlockSize,fua⟩
  exact ⟨fun h => hread.mp h.1,fun h => ⟨hread.mpr h,hwrite.mpr h,happend.mpr h⟩⟩

/-- A block size of zero ends the program; 65537 blocks of one byte are encoded as
one block, with a reserved bit set. -/
theorem data_commands_misencoded :
    buildReadCommand 1 0 1 0 0 = none ∧
    ∃ c, buildWriteCommand 1 0 65537 0 1 true = some (.ok c) ∧
      c.cdw12.toNat%2^16+1 = 1 ∧ c.cdw12.toNat.testBit 16 :=
  ⟨rfl,_,rfl,by decide,by decide⟩

end Wrela.NvmeCommand

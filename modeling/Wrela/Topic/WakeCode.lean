import Wrela.Codegen.Emit
import Wrela.Topic.Data

/-!
# The code of a publish

What the emitter produces for a publish on a topic: the slot is located and
filled, the new sequence number is announced, and then the waitlines of the
subscribers are looked at one after the other. An armed one is touched and the
vCPU of its slot is sent an interrupt. Data addresses are given by what their
relocations resolve to.
-/

set_option autoImplicit false

namespace Wrela.WakeCode
open X86 TopicData Codegen State

inductive ApicMode where
  | xapic
  | x2apicRequired
  | x2apicPreferred
  | x2apicWithXapicFallback
  deriving DecidableEq, Repr

def usesX2APIC : ApicMode → Bool
  | .x2apicRequired | .x2apicPreferred => true
  | _ => false

def usesRuntimeX2APICFallback (mode : ApicMode) : Bool := mode = .x2apicWithXapicFallback

/-- The part of the compile context that the code depends on, with the addresses
of the data symbols. -/
structure CompileContext where
  apicMode : ApicMode
  slotVcpu : List (String × ℕ)
  topicData : Word
  localApicBase : Word
  vcpuAPICIDCommand : ℕ → Word
  monitorMwaitWaitline : String → Word

variable (ctx : CompileContext) (slot : String)

def CompileContext.vcpuOf : Option ℕ :=
  (ctx.slotVcpu.find? fun p => p.1 = slot).map Prod.snd

def wakeVector : Word := 0x40F0

def emitMovDataAddressToRax (address : Word) : List Instr := [.movImm .rax address]

def emitMfence : List Instr := [.mfence]

/-! ## Sending an interrupt -/

def emitJumpIfX2APICInactive (inactive active : Routine) : Routine :=
  .seq (.block [.movImm .rcx apicBaseMsr]) (.seq .rdmsr (.seq (.testEax 0x400)
    (.branch 0x84 inactive active)))

def emitX2APICWriteMSR (msr : Word) (valueReg : Reg) : Routine :=
  .seq (.block ([.movImm .rcx msr]++emitRegRegMove .rax valueReg++emitRegRegMove .rdx valueReg++
    emitShiftImm 5 .rdx 32)) .wrmsr

def emitSendX2APICIcr (destAPICID : Reg) (low : Word) : Routine :=
  .seq (.block (emitRegRegMove .r10 destAPICID++emitShiftImm 4 .r10 32++emitMovImmToReg .rax low++
    emitRegRegOp 0x09 .rax .r10)) (emitX2APICWriteMSR x2apicIcrMsr .rax)

def emitLapicWriteWithBaseReg (base : Reg) (offset : BitVec 32) (value : Word) : Routine :=
  .seq (.block (emitMovImmToReg .rax value)) (.lapicWrite base offset .rax)

/-- The command register is read until it shows the interrupt as delivered; the
pause in the loop changes nothing. -/
def emitWaitForIcrDelivery (base : Reg) : Routine :=
  .loopUntil (.seq (.lapicRead .rax base 0x300)
    (.block (emitMovImmToReg .r10 0x1000++emitRegRegOp 0x21 .rax .r10++emitCmpRegImm .rax 0))) 0x84

def emitSendIcr (base destShifted : Reg) (low : Word) : Routine :=
  .seq (.block (emitRegRegMove .rax destShifted)) (.seq (.lapicWrite base 0x310 .rax)
    (.seq (emitLapicWriteWithBaseReg base 0x300 low) (emitWaitForIcrDelivery base)))

def emitSendIcrForMode (base destCommand : Reg) (low : Word) (mode : ApicMode) : Routine :=
  if usesX2APIC mode then emitSendX2APICIcr destCommand low
  else if usesRuntimeX2APICFallback mode then
    .seq (.block (emitRegRegMove .r10 destCommand))
      (emitJumpIfX2APICInactive
        (.seq (.block (emitShiftImm 4 .r10 24)) (emitSendIcr base .r10 low))
        (emitSendX2APICIcr .r10 low))
  else emitSendIcr base destCommand low

/-! ## Waking the subscribers -/

def emitTouchMonitorMwaitWaitline : List Instr :=
  if slot = "" then []
  else emitMovDataAddressToRax (ctx.monitorMwaitWaitline slot)++emitLoadMemToReg .r11 .rax 0 64++
    emitAddImm .r11 1++emitStoreMemFromReg .rax 0 .r11 64++emitMfence

def emitLoadLocalApicBase (dst : Reg) : List Instr :=
  emitMovDataAddressToRax ctx.localApicBase++emitLoadMemToReg dst .rax 0 64

def wakeVcpu (vcpuID : ℕ) : Routine :=
  .seq (.block (emitTouchMonitorMwaitWaitline ctx slot++emitLoadLocalApicBase ctx .r11++
    emitMovDataAddressToRax (ctx.vcpuAPICIDCommand vcpuID)++emitLoadMemToReg .rax .rax 0 64))
    (emitSendIcrForMode .r11 .rax wakeVector ctx.apicMode)

def emitWakeSlot : Except Diagnostic Routine :=
  match ctx.vcpuOf slot with
  | none =>
    if ctx.slotVcpu.length ≠ 0 then
      .error ⟨.CG0001,"missing vCPU placement for slot: "++slot⟩
    else .ok (.block [])
  | some vcpuID => .ok (wakeVcpu ctx slot vcpuID)

variable (layout : TopicDataLayout)

def topicSubscriberLayoutByLabel (label : String) : Option TopicDataSubscriberLayout :=
  layout.subscribers.find? fun subscriber => subscriber.label = label

/-- One turn of the loop over the subscribers; both jumps go behind the wake. -/
def touchWaitline (base seq : Reg) (waitlineOffset : ℤ) (wake : Routine) : Routine :=
  .seq (.block (emitLoadMemToReg .r11 base waitlineOffset 64++emitMovImmToReg .rdi (-1)++
      emitCmpRegReg .r11 .rdi))
    (.branch 0x84 (.block [])
      (.seq (.block (emitCmpRegReg seq .r11))
        (.branch 0x84 (.block [])
          (.seq (.block (emitStoreMemFromReg base waitlineOffset seq 64)) wake))))

def emitTouchSubscriberWaitlinesAndWakeSkippingVcpu (layout : TopicDataLayout) (base seq : Reg)
    (ctx : CompileContext) (skipVcpuID : Option ℕ) : List String → Except Diagnostic Routine
  | [] => .ok (.block [])
  | label::subscribers =>
    match topicSubscriberLayoutByLabel layout label with
    | none => .error ⟨.CG0001,"missing topic subscriber layout: "++label⟩
    | some subscriber => do
      let wake ← if (ctx.vcpuOf label).isSome ∧ ctx.vcpuOf label = skipVcpuID then .ok (.block [])
        else emitWakeSlot ctx label
      let rest ← emitTouchSubscriberWaitlinesAndWakeSkippingVcpu layout base seq ctx skipVcpuID
        subscribers
      return .seq (touchWaitline base seq subscriber.waitlineOffset.toNat wake) rest

/-! ## Publishing -/

def emitScaleTopicSlot (slot scratch : Reg) (layout : TopicDataLayout) : List Instr :=
  emitMovImmToReg scratch (BitVec.ofNat 64 layout.slotSize.toNat)++emitRegRegIMul slot scratch

/-- The ring slot of the next sequence number in r11, that number in r10 and in
the slot. -/
def locateSlot (base : Reg) : List Instr :=
  emitLoadMemToReg .r10 base layout.headOffset.toNat 64++emitRegRegMove .r11 .r10++
  emitMovImmToReg .rdx (BitVec.ofNat 64 (layout.depth-1).toNat)++emitRegRegOp 0x21 .r11 .rdx++
  emitScaleTopicSlot .r11 .rdx layout++emitAddImm .r11 layout.slotsOffset.toNat++
  emitRegRegOp 0x01 .r11 base++emitAddImm .r10 1++emitStoreMemFromReg .r11 0 .r10 64

def emitTopicPublish (frame : Frame) (value : Value)
    (ctx : CompileContext) : Except Diagnostic Routine := do
  let payload ← emitCopyValueToMemoryRange frame value .r11 8 value.type.storageSize
  let wake ← emitTouchSubscriberWaitlinesAndWakeSkippingVcpu layout .rax .r10 ctx none
    (layout.subscribers.map TopicDataSubscriberLayout.label)
  return .seq (.block (emitMovDataAddressToRax ctx.topicData++locateSlot layout .rax++payload++
      emitMovDataAddressToRax ctx.topicData++emitMfence++
      emitStoreMemFromReg .rax layout.headOffset.toNat .r10 64)) wake

/-! ### What waking a vCPU does -/

open List Nat

variable (mode : ApicMode) (apic : LocalApic)

/-- The command goes through the MSR rather than through the mapped registers. -/
def sendsThroughMsr : Bool :=
  usesX2APIC mode || (usesRuntimeX2APICFallback mode && apic.baseMsr.getLsbD 10)

variable (id : Word)

def apicIdCommand : Word :=
  if usesX2APIC mode || usesRuntimeX2APICFallback mode then id else id <<< 24

def IdFits : Prop :=
  if sendsThroughMsr mode apic then id.toNat < 2^32 else id.toNat < 2^8

def leftInRax : Word :=
  if sendsThroughMsr mode apic then wakeVector ||| id <<< 32 else 0

def leftInR10 : Word :=
  if sendsThroughMsr mode apic then id <<< 32 else 0x1000

/-- The interrupt was sent to the APIC `id`; no memory but the registers of the
local APIC has changed. -/
structure Sent (apic : LocalApic) (m m' : Machine) (id rax r10 : Word) : Prop where
  reg : ∀ r ∉ [Reg.rax,.rcx,.rdx,.r10,.r11], m'.cpu.reg r = m.cpu.reg r
  rax : m'.cpu.reg .rax = rax
  r10 : m'.cpu.reg .r10 = r10
  mem : ∀ x, ¬ InRange x apic.base 0x1000 → m'.cpu.mem x = m.cpu.mem x
  sent : m'.sent = ⟨id,wakeVector⟩::m.sent

section
variable (id : Word)

theorem wakeVector_or_toNat (h : id.toNat < 2^32) :
    (wakeVector ||| id <<< 32).toNat = 2^32*id.toNat+0x40F0 := by
  rw [BitVec.toNat_or, BitVec.toNat_shiftLeft, shiftLeft_eq, mod_eq_of_lt (by omega),
    mul_comm, Nat.or_comm]
  exact (two_pow_add_eq_or_of_lt (by decide) _).symm

theorem command_destination (h : id.toNat < 2^32) :
    lowBytes 4 ((wakeVector ||| id <<< 32) >>> 32) = id := by
  apply BitVec.eq_of_toNat_eq
  rw [toNat_lowBytes 4 (by decide), BitVec.toNat_ushiftRight, wakeVector_or_toNat id h,
    shiftRight_eq_div_pow]
  omega

theorem command_low (h : id.toNat < 2^32) : lowBytes 4 (wakeVector ||| id <<< 32) = wakeVector := by
  apply BitVec.eq_of_toNat_eq
  rw [toNat_lowBytes 4 (by decide), wakeVector_or_toNat id h]
  change (2^32*id.toNat+0x40F0) % 2^32 = 0x40F0
  omega

theorem destination_shifted (h : id.toNat < 2^8) : lowBytes 4 (id <<< 24) >>> 24 = id := by
  apply BitVec.eq_of_toNat_eq
  rw [BitVec.toNat_ushiftRight, toNat_lowBytes 4 (by decide), BitVec.toNat_shiftLeft,
    shiftLeft_eq, shiftRight_eq_div_pow]
  omega

theorem status_and (v status : Word) (busy : Bool) :
    ((v &&& ~~~status) ||| (if busy then status else 0)) &&& status =
      if busy then status else 0 := by
  ext i hi
  cases busy <;> simp
  tauto

theorem testFlags_x2apic (w : Word) :
    holds 0x84 (testFlags (lowBytes 4 w &&& (0x400 : BitVec 32).setWidth 64)) = !w.getLsbD 10 := by
  have hzero : (lowBytes 4 w &&& (0x400 : BitVec 32).setWidth 64 = 0) ↔ w.getLsbD 10 = false := by
    have hmask : (0x400 : BitVec 32).setWidth 64 = BitVec.twoPow 64 10 := by decide
    rw [hmask, BitVec.and_twoPow]
    split_ifs with hbit
    · refine iff_of_false (by decide) ?_
      rw [lowBytes, BitVec.getLsbD_setWidth, BitVec.getLsbD_setWidth] at hbit
      simpa using hbit
    · refine iff_of_true rfl ?_
      rw [lowBytes, BitVec.getLsbD_setWidth, BitVec.getLsbD_setWidth] at hbit
      simpa using hbit
  have hzf : ∀ f : Flags, holds 0x84 f = f.zf := fun _ => rfl
  rw [hzf]
  simp only [testFlags, hzero]
  cases w.getLsbD 10 <;> rfl

end

section
variable (s : State)

theorem run_commandWord (dest : Reg) (low : Word) :
    ∃ t, run s (emitRegRegMove .r10 dest++emitShiftImm 4 .r10 32++emitMovImmToReg .rax low++
        emitRegRegOp 0x09 .rax .r10) = some t ∧ Changes s t [.rax,.r10] ∧
      t.reg .rax = low ||| s.reg dest <<< 32 ∧ t.reg .r10 = s.reg dest <<< 32 := by
  refine ⟨_,rfl,⟨rfl,fun r hr => ?_⟩,?_,?_⟩
  · simp only [mem_cons, not_mem_nil, or_false, not_or] at hr
    simp [hr.1, hr.2]
  · simp [writeLow_eight, shiftResult, lowBytes_eight]
  · simp [writeLow_eight, shiftResult, lowBytes_eight]

theorem run_commandHalves (msr : Word) :
    ∃ t, run s ([.movImm .rcx msr]++emitRegRegMove .rax .rax++emitRegRegMove .rdx .rax++
        emitShiftImm 5 .rdx 32) = some t ∧ Changes s t [.rcx,.rdx] ∧
      t.reg .rcx = msr ∧ t.reg .rdx = s.reg .rax >>> 32 := by
  refine ⟨_,rfl,⟨rfl,fun r hr => ?_⟩,?_,?_⟩
  · simp only [mem_cons, not_mem_nil, or_false, not_or] at hr
    by_cases h : r = .rax
    · subst h
      simp [writeLow_eight]
    · simp [hr.1, hr.2, h]
  · simp
  · simp [writeLow_eight, shiftResult, lowBytes_eight]

theorem run_statusTest :
    ∃ t, run s (emitMovImmToReg .r10 0x1000++emitRegRegOp 0x21 .rax .r10++emitCmpRegImm .rax 0) =
        some t ∧ Changes s t [.rax,.r10] ∧ t.reg .rax = s.reg .rax &&& 0x1000 ∧
      t.reg .r10 = 0x1000 ∧ t.flags = some (subFlags (s.reg .rax &&& 0x1000) 0) := by
  refine ⟨_,rfl,⟨rfl,fun r hr => ?_⟩,?_,?_,?_⟩
  · simp only [mem_cons, not_mem_nil, or_false, not_or] at hr
    simp [hr.1, hr.2]
  · simp
  · simp
  · simp [disp32]

end

section
variable {apic : LocalApic} {m : Machine} {id : Word}

theorem send_x2apic (dest : Reg) (hid : m.cpu.reg dest = id) (hfits : id.toNat < 2^32) :
    ∃ m', (emitSendX2APICIcr dest wakeVector).Runs apic m m' ∧
      Sent apic m m' id (wakeVector ||| id <<< 32) (id <<< 32) := by
  obtain ⟨t,ht,hchanges,hrax,hr10⟩ := run_commandWord m.cpu dest wakeVector
  obtain ⟨u,hu,hchanges',hrcx,hrdx⟩ := run_commandHalves t x2apicIcrMsr
  rw [hid] at hrax hr10
  have hrax' : u.reg .rax = wakeVector ||| id <<< 32 := by
    rw [hchanges'.reg .rax (by decide), hrax]
  have hwrite : (Machine.wrmsr ⟨u,m.sent,m.pending⟩) =
      some ⟨u,⟨id,wakeVector⟩::m.sent,m.pending⟩ := by
    rw [Machine.wrmsr]
    dsimp only
    rw [hrcx, if_pos (by decide), hrdx, hrax, hrax', command_destination id hfits, command_low id hfits]
  refine ⟨_,.seq (.block ht) (.seq (.block hu) (.wrmsr hwrite)),?_,hrax',?_,?_,rfl⟩
  · intro r hr
    simp only [mem_cons, not_mem_nil, or_false, not_or] at hr
    rw [hchanges'.reg r (by simp [hr]), hchanges.reg r (by simp [hr])]
  · rw [hchanges'.reg .r10 (by decide), hr10]
  · intro x _
    rw [hchanges'.mem, hchanges.mem]

section
variable (hbase : m.cpu.reg .r11 = apic.base)
include hbase

theorem icrLow_address : m.cpu.address .r11 0x300 = apic.base+icrLow := by
  have hoffset : (0x300 : BitVec 32).signExtend 64 = icrLow := by decide
  rw [address, hbase, hoffset]

theorem icrHigh_address : m.cpu.address .r11 0x310 = apic.base+icrHigh := by
  have hoffset : (0x310 : BitVec 32).signExtend 64 = icrHigh := by decide
  rw [address, hbase, hoffset]

theorem read_status :
    ∃ t, (Routine.seq (.lapicRead .rax .r11 0x300) (.block (emitMovImmToReg .r10 0x1000++
        emitRegRegOp 0x21 .rax .r10++emitCmpRegImm .rax 0))).Runs apic m ⟨t,m.sent,m.pending-1⟩ ∧
      Changes m.cpu t [.rax,.r10] ∧ t.reg .r10 = 0x1000 ∧
      t.reg .rax = (if m.pending ≠ 0 then 0x1000 else 0) ∧
      t.flags = some (subFlags (t.reg .rax) 0) := by
  have hread : apic.read m .rax .r11 0x300 = _ := LocalApic.read_icrLow (icrLow_address hbase)
  obtain ⟨t,ht,hchanges,hrax,hr10,hflags⟩ := run_statusTest (apic.read m .rax .r11 0x300).cpu
  have hstatus : t.reg .rax = if m.pending ≠ 0 then 0x1000 else 0 := by
    rw [hrax, hread]
    have hand := status_and (load m.cpu.mem (apic.base+icrLow) 4) 0x1000
      (decide (m.pending ≠ 0))
    simpa using hand
  refine ⟨t,?_,⟨?_,fun r hr => ?_⟩,hr10,hstatus,?_⟩
  · have hfirst : (Routine.lapicRead .rax .r11 0x300).Runs apic m (apic.read m .rax .r11 0x300) :=
      .lapicRead ..
    have hruns := hfirst.seq (.block ht)
    rw [hread] at hruns
    exact hruns
  · rw [hchanges.mem, hread]
    rfl
  · rw [hchanges.reg r hr, hread]
    simp only [mem_cons, not_mem_nil, or_false, not_or] at hr
    exact Function.update_of_ne hr.1 _ _
  · rw [hflags, hrax]

theorem wait_delivery :
    ∃ m', (emitWaitForIcrDelivery .r11).Runs apic m m' ∧ Changes m.cpu m'.cpu [.rax,.r10] ∧
      m'.cpu.reg .rax = 0 ∧ m'.cpu.reg .r10 = 0x1000 ∧ m'.sent = m.sent := by
  induction hpending : m.pending generalizing m with
  | zero =>
    obtain ⟨t,hruns,hchanges,hr10,hrax,hflags⟩ := read_status hbase
    rw [if_neg (not_not.mpr hpending)] at hrax
    refine ⟨_,.done hruns hflags ?_,hchanges,hrax,hr10,rfl⟩
    rw [hrax]
    decide
  | succ n ih =>
    obtain ⟨t,hruns,hchanges,hr10,hrax,hflags⟩ := read_status hbase
    rw [if_pos (by omega)] at hrax
    have hbase' : t.reg .r11 = apic.base := by rw [hchanges.reg .r11 (by decide), hbase]
    obtain ⟨m',hrest,hchanges',hrax',hr10',hsent⟩ :=
      ih (m := ⟨t,m.sent,m.pending-1⟩) hbase' (by dsimp only; omega)
    refine ⟨m',.again hruns hflags ?_ hrest,?_,hrax',hr10',hsent⟩
    · rw [hrax]
      decide
    · exact (hchanges.trans hchanges').mono (by decide)

end

theorem send_xapic (dest : Reg) (hbase : m.cpu.reg .r11 = apic.base)
    (hdest : m.cpu.reg dest = id <<< 24) (hfits : id.toNat < 2^8) :
    ∃ m', (emitSendIcr .r11 dest wakeVector).Runs apic m m' ∧ Sent apic m m' id 0 0x1000 := by
  have hcopy : run m.cpu (emitRegRegMove .rax dest) = some (m.cpu.setReg .rax (id <<< 24)) := by
    rw [← hdest]
    rfl
  generalize hs : m.cpu.setReg .rax (id <<< 24) = s at hcopy
  have hrax : s.reg .rax = id <<< 24 := by simp [← hs]
  have hr11 : s.reg .r11 = apic.base := by simp [← hs, hbase]
  -- the destination goes to the high half of the command register
  have hhigh : apic.write ⟨s,m.sent,m.pending⟩ .r11 0x310 .rax =
      ⟨s.setMem (store s.mem (apic.base+icrHigh) 4 (id <<< 24)),m.sent,m.pending⟩ := by
    have haddress := icrHigh_address (m := ⟨s,m.sent,m.pending⟩) hr11
    rw [LocalApic.write_other]
    · rw [haddress, hrax]
    · rw [haddress, icrHigh, icrLow]
      bv_omega
  generalize ht : (s.setMem (store s.mem (apic.base+icrHigh) 4 (id <<< 24))).setReg .rax wakeVector = t
  have hload : load t.mem (apic.base+icrHigh) 4 >>> 24 = id := by
    rw [← ht, setReg_mem, setMem_mem, load_store _ (by decide), destination_shifted id hfits]
  have hr11' : t.reg .r11 = apic.base := by simp [← ht, hr11]
  have hrax' : t.reg .rax = wakeVector := by simp [← ht]
  -- the low half sends it
  have hlow : apic.write ⟨t,m.sent,m.pending⟩ .r11 0x300 .rax =
      ⟨t.setMem (store t.mem (apic.base+icrLow) 4 wakeVector),⟨id,wakeVector⟩::m.sent,
        apic.delay m.sent.length⟩ := by
    rw [LocalApic.write_icrLow (icrLow_address (m := ⟨t,m.sent,m.pending⟩) hr11')]
    dsimp only
    rw [hload, hrax']
    rfl
  obtain ⟨m',hwait,hchanges,hraxw,hr10w,hsent⟩ := wait_delivery (m := ⟨t.setMem
    (store t.mem (apic.base+icrLow) 4 wakeVector),⟨id,wakeVector⟩::m.sent,
      apic.delay m.sent.length⟩) hr11'
  have hfirst : (Routine.lapicWrite .r11 0x310 .rax).Runs apic ⟨s,m.sent,m.pending⟩
      ⟨s.setMem (store s.mem (apic.base+icrHigh) 4 (id <<< 24)),m.sent,m.pending⟩ :=
    hhigh ▸ .lapicWrite ..
  have hsecond : (emitLapicWriteWithBaseReg .r11 0x300 wakeVector).Runs apic
      ⟨s.setMem (store s.mem (apic.base+icrHigh) 4 (id <<< 24)),m.sent,m.pending⟩
      ⟨t.setMem (store t.mem (apic.base+icrLow) 4 wakeVector),⟨id,wakeVector⟩::m.sent,
        apic.delay m.sent.length⟩ :=
    .seq (.block (congrArg some ht)) (hlow ▸ .lapicWrite ..)
  refine ⟨m',.seq (.block hcopy) (.seq hfirst (.seq hsecond hwait)),?_,hraxw,hr10w,?_,hsent⟩
  · intro r hr
    simp only [mem_cons, not_mem_nil, or_false, not_or] at hr
    rw [hchanges.reg r (by simp [hr])]
    simp [← ht, ← hs, hr.1]
  · intro x hx
    have hlowx : ¬ InRange x (apic.base+icrLow) 4 := fun h => hx (h.shift (k := 0x300) (by decide))
    have hhighx : ¬ InRange x (apic.base+icrHigh) 4 := fun h => hx (h.shift (k := 0x310) (by decide))
    rw [hchanges.mem, setMem_mem, store_outside hlowx, ← ht, setReg_mem,
      setMem_mem, store_outside hhighx, ← hs, setReg_mem]

theorem Sent.of_changes {m' : Machine} {t : State} {rax r10 : Word}
    (hchanges : Changes m.cpu t [.rax,.rcx,.rdx,.r10,.r11])
    (h : Sent apic ⟨t,m.sent,m.pending⟩ m' id rax r10) : Sent apic m m' id rax r10 where
  reg r hr := (h.reg r hr).trans (hchanges.reg r hr)
  rax := h.rax
  r10 := h.r10
  mem x hx := (h.mem x hx).trans (by rw [hchanges.mem])
  sent := h.sent

theorem send_fallback (hbase : m.cpu.reg .r11 = apic.base) (hid : m.cpu.reg .rax = id)
    (hfits : IdFits .x2apicWithXapicFallback apic id) :
    ∃ m', (emitSendIcrForMode .r11 .rax wakeVector .x2apicWithXapicFallback).Runs apic m m' ∧
      Sent apic m m' id (leftInRax .x2apicWithXapicFallback apic id)
        (leftInR10 .x2apicWithXapicFallback apic id) := by
  generalize ht : (((((m.cpu.setReg .r10 id).setReg .rcx apicBaseMsr).setReg .rax
    (lowBytes 4 apic.baseMsr)).setReg .rdx (apic.baseMsr >>> 32)).setFlags
      (testFlags (lowBytes 4 (lowBytes 4 apic.baseMsr) &&& (0x400 : BitVec 32).setWidth 64))) = t
  have hbefore : ∀ {a b : Routine} {m' : Machine}, (Routine.branch 0x84 a b).Runs apic
      ⟨t,m.sent,m.pending⟩ m' → (Routine.seq (.block (emitRegRegMove .r10 .rax))
        (emitJumpIfX2APICInactive a b)).Runs apic m m' := by
    intro a b m' h
    rw [← ht, ← hid] at h
    exact .seq (.block rfl) (.seq (.block rfl) (.seq (.rdmsr rfl) (.seq (.testEax ..) h)))
  have hflags : t.flags = some (testFlags (lowBytes 4 (lowBytes 4 apic.baseMsr) &&&
      (0x400 : BitVec 32).setWidth 64)) := by rw [← ht]; rfl
  have hr10 : t.reg .r10 = id := by simp [← ht]
  have hr11 : t.reg .r11 = apic.base := by simp [← ht, hbase]
  have hchanges : Changes m.cpu t [.rax,.rcx,.rdx,.r10,.r11] := by
    refine ⟨by rw [← ht]; rfl,fun r hr => ?_⟩
    simp only [mem_cons, not_mem_nil, or_false, not_or] at hr
    simp [← ht, hr]
  have hbit : (lowBytes 4 apic.baseMsr).getLsbD 10 = apic.baseMsr.getLsbD 10 := by
    rw [lowBytes, BitVec.getLsbD_setWidth, BitVec.getLsbD_setWidth]
    simp
  cases hactive : apic.baseMsr.getLsbD 10 with
  | true =>
    have hmsr : sendsThroughMsr .x2apicWithXapicFallback apic := hactive
    rw [IdFits, if_pos hmsr] at hfits
    rw [leftInRax, leftInR10, if_pos hmsr, if_pos hmsr]
    obtain ⟨m',hruns,hsent⟩ := send_x2apic (m := ⟨t,m.sent,m.pending⟩) .r10 hr10 hfits
    refine ⟨m',hbefore (.other hflags ?_ hruns),hsent.of_changes hchanges⟩
    rw [testFlags_x2apic, hbit, hactive]
    rfl
  | false =>
    have hmsr : ¬ sendsThroughMsr .x2apicWithXapicFallback apic := by
      change ¬ apic.baseMsr.getLsbD 10
      rw [hactive]
      decide
    rw [IdFits, if_neg hmsr] at hfits
    rw [leftInRax, leftInR10, if_neg hmsr, if_neg hmsr]
    have hshift : run t (emitShiftImm 4 .r10 24) = some ((t.setReg .r10 (id <<< 24)).setFlags none) := by
      rw [← hr10]
      simp [emitShiftImm, run, exec, shiftResult, lowBytes_eight]
    have hbase' : ((t.setReg .r10 (id <<< 24)).setFlags none).reg .r11 = apic.base := by simp [hr11]
    have hdest : ((t.setReg .r10 (id <<< 24)).setFlags none).reg .r10 = id <<< 24 := by simp
    obtain ⟨m',hruns,hsent⟩ := send_xapic
      (m := ⟨(t.setReg .r10 (id <<< 24)).setFlags none,m.sent,m.pending⟩) .r10 hbase' hdest hfits
    refine ⟨m',hbefore (.taken hflags ?_ (.seq (.block hshift) hruns)),?_⟩
    · rw [testFlags_x2apic, hbit, hactive]
      rfl
    · apply Sent.of_changes _ hsent
      refine ⟨hchanges.mem,fun r hr => ?_⟩
      rw [← hchanges.reg r hr]
      simp only [mem_cons, not_mem_nil, or_false, not_or] at hr
      simp [hr]

theorem send_forMode {mode : ApicMode} (hbase : m.cpu.reg .r11 = apic.base)
    (hid : m.cpu.reg .rax = apicIdCommand mode id) (hfits : IdFits mode apic id) :
    ∃ m', (emitSendIcrForMode .r11 .rax wakeVector mode).Runs apic m m' ∧
      Sent apic m m' id (leftInRax mode apic id) (leftInR10 mode apic id) := by
  cases mode with
  | xapic => exact send_xapic .rax hbase hid hfits
  | x2apicRequired | x2apicPreferred => exact send_x2apic .rax hid hfits
  | x2apicWithXapicFallback => exact send_fallback hbase hid hfits

end

/-! ## Waking a slot -/

section
variable (ctx : CompileContext) (slot : String)

/-- The address is in the mwait line that the wake code of the slot touches. -/
def InMwaitLine (x : Word) : Prop := slot ≠ "" ∧ InRange x (ctx.monitorMwaitWaitline slot) 8

theorem run_touchMwaitLine (s : State) :
    ∃ t, run s (emitTouchMonitorMwaitWaitline ctx slot) = some t ∧
      (∀ r ∉ [Reg.rax,.r11], t.reg r = s.reg r) ∧
      ∀ x, ¬ InMwaitLine ctx slot x → t.mem x = s.mem x := by
  rw [emitTouchMonitorMwaitWaitline]
  split_ifs with hslot
  · exact ⟨s,rfl,fun _ _ => rfl,fun _ _ => rfl⟩
  · refine ⟨_,rfl,fun r hr => ?_,fun x hx => ?_⟩
    · simp only [mem_cons, not_mem_nil, or_false, not_or] at hr
      simp [hr.1, hr.2]
    · simp only [setMem_mem, setFlags_mem, setReg_mem]
      apply store_outside
      rw [address_zero]
      exact fun hin => hx ⟨hslot,by simpa using hin⟩

theorem run_loadCommand (s : State) (vcpuID : ℕ) :
    ∃ t, run s (emitLoadLocalApicBase ctx .r11++
        emitMovDataAddressToRax (ctx.vcpuAPICIDCommand vcpuID)++emitLoadMemToReg .rax .rax 0 64) =
        some t ∧ Changes s t [.rax,.r11] ∧ t.reg .r11 = load s.mem ctx.localApicBase 8 ∧
      t.reg .rax = load s.mem (ctx.vcpuAPICIDCommand vcpuID) 8 := by
  refine ⟨_,rfl,⟨rfl,fun r hr => ?_⟩,?_,?_⟩
  · simp only [mem_cons, not_mem_nil, or_false, not_or] at hr
    simp [hr.1, hr.2]
  · simp [address_zero, writeLow_eight]
  · simp [address_zero, writeLow_eight]

variable {ctx slot} {apic : LocalApic} {m : Machine} {vcpuID : ℕ} {id : Word}

/-- The interrupt was sent to the APIC `id`; besides the registers of the local
APIC only the slot's mwait line has been written. -/
structure Woken (ctx : CompileContext) (slot : String) (apic : LocalApic) (id : Word)
    (m m' : Machine) : Prop where
  reg : ∀ r ∉ [Reg.rax,.rcx,.rdx,.r10,.r11], m'.cpu.reg r = m.cpu.reg r
  rax : m'.cpu.reg .rax = leftInRax ctx.apicMode apic id
  r10 : m'.cpu.reg .r10 = leftInR10 ctx.apicMode apic id
  mem : ∀ x, ¬ InRange x apic.base 0x1000 → ¬ InMwaitLine ctx slot x →
    m'.cpu.mem x = m.cpu.mem x
  sent : m'.sent = ⟨id,wakeVector⟩::m.sent

theorem wake_spec (hbase : load m.cpu.mem ctx.localApicBase 8 = apic.base)
    (hid : load m.cpu.mem (ctx.vcpuAPICIDCommand vcpuID) 8 = apicIdCommand ctx.apicMode id)
    (hfits : IdFits ctx.apicMode apic id)
    (hline : ∀ x, InMwaitLine ctx slot x → ¬ InRange x ctx.localApicBase 8 ∧
      ¬ InRange x (ctx.vcpuAPICIDCommand vcpuID) 8) :
    ∃ m', (wakeVcpu ctx slot vcpuID).Runs apic m m' ∧ Woken ctx slot apic id m m' := by
  obtain ⟨s,hs,hregs,hmem⟩ := run_touchMwaitLine ctx slot m.cpu
  obtain ⟨t,ht,hchanges,hr11,hrax⟩ := run_loadCommand ctx s vcpuID
  have hbase' : load s.mem ctx.localApicBase 8 = apic.base := by
    rw [← hbase]
    exact load_frame fun x hx => hmem x fun hin => (hline x hin).1 hx
  have hid' : load s.mem (ctx.vcpuAPICIDCommand vcpuID) 8 = apicIdCommand ctx.apicMode id := by
    rw [← hid]
    exact load_frame fun x hx => hmem x fun hin => (hline x hin).2 hx
  have hblock : run m.cpu (emitTouchMonitorMwaitWaitline ctx slot++emitLoadLocalApicBase ctx .r11++
      emitMovDataAddressToRax (ctx.vcpuAPICIDCommand vcpuID)++emitLoadMemToReg .rax .rax 0 64) =
      some t := by
    rw [append_assoc, append_assoc, run_append_some hs, ← append_assoc]
    exact ht
  obtain ⟨m',hruns,hsent⟩ := send_forMode (m := ⟨t,m.sent,m.pending⟩) (hr11.trans hbase')
    (hrax.trans hid') hfits
  refine ⟨m',.seq (.block hblock) hruns,?_,hsent.rax,hsent.r10,?_,hsent.sent⟩
  · intro r hr
    have hr' : r ∉ [Reg.rax,.r11] := by
      simp only [mem_cons, not_mem_nil, or_false, not_or] at hr ⊢
      exact ⟨hr.1,hr.2.2.2.2⟩
    rw [hsent.reg r hr, hchanges.reg r hr', hregs r hr']
  · intro x hx hin
    rw [hsent.mem x hx, hchanges.mem, hmem x hin]

end

end Wrela.WakeCode

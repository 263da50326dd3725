import Wrela.Topic.WakeCode

/-!
# The wake fan-out of a publish

The emitted publish on a machine with a local APIC. A subscriber whose waitline
is armed is touched and its vCPU gets the wake interrupt, but the wake sequence
leaves other values in the registers that hold the topic's address and the
sequence number, and the code for the next subscriber goes on with those.
-/

set_option autoImplicit false

namespace Wrela.TopicData
open List Nat

/-! ## The planned block -/

theorem alignUp64_toNat (value : UInt64) :
    (alignUp64 value).toNat = 64*((value.toNat+63)/64)%2^64 := by
  have hlt := value.toNat_lt
  have hmod : (value%cacheLineSize).toNat = value.toNat%64 := UInt64.toNat_mod ..
  have hzero : value%cacheLineSize = 0 ↔ value.toNat%64 = 0 := by
    rw [← UInt64.toNat_inj, hmod]
    rfl
  rw [alignUp64]
  split_ifs with hz
  · have := hzero.mp hz
    omega
  · have hne := hzero.not.mp hz
    rw [UInt64.toNat_sub, UInt64.toNat_add, hmod, show cacheLineSize.toNat = 64 from rfl]
    omega

theorem toNat_add_lines (next : UInt64) : (next+2*cacheLineSize).toNat = (next.toNat+128)%2^64 := by
  rw [UInt64.toNat_add, show (2*cacheLineSize).toNat = 128 from rfl]

theorem planSubscribers_end (next : UInt64) (labels : List String) :
    (planSubscribers next labels).2.toNat = (next.toNat+128*labels.length)%2^64 := by
  induction labels generalizing next with
  | nil => exact (mod_eq_of_lt next.toNat_lt).symm
  | cons label rest ih =>
    rw [length_cons, planSubscribers, ih, toNat_add_lines]
    omega

variable {i : ℕ} {subscriber : TopicDataSubscriberLayout}

theorem planSubscribers_lines (next : UInt64) (labels : List String)
    (hi : (planSubscribers next labels).1[i]? = some subscriber) :
    subscriber.cursorOffset.toNat = (next.toNat+128*i)%2^64 ∧
    subscriber.waitlineOffset.toNat = (next.toNat+128*i+64)%2^64 := by
  induction labels generalizing next i with
  | nil => cases hi
  | cons label rest ih =>
    cases i with
    | zero =>
      obtain rfl := Option.some.inj hi
      exact ⟨(mod_eq_of_lt next.toNat_lt).symm,UInt64.toNat_add next cacheLineSize⟩
    | succ i =>
      obtain ⟨hcursor,hwaitline⟩ := ih (next+2*cacheLineSize) hi
      rw [hcursor, hwaitline, toNat_add_lines]
      omega

namespace Topic
variable (t : Topic)

def slotBytes : ℕ := 64*((8+t.layout.payloadSize.toNat+63)/64)

def blockSize : ℕ := 128+128*t.subscribers+t.depth*t.slotBytes

theorem layout_eq : t.layout = planTopicData t.source := (planTopicDataChecked_ok t.planned).2.2.2

structure Planned : Prop where
  head : t.layout.headOffset = 0
  slots : t.layout.slotsOffset.toNat = 128+128*t.subscribers
  slotSize : t.layout.slotSize.toNat = t.slotBytes
  total : t.layout.totalSize.toNat = t.blockSize
  waitline : ∀ i subscriber, t.layout.subscribers[i]? = some subscriber →
    subscriber.waitlineOffset.toNat = 128+128*i+64

theorem slotBytes_line : t.slotBytes%64 = 0 := mul_mod_right ..

theorem slotsOffset_toNat : t.layout.slotsOffset.toNat = (128+128*t.subscribers)%2^64 := by
  have hend := planSubscribers_end (2*cacheLineSize) t.source.subscribers
  rw [show (2*cacheLineSize).toNat = 128 from rfl] at hend
  have hcount : t.subscribers = t.source.subscribers.length := by
    rw [subscribers, t.layout_eq]
    exact planSubscribers_length _ _
  rw [t.layout_eq, hcount]
  change (alignUp64 (planSubscribers (2*cacheLineSize) t.source.subscribers).2).toNat = _
  rw [alignUp64_toNat, hend]
  omega

theorem slotSize_toNat : t.layout.slotSize.toNat = t.slotBytes%2^64 := by
  rw [slotBytes, t.layout_eq]
  change (alignUp64 (8+t.source.payloadSize)).toNat = 64*((8+t.source.payloadSize.toNat+63)/64)%2^64
  rw [alignUp64_toNat, UInt64.toNat_add, show (8 : UInt64).toNat = 8 from rfl]
  omega

theorem totalSize_toNat : t.layout.totalSize.toNat = t.blockSize%2^64 := by
  have hplan : t.layout.totalSize =
      alignUp64 (t.layout.slotsOffset+t.layout.depth*t.layout.slotSize) := by
    rw [t.layout_eq]
    rfl
  have hsum : (t.layout.slotsOffset+t.layout.depth*t.layout.slotSize).toNat = t.blockSize%2^64 := by
    rw [UInt64.toNat_add, UInt64.toNat_mul, slotsOffset_toNat, slotSize_toNat, mul_mod_mod,
      ← add_mod]
    rfl
  have hline : t.blockSize%64 = 0 := by
    have hring : t.depth*t.slotBytes%64 = 0 := by rw [mul_mod, slotBytes_line, Nat.mul_zero]
    rw [blockSize]
    omega
  rw [hplan, alignUp64_toNat, hsum]
  omega

theorem subscriber_toNat (hi : t.layout.subscribers[i]? = some subscriber) :
    subscriber.cursorOffset.toNat = (128+128*i)%2^64 ∧
    subscriber.waitlineOffset.toNat = (128+128*i+64)%2^64 := by
  rw [t.layout_eq] at hi
  exact planSubscribers_lines (2*cacheLineSize) t.source.subscribers hi

theorem planned_of_lt (h : t.blockSize < 2^64) : t.Planned := by
  have hblock : 128+128*t.subscribers+t.depth*t.slotBytes < 2^64 := h
  have hslot : t.slotBytes ≤ t.depth*t.slotBytes := Nat.le_mul_of_pos_left _ t.depth_pos
  constructor
  · rw [t.layout_eq]
    rfl
  · rw [slotsOffset_toNat, mod_eq_of_lt (by omega)]
  · rw [slotSize_toNat, mod_eq_of_lt (by omega)]
  · rw [totalSize_toNat, mod_eq_of_lt h]
  · intro i subscriber hi
    have hlt : i < t.subscribers := (List.getElem?_eq_some_iff.mp hi).1
    rw [(t.subscriber_toNat hi).2, mod_eq_of_lt (by omega)]

theorem planned_of_le (h : t.blockSize ≤ 2^31) : t.Planned := t.planned_of_lt (by omega)

end Topic

end Wrela.TopicData

namespace Wrela.WakeCode
open X86 TopicData Codegen List Nat

/-! ## What a publish should do -/

section
variable (t : Topic) (ctx : CompileContext)

def waitlineOf (subscriber : TopicDataSubscriberLayout) : Word :=
  ctx.topicData+BitVec.ofNat 64 subscriber.waitlineOffset.toNat

def newSequence (m : Machine) : Word :=
  load m.cpu.mem (ctx.topicData+BitVec.ofNat 64 t.layout.headOffset.toNat) 8+1

theorem newSequence_eq (hsize : t.blockSize ≤ 2^31) (m : Machine) :
    newSequence t ctx m = load m.cpu.mem ctx.topicData 8+1 := by
  rw [newSequence, (t.planned_of_le hsize).head]
  simp

/-- The waitline holds a sequence number, and not the new one. -/
def Armed (m : Machine) (subscriber : TopicDataSubscriberLayout) : Prop :=
  load m.cpu.mem (waitlineOf ctx subscriber) 8 ≠ -1 ∧
    load m.cpu.mem (waitlineOf ctx subscriber) 8 ≠ newSequence t ctx m

/-- Memory that a publish may write: the topic's block, the mwait lines of its
subscribers and the registers of the local APIC. -/
def Writable (apic : LocalApic) (x : Word) : Prop :=
  InRange x ctx.topicData t.layout.totalSize.toNat ∨
    (∃ subscriber ∈ t.layout.subscribers, InMwaitLine ctx subscriber.label x) ∨
    InRange x apic.base 0x1000

structure FannedOut (apic : LocalApic) (ids : ℕ → Word) (m m' : Machine) : Prop where
  touched : ∀ subscriber ∈ t.layout.subscribers, Armed t ctx m subscriber →
    load m'.cpu.mem (waitlineOf ctx subscriber) 8 = newSequence t ctx m
  woken : ∃ new, m'.sent = new++m.sent ∧ ∀ subscriber ∈ t.layout.subscribers,
    Armed t ctx m subscriber → ∀ vcpuID, ctx.vcpuOf subscriber.label = some vcpuID →
      ⟨ids vcpuID,wakeVector⟩ ∈ new
  others : ∀ subscriber ∈ t.layout.subscribers, ¬ Armed t ctx m subscriber →
    load m'.cpu.mem (waitlineOf ctx subscriber) 8 = load m.cpu.mem (waitlineOf ctx subscriber) 8
  frame : ∀ x, ¬ Writable t ctx apic x → m'.cpu.mem x = m.cpu.mem x

/-- The data the code uses is placed apart: the block, the address of the local
APIC, the ids of the vCPUs, the mwait lines and the registers of the APIC. -/
structure Placed (apic : LocalApic) : Prop where
  baseBlock : Disjoint ctx.localApicBase 8 ctx.topicData t.layout.totalSize.toNat
  idBlock : ∀ p ∈ ctx.slotVcpu, Disjoint (ctx.vcpuAPICIDCommand p.2) 8 ctx.topicData
    t.layout.totalSize.toNat
  apicBlock : Disjoint apic.base 0x1000 ctx.topicData t.layout.totalSize.toNat
  apicBase : Disjoint apic.base 0x1000 ctx.localApicBase 8
  apicId : ∀ p ∈ ctx.slotVcpu, Disjoint apic.base 0x1000 (ctx.vcpuAPICIDCommand p.2) 8
  lineBlock : ∀ p ∈ ctx.slotVcpu, Disjoint (ctx.monitorMwaitWaitline p.1) 8 ctx.topicData
    t.layout.totalSize.toNat
  lineBase : ∀ p ∈ ctx.slotVcpu, Disjoint (ctx.monitorMwaitWaitline p.1) 8 ctx.localApicBase 8
  lineId : ∀ p ∈ ctx.slotVcpu, ∀ q ∈ ctx.slotVcpu,
    Disjoint (ctx.monitorMwaitWaitline p.1) 8 (ctx.vcpuAPICIDCommand q.2) 8

structure Started (ctx : CompileContext) (apic : LocalApic) (ids : ℕ → Word) (mem : Mem) : Prop where
  base : load mem ctx.localApicBase 8 = apic.base
  id : ∀ p ∈ ctx.slotVcpu,
    load mem (ctx.vcpuAPICIDCommand p.2) 8 = apicIdCommand ctx.apicMode (ids p.2)

end

/-! ## Filling the slot -/

variable (s : State)

section
variable {t : Topic} {ctx : CompileContext} {frame : Frame} {value : Value}

/-- A handle to more or less than a word: its address is loaded into r11, which
holds the slot. -/
def Misdirects (value : Value) : Prop := value.type.isHandleType ∧ value.type.storageSize ≠ 8

instance (value : Value) : Decidable (Misdirects value) := inferInstanceAs (Decidable (_ ∧ _))

def payloadTarget (frame : Frame) (value : Value) (s : State) : Word :=
  if Misdirects value then
    load s.mem (s.address .rbp (disp32 ((frame.slots value.id).getD 0))) 8
  else s.reg .r11

theorem width_le_storageSize (h : ¬ Misdirects value) :
    value.type.valueWidthBits/8 ≤ value.type.storageSize := by
  cases htype : value.type with
  | prim p =>
    rw [Ir.storageSize_prim]
    cases p <;> decide
  | data | cls | enum =>
    have hsize : value.type.storageSize = 8 := by
      by_contra hne
      exact h ⟨by rw [htype]; rfl,hne⟩
    rw [← htype, hsize]
    have := valueWidthBits_cases value.type
    omega

theorem storageSize_pos (value : Value) : 0 < value.type.storageSize :=
  lt_of_lt_of_le (Ir.size_pos _) (Ir.size_le_storageSize _)

theorem run_selfCopy {size : ℕ} (hsize : 8+size ≤ 2^31) :
    ∃ v, run s (emitCopyMemoryToMemoryRange .r11 0 .r11 8 size) =
      some ((s.setReg .rax v).setMem (copyPieces s.mem (s.reg .r11+8) (s.reg .r11)
        (copyBytes (copyTurns size size 0)))) := by
  have hcovers := copyTurns_covers size size 0 (by omega) (by omega)
  have hsrc : Fits 0 size := ⟨by omega,by omega⟩
  have hdst : Fits 8 size := ⟨by omega,by omega⟩
  obtain ⟨v,hv⟩ := run_copyTurns (show Reg.r11 ≠ .rax by decide) (show Reg.r11 ≠ .rax by decide)
    hcovers hsrc hdst s
  have hzero : addr s .r11 0 = s.reg .r11 := by simp [addr]
  refine ⟨v,?_⟩
  rw [hzero] at hv
  exact hv

theorem run_payload {code : List Instr}
    (h : emitCopyValueToMemoryRange frame value .r11 8 value.type.storageSize = .ok code)
    (hsize : 8+value.type.storageSize ≤ 2^31) :
    ∃ u, run s code = some u ∧ (∀ r ∉ [Reg.rax,.r11], u.reg r = s.reg r) ∧
      (∀ x, ¬ InRange x (payloadTarget frame value s+8) value.type.storageSize → u.mem x = s.mem x) ∧
      (Misdirects value → u.mem (payloadTarget frame value s+8) = s.mem (payloadTarget frame value s)) := by
  rw [emitCopyValueToMemoryRange] at h
  by_cases hhandle : value.type.isHandleType ∧ value.type.storageSize ≠ 8
  · rw [if_pos hhandle, emitValueAddress] at h
    cases hslot : frame.slots value.id with
    | none =>
      rw [hslot] at h
      cases h
    | some slot =>
      simp only [hslot, if_pos hhandle.1] at h
      obtain rfl := Except.ok.inj h
      have htarget : payloadTarget frame value s = load s.mem (s.address .rbp (disp32 slot)) 8 := by
        rw [payloadTarget, if_pos (show Misdirects value from hhandle), hslot]
        rfl
      generalize hh : load s.mem (s.address .rbp (disp32 slot)) 8 = handle at htarget
      have hload : run s (emitLoadSlotToReg .r11 slot 64) = some (s.setReg .r11 handle) := by
        rw [← hh]
        rfl
      have hcovers := copyTurns_covers value.type.storageSize value.type.storageSize 0 (by omega)
        (by omega)
      obtain ⟨v,hv⟩ := run_selfCopy (s.setReg .r11 handle) hsize
      simp only [State.setReg_reg, Function.update_self, State.setReg_mem] at hv
      refine ⟨_,(run_append_some hload).trans hv,fun r hr => ?_,fun x hx => ?_,fun _ => ?_⟩
      · simp only [mem_cons, not_mem_nil, or_false, not_or] at hr
        simp [hr.1, hr.2]
      · rw [htarget] at hx
        exact copyPieces_frame hcovers hx
      · rw [htarget]
        exact copyPieces_first hcovers (storageSize_pos value) (by omega)
  · rw [if_neg hhandle] at h
    cases hload : emitLoadValue frame value .rax with
    | error =>
      rw [hload] at h
      cases h
    | ok load =>
      rw [hload] at h
      obtain rfl := Except.ok.inj h
      have hrun := run_emitLoadValue s (by decide) hload
      refine ⟨_,(run_append_some hrun).trans rfl,fun r hr => ?_,fun x hx => ?_,fun hm => absurd hm hhandle⟩
      · simp only [mem_cons, not_mem_nil, or_false, not_or] at hr
        simp [hr.1]
      · rw [payloadTarget, if_neg (show ¬ Misdirects value from hhandle)] at hx
        have haddress : (s.setReg .rax (frame.word s value)).address .r11 (disp32 8) = s.reg .r11+8 := by
          rw [address_disp32 _ _ (by decide) (by decide)]
          simp [addr]
        simp only [State.setMem_mem, State.setReg_mem, haddress]
        apply store_outside
        exact fun hin => hx (hin.mono (width_le_storageSize hhandle))

def InRing (t : Topic) (ctx : CompileContext) (x : Word) : Prop :=
  InRange x (ctx.topicData+BitVec.ofNat 64 (128+128*t.subscribers)) (t.depth*t.slotBytes)

theorem slot_le (t : Topic) {index : ℕ} (h : index < t.depth) :
    index*t.slotBytes+t.slotBytes ≤ t.depth*t.slotBytes := by
  rw [← succ_mul]
  exact Nat.mul_le_mul_right _ h

theorem slotBytes_ge (t : Topic) : 8+t.layout.payloadSize.toNat ≤ t.slotBytes := by
  rw [Topic.slotBytes]
  omega

def slotOffset (layout : TopicDataLayout) (sequence : Word) : Word :=
  (sequence &&& BitVec.ofNat 64 (layout.depth-1).toNat)*BitVec.ofNat 64 layout.slotSize.toNat+
    (disp32 layout.slotsOffset.toNat).signExtend 64

def slotStart (layout : TopicDataLayout) (index : ℕ) : ℕ :=
  layout.slotsOffset.toNat+index*layout.slotSize.toNat

theorem slotOf_lt (t : Topic) (position : ℕ) : t.slotOf position < t.depth := by
  rw [Topic.slotOf_eq_mod]
  exact mod_lt _ t.depth_pos

theorem mask_eq (t : Topic) (sequence : Word) :
    sequence &&& BitVec.ofNat 64 (t.layout.depth-1).toNat =
      BitVec.ofNat 64 (t.slotOf sequence.toNat) := by
  have hd := t.depth_pos
  have hlt : t.depth < 2^64 := t.layout.depth.toNat_lt
  have hdepth : (t.layout.depth-1).toNat = t.depth-1 :=
    UInt64.toNat_sub_of_le _ _ (UInt64.le_iff_toNat_le.mpr hd)
  have hslot := slotOf_lt t sequence.toNat
  apply BitVec.eq_of_toNat_eq
  rw [BitVec.toNat_and, BitVec.toNat_ofNat, BitVec.toNat_ofNat, hdepth,
    mod_eq_of_lt (by omega : t.depth-1 < 2^64), mod_eq_of_lt (by omega)]
  rfl

theorem slotOffset_eq (t : Topic) (sequence : Word)
    (h : (disp32 t.layout.slotsOffset.toNat).signExtend 64 =
      BitVec.ofNat 64 t.layout.slotsOffset.toNat) :
    slotOffset t.layout sequence =
      BitVec.ofNat 64 (slotStart t.layout (t.slotOf sequence.toNat)) := by
  rw [slotOffset, slotStart, h, mask_eq, BitVec.ofNat_add, BitVec.ofNat_mul, BitVec.add_comm]

theorem run_locateSlot (ctx : CompileContext) (hsize : t.blockSize ≤ 2^31) (s : State) :
    ∃ u index, run s (emitMovDataAddressToRax ctx.topicData++locateSlot t.layout .rax) = some u ∧
      index < t.depth ∧
      u.reg .r11 = ctx.topicData+BitVec.ofNat 64 (128+128*t.subscribers+index*t.slotBytes) ∧
      u.reg .r10 = load s.mem ctx.topicData 8+1 ∧
      (∀ r ∉ [Reg.rax,.rdx,.r10,.r11], u.reg r = s.reg r) ∧
      u.mem = store s.mem (u.reg .r11) 8 (u.reg .r10) := by
  have hplanned := t.planned_of_le hsize
  have hblock : 128+128*t.subscribers+t.depth*t.slotBytes ≤ 2^31 := hsize
  have hring : 0 < t.depth*t.slotBytes :=
    Nat.mul_pos t.depth_pos (lt_of_lt_of_le (by omega) (slotBytes_ge t))
  have hslots := hplanned.slots
  have hoffset : (disp32 (t.layout.slotsOffset.toNat : ℤ)).signExtend 64 =
      BitVec.ofNat 64 t.layout.slotsOffset.toNat := by
    rw [signExtend_disp32 (by omega) (by omega)]
    rfl
  generalize hhead : load s.mem ctx.topicData 8 = head
  have hslot : BitVec.ofNat 64 (128+128*t.subscribers+t.slotOf head.toNat*t.slotBytes) =
      slotOffset t.layout head := by
    rw [slotOffset_eq t head hoffset, slotStart, hslots, hplanned.slotSize]
  have hone : (disp32 1).signExtend 64 = 1 := by decide
  have hzero : disp32 ((t.layout.headOffset.toNat : ℕ) : ℤ) = disp32 0 := by rw [hplanned.head]; rfl
  refine ⟨_,t.slotOf head.toNat,rfl,slotOf_lt t _,?_,?_,fun r hr => ?_,?_⟩
  · rw [hslot, slotOffset, ← hhead, BitVec.add_comm ctx.topicData]
    simp [address_zero, writeLow_eight, hzero]
  · simp [address_zero, writeLow_eight, hone, hhead, hzero]
  · simp only [mem_cons, not_mem_nil, or_false, not_or] at hr
    simp [hr]
  · simp [address_zero]

def prepareCode (t : Topic) (ctx : CompileContext) (payload : List Instr) : List Instr :=
  emitMovDataAddressToRax ctx.topicData++locateSlot t.layout .rax++payload++
    emitMovDataAddressToRax ctx.topicData++emitMfence++
    emitStoreMemFromReg .rax t.layout.headOffset.toNat .r10 64

/-- The message is announced; its payload has been stored behind `target`. -/
structure Prepared (t : Topic) (ctx : CompileContext) (frame : Frame) (value : Value)
    (s u : State) (target : Word) : Prop where
  rax : u.reg .rax = ctx.topicData
  r10 : u.reg .r10 = load s.mem ctx.topicData 8+1
  mem : ∀ x, ¬ InRange x ctx.topicData 8 → ¬ InRing t ctx x →
    ¬ InRange x (target+8) value.type.storageSize → u.mem x = s.mem x
  inside : ¬ Misdirects value → ∀ x, InRange x (target+8) value.type.storageSize → InRing t ctx x
  handle : Misdirects value →
    (∀ x, InRange x (s.address .rbp (disp32 ((frame.slots value.id).getD 0))) 8 → ¬ InRing t ctx x) →
    target = load s.mem (s.address .rbp (disp32 ((frame.slots value.id).getD 0))) 8
  first : Misdirects value → ¬ InRange (target+8) ctx.topicData 8 → ¬ InRing t ctx target →
    u.mem (target+8) = s.mem target

theorem run_prepare (ctx : CompileContext) {payload : List Instr} (hsize : t.blockSize ≤ 2^31)
    (hvalue : t.layout.payloadSize.toNat = value.type.storageSize)
    (hpayload : emitCopyValueToMemoryRange frame value .r11 8 value.type.storageSize = .ok payload)
    (s : State) :
    ∃ u target, run s (prepareCode t ctx payload) = some u ∧
      Prepared t ctx frame value s u target := by
  have hplanned := t.planned_of_le hsize
  have hroom := slotBytes_ge t
  have hblock : 128+128*t.subscribers+t.depth*t.slotBytes ≤ 2^31 := hsize
  obtain ⟨u,index,hu,hindex,hr11,hr10,hregs,hmem⟩ := run_locateSlot ctx hsize s
  have hslot := slot_le t hindex
  obtain ⟨w,hw,hwregs,hwmem,hwfirst⟩ := run_payload u hpayload (by omega)
  have hzero : disp32 ((t.layout.headOffset.toNat : ℕ) : ℤ) = disp32 0 := by rw [hplanned.head]; rfl
  have hlast : run w (emitMovDataAddressToRax ctx.topicData++emitMfence++
      emitStoreMemFromReg .rax t.layout.headOffset.toNat .r10 64) =
      some ((w.setReg .rax ctx.topicData).setMem (store w.mem ctx.topicData 8 (w.reg .r10))) := by
    simp [emitMovDataAddressToRax, emitMfence, emitStoreMemFromReg, run, exec, hzero, address_zero]
  have hrun : run s (prepareCode t ctx payload) =
      some ((w.setReg .rax ctx.topicData).setMem (store w.mem ctx.topicData 8 (w.reg .r10))) := by
    have hsplit : prepareCode t ctx payload =
        (emitMovDataAddressToRax ctx.topicData++locateSlot t.layout .rax)++(payload++
          (emitMovDataAddressToRax ctx.topicData++emitMfence++
            emitStoreMemFromReg .rax t.layout.headOffset.toNat .r10 64)) := by
      simp [prepareCode]
    rw [hsplit, run_append_some hu, run_append_some hw, hlast]
  -- the slot's words lie in the ring
  have hring : ∀ k n, k+n ≤ t.slotBytes → ∀ x,
      InRange x (u.reg .r11+BitVec.ofNat 64 k) n → InRing t ctx x := by
    intro k n hk x hx
    rw [hr11, add_ofNat_add, add_assoc (128+128*t.subscribers), ← add_ofNat_add] at hx
    exact hx.shift (by omega)
  have hu_mem : ∀ x, ¬ InRing t ctx x → u.mem x = s.mem x := by
    intro x hx
    rw [hmem]
    apply store_outside
    intro hin
    refine hx (hring 0 8 (by omega) x ?_)
    rwa [BitVec.add_zero]
  refine ⟨_,payloadTarget frame value u,hrun,?_,?_,?_,?_,?_,?_⟩
  · simp
  · simp only [State.setMem_reg, State.setReg_reg]
    rw [Function.update_of_ne (by decide), hwregs .r10 (by decide), hr10]
  · intro x hhead hx htarget
    simp only [State.setMem_mem]
    rw [store_outside hhead, hwmem x htarget, hu_mem x hx]
  · intro hm x hx
    rw [payloadTarget, if_neg hm] at hx
    exact hring 8 value.type.storageSize (by omega) x hx
  · intro hm hslotFree
    have haddress : u.address .rbp (disp32 ((frame.slots value.id).getD 0)) =
        s.address .rbp (disp32 ((frame.slots value.id).getD 0)) := by
      rw [State.address, State.address, hregs .rbp (by decide)]
    rw [payloadTarget, if_pos hm, haddress]
    exact load_frame fun x hx => hu_mem x (hslotFree x hx)
  · intro hm hhead hx
    simp only [State.setMem_mem]
    rw [store_outside hhead, hwfirst hm, hu_mem _ hx]

end

/-! ## One subscriber -/

section
variable (apic : LocalApic) {m : Machine} {offset : ℕ} (wake : Routine)

theorem run_loadWaitline (hoffset : offset < 2^31) :
    ∃ u, run s (emitLoadMemToReg .r11 .rax offset 64++emitMovImmToReg .rdi (-1)++
        emitCmpRegReg .r11 .rdi) = some u ∧ Changes s u [.r11,.rdi] ∧
      u.reg .r11 = load s.mem (s.reg .rax+BitVec.ofNat 64 offset) 8 ∧
      u.flags = some (subFlags (u.reg .r11) (-1)) := by
  have haddress : s.address .rax (disp32 (offset : ℤ)) = s.reg .rax+BitVec.ofNat 64 offset := by
    rw [address_disp32 _ _ (by omega) (by omega)]
    rfl
  refine ⟨_,rfl,⟨rfl,fun r hr => ?_⟩,?_,?_⟩
  · simp only [mem_cons, not_mem_nil, or_false, not_or] at hr
    simp [hr.1, hr.2]
  · simp [writeLow_eight, haddress]
  · simp

theorem run_compareSequence :
    ∃ u, run s (emitCmpRegReg .r10 .r11) = some u ∧ Changes s u [] ∧
      u.flags = some (subFlags (s.reg .r10) (s.reg .r11)) := by
  refine ⟨_,rfl,⟨rfl,fun r _ => ?_⟩,rfl⟩
  by_cases h : r = .r10
  · subst h
    simp
  · simp [h]

/-- A waitline that is disarmed, or armed with the number in r10, is passed over. -/
theorem touch_skip (hoffset : offset < 2^31)
    (h : load m.cpu.mem (m.cpu.reg .rax+BitVec.ofNat 64 offset) 8 = -1 ∨
      load m.cpu.mem (m.cpu.reg .rax+BitVec.ofNat 64 offset) 8 = m.cpu.reg .r10) :
    ∃ u, (touchWaitline .rax .r10 offset wake).Runs apic m ⟨u,m.sent,m.pending⟩ ∧
      Changes m.cpu u [.r11,.rdi] := by
  obtain ⟨u,hu,hchanges,hr11,hflags⟩ := run_loadWaitline m.cpu hoffset
  by_cases hdisarmed : u.reg .r11 = -1
  · have hholds := (holds_equal (u.reg .r11) (-1)).mpr hdisarmed
    exact ⟨u,.seq (.block hu) (.taken hflags hholds (.block rfl)),hchanges⟩
  · have hsame : u.reg .r10 = u.reg .r11 := by
      rw [hchanges.reg .r10 (by decide), hr11]
      exact (h.resolve_left (hr11 ▸ hdisarmed)).symm
    obtain ⟨w,hw,hchanges',hflags'⟩ := run_compareSequence u
    have hholds : holds 0x84 (subFlags (u.reg .r11) (-1)) = false :=
      Bool.eq_false_iff.mpr ((holds_equal _ _).not.mpr hdisarmed)
    refine ⟨w,.seq (.block hu) (.other hflags hholds (.seq (.block hw) (.taken hflags' ?_ (.block rfl)))),
      (hchanges.trans hchanges').mono (by simp)⟩
    exact (holds_equal _ _).mpr hsame

/-- A waitline armed with another number is set to the one in r10 before the
slot is woken. -/
theorem touch_hit (hoffset : offset < 2^31)
    (hdisarmed : load m.cpu.mem (m.cpu.reg .rax+BitVec.ofNat 64 offset) 8 ≠ -1)
    (hother : load m.cpu.mem (m.cpu.reg .rax+BitVec.ofNat 64 offset) 8 ≠ m.cpu.reg .r10) :
    ∃ u, (∀ r ∉ [Reg.r11,.rdi], u.reg r = m.cpu.reg r) ∧
      u.mem = store m.cpu.mem (m.cpu.reg .rax+BitVec.ofNat 64 offset) 8 (m.cpu.reg .r10) ∧
      ∀ m', wake.Runs apic ⟨u,m.sent,m.pending⟩ m' →
        (touchWaitline .rax .r10 offset wake).Runs apic m m' := by
  obtain ⟨u,hu,hchanges,hr11,hflags⟩ := run_loadWaitline m.cpu hoffset
  obtain ⟨w,hw,hchanges',hflags'⟩ := run_compareSequence u
  have hregs : ∀ r ∉ [Reg.r11,.rdi], w.reg r = m.cpu.reg r := by
    intro r hr
    rw [hchanges'.reg r not_mem_nil, hchanges.reg r hr]
  have hholds : holds 0x84 (subFlags (u.reg .r11) (-1)) = false :=
    Bool.eq_false_iff.mpr ((holds_equal _ _).not.mpr (hr11 ▸ hdisarmed))
  have hholds' : holds 0x84 (subFlags (u.reg .r10) (u.reg .r11)) = false := by
    refine Bool.eq_false_iff.mpr ((holds_equal _ _).not.mpr fun heq => hother ?_)
    rw [← hr11, ← heq, hchanges.reg .r10 (by decide)]
  have haddress : w.address .rax (disp32 (offset : ℤ)) = m.cpu.reg .rax+BitVec.ofNat 64 offset := by
    rw [address_disp32 _ _ (by omega) (by omega), addr, hregs .rax (by decide)]
    rfl
  have hstore : run w (emitStoreMemFromReg .rax offset .r10 64) =
      some (w.setMem (store w.mem (w.address .rax (disp32 (offset : ℤ))) 8 (w.reg .r10))) := rfl
  refine ⟨w.setMem (store w.mem (w.address .rax (disp32 (offset : ℤ))) 8 (w.reg .r10)),hregs,?_,
    fun m' hwake => .seq (.block hu) (.other hflags hholds (.seq (.block hw)
      (.other hflags' hholds' (.seq (.block hstore) hwake))))⟩
  rw [State.setMem_mem, haddress, hregs .r10 (by decide), hchanges'.mem, hchanges.mem]

end

end Wrela.WakeCode

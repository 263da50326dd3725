import Wrela.Topic.FanOut

/-!
# Publishes with their wake-ups

A publish does what it should for at most one subscriber and a payload that is
not copied through r11. From the second subscriber on the loop goes on with the
registers that the first wake-up has left.
-/

set_option autoImplicit false

namespace Wrela.WakeCode
open X86 TopicData Codegen List Option

variable {t : Topic} {ctx : CompileContext} {apic : LocalApic} {ids : ℕ → Word} {frame : Frame}
  {value : Value} {target : Word} {x : Word} {label : String}
  {subscriber : TopicDataSubscriberLayout} {vcpuID : ℕ} {code : Routine} {mem : Mem} {m : Machine}

section
variable {m : Machine} {label : String} {vcpuID offset : ℕ}

theorem vcpuOf_mem (h : ctx.vcpuOf label = some vcpuID) : (label,vcpuID) ∈ ctx.slotVcpu := by
  rw [CompileContext.vcpuOf, map_eq_some_iff] at h
  obtain ⟨p,hp,rfl⟩ := h
  have hlabel : p.1 = label := by simpa using find?_some hp
  exact hlabel ▸ mem_of_find?_eq_some hp

/-- The data a turn reads lies outside of what it writes. -/
structure Steady (ctx : CompileContext) (waitline : Word) : Prop where
  base : Disjoint ctx.localApicBase 8 waitline 8
  id : ∀ p ∈ ctx.slotVcpu, Disjoint (ctx.vcpuAPICIDCommand p.2) 8 waitline 8

/-- A turn that finds its waitline armed with another number. -/
structure Hit (ctx : CompileContext) (apic : LocalApic) (ids : ℕ → Word) (label : String)
    (vcpuID : ℕ) (waitline : Word) (m m' : Machine) : Prop where
  rax : m'.cpu.reg .rax = leftInRax ctx.apicMode apic (ids vcpuID)
  r10 : m'.cpu.reg .r10 = leftInR10 ctx.apicMode apic (ids vcpuID)
  mem : ∀ x, ¬ InRange x apic.base 0x1000 → ¬ InMwaitLine ctx label x →
    m'.cpu.mem x = store m.cpu.mem waitline 8 (m.cpu.reg .r10) x
  sent : m'.sent = ⟨ids vcpuID,wakeVector⟩::m.sent

theorem turn_hit (hplaced : Placed t ctx apic) (hstarted : Started ctx apic ids m.cpu.mem)
    (hv : ctx.vcpuOf label = some vcpuID) (hfits : IdFits ctx.apicMode apic (ids vcpuID))
    (hoffset : offset < 2^31) (hsteady : Steady ctx (m.cpu.reg .rax+BitVec.ofNat 64 offset))
    (hdisarmed : load m.cpu.mem (m.cpu.reg .rax+BitVec.ofNat 64 offset) 8 ≠ -1)
    (hother : load m.cpu.mem (m.cpu.reg .rax+BitVec.ofNat 64 offset) 8 ≠ m.cpu.reg .r10) :
    ∃ m', (touchWaitline .rax .r10 offset (wakeVcpu ctx label vcpuID)).Runs apic m m' ∧
      Hit ctx apic ids label vcpuID (m.cpu.reg .rax+BitVec.ofNat 64 offset) m m' := by
  have hp := vcpuOf_mem hv
  obtain ⟨u,_,hmem,hturn⟩ := touch_hit apic (wakeVcpu ctx label vcpuID) hoffset hdisarmed hother
  have hbase : load u.mem ctx.localApicBase 8 = apic.base := by
    rw [hmem, load_store_other hsteady.base, hstarted.base]
  have hid : load u.mem (ctx.vcpuAPICIDCommand vcpuID) 8 =
      apicIdCommand ctx.apicMode (ids vcpuID) := by
    rw [hmem, load_store_other (hsteady.id _ hp), hstarted.id _ hp]
  have hline : ∀ x, InMwaitLine ctx label x → ¬ InRange x ctx.localApicBase 8 ∧
      ¬ InRange x (ctx.vcpuAPICIDCommand vcpuID) 8 :=
    fun x hx => ⟨hplaced.lineBase _ hp x hx.2,hplaced.lineId _ hp _ hp x hx.2⟩
  obtain ⟨m',hruns,hwoken⟩ := wake_spec (m := ⟨u,m.sent,m.pending⟩) hbase hid hfits hline
  refine ⟨m',hturn m' hruns,hwoken.rax,hwoken.r10,fun x hapic hin => ?_,hwoken.sent⟩
  rw [hwoken.mem x hapic hin, hmem]

end

/-! ## The code of the loop -/

section

variable {layout : TopicDataLayout}

theorem lookup_of_mem (h : label ∈ layout.subscribers.map TopicDataSubscriberLayout.label) :
    ∃ subscriber ∈ layout.subscribers, topicSubscriberLayoutByLabel layout label = some subscriber := by
  obtain ⟨s,hs,rfl⟩ := List.mem_map.mp h
  cases hfind : topicSubscriberLayoutByLabel layout s.label with
  | none => exact absurd (find?_eq_none.mp hfind s hs) (by simp)
  | some subscriber => exact ⟨subscriber,mem_of_find?_eq_some hfind,rfl⟩

theorem emitTouch_cons {base seq : Reg} {labels : List String}
    (hlookup : topicSubscriberLayoutByLabel layout label = some subscriber)
    (hv : ctx.vcpuOf label = some vcpuID) :
    emitTouchSubscriberWaitlinesAndWakeSkippingVcpu layout base seq ctx none (label::labels) =
      (emitTouchSubscriberWaitlinesAndWakeSkippingVcpu layout base seq ctx none labels).map
        (.seq (touchWaitline base seq subscriber.waitlineOffset.toNat (wakeVcpu ctx label vcpuID))) := by
  simp only [emitTouchSubscriberWaitlinesAndWakeSkippingVcpu, hlookup, hv, reduceCtorEq, and_false,
    if_false, emitWakeSlot]
  cases emitTouchSubscriberWaitlinesAndWakeSkippingVcpu layout base seq ctx none labels <;> rfl

theorem emitTouch_ok (base seq : Reg) (labels : List String)
    (hlabels : ∀ label ∈ labels, label ∈ layout.subscribers.map TopicDataSubscriberLayout.label)
    (hplaced : ∀ label ∈ labels, (ctx.vcpuOf label).isSome) :
    ∃ code, emitTouchSubscriberWaitlinesAndWakeSkippingVcpu layout base seq ctx none labels =
      .ok code := by
  induction labels with
  | nil => exact ⟨_,rfl⟩
  | cons label labels ih =>
    rw [forall_mem_cons] at hlabels hplaced
    obtain ⟨subscriber,-,hlookup⟩ := lookup_of_mem hlabels.1
    obtain ⟨vcpuID,hv⟩ := isSome_iff_exists.mp hplaced.1
    obtain ⟨code,hcode⟩ := ih hlabels.2 hplaced.2
    exact ⟨_,by rw [emitTouch_cons hlookup hv, hcode]; rfl⟩

theorem emitTopicPublish_ok {frame : Frame} {value : Value} :
    emitTopicPublish t.layout frame value ctx = .ok code ↔ ∃ payload wake,
      emitCopyValueToMemoryRange frame value .r11 8 value.type.storageSize = .ok payload ∧
      emitTouchSubscriberWaitlinesAndWakeSkippingVcpu t.layout .rax .r10 ctx none
        (t.layout.subscribers.map TopicDataSubscriberLayout.label) = .ok wake ∧
      code = .seq (.block (prepareCode t ctx payload)) wake := by
  rw [emitTopicPublish]
  cases emitCopyValueToMemoryRange frame value .r11 8 value.type.storageSize with
  | error e => exact ⟨fun h => (nomatch h),fun ⟨_,_,h,_⟩ => (nomatch h)⟩
  | ok payload =>
    cases emitTouchSubscriberWaitlinesAndWakeSkippingVcpu t.layout .rax .r10 ctx none
        (t.layout.subscribers.map TopicDataSubscriberLayout.label) with
    | error e => exact ⟨fun h => (nomatch h),fun ⟨_,_,_,h,_⟩ => (nomatch h)⟩
    | ok wake =>
      refine ⟨fun h => ⟨payload,wake,rfl,rfl,(Except.ok.inj h).symm⟩,?_⟩
      rintro ⟨_,_,⟨⟩,⟨⟩,rfl⟩
      rfl

end

/-! ## At most one subscriber -/

section
variable {s u : State} {subscriber : TopicDataSubscriberLayout}

theorem Started.of_frame {mem' : Mem} (h : Started ctx apic ids mem) (hplaced : Placed t ctx apic)
    (hmem : ∀ x, ¬ InRange x ctx.topicData t.layout.totalSize.toNat → mem' x = mem x) :
    Started ctx apic ids mem' := by
  refine ⟨?_,fun p hp => ?_⟩
  · rw [← h.base]
    exact load_frame fun x hx => hmem x (hplaced.baseBlock x hx)
  · rw [← h.id p hp]
    exact load_frame fun x hx => hmem x (hplaced.idBlock p hp x hx)

variable (hsize : t.blockSize ≤ 2^31)

include hsize

theorem ring_in_block (h : InRing t ctx x) : InRange x ctx.topicData t.layout.totalSize.toNat := by
  rw [(t.planned_of_le hsize).total, Topic.blockSize]
  exact InRange.shift h (le_refl _)

theorem head_in_block (h : InRange x ctx.topicData 8) :
    InRange x ctx.topicData t.layout.totalSize.toNat := by
  rw [(t.planned_of_le hsize).total, Topic.blockSize]
  exact h.mono (by omega)

section
variable (h : subscriber ∈ t.layout.subscribers)
include h

theorem waitlineOffset_lt :
    ∃ i < t.subscribers, subscriber.waitlineOffset.toNat = 128+128*i+64 := by
  obtain ⟨i,hi,hget⟩ := getElem_of_mem h
  exact ⟨i,hi,(t.planned_of_le hsize).waitline i subscriber (by rw [getElem?_eq_getElem hi, hget])⟩

theorem waitline_in_block (hx : InRange x (waitlineOf ctx subscriber) 8) :
    InRange x ctx.topicData t.layout.totalSize.toNat := by
  obtain ⟨i,hi,hoffset⟩ := waitlineOffset_lt hsize h
  rw [(t.planned_of_le hsize).total, Topic.blockSize]
  exact hx.shift (by omega)

theorem steady_waitline (hplaced : Placed t ctx apic) : Steady ctx (waitlineOf ctx subscriber) :=
  ⟨fun x hx hin => hplaced.baseBlock x hx (waitline_in_block hsize h hin),
    fun p hp x hx hin => hplaced.idBlock p hp x hx (waitline_in_block hsize h hin)⟩

theorem waitline_apart (hx : InRange x (waitlineOf ctx subscriber) 8) :
    ¬ InRange x ctx.topicData 8 ∧ ¬ InRing t ctx x := by
  obtain ⟨i,hi,hoffset⟩ := waitlineOffset_lt hsize h
  have hblock : 128+128*t.subscribers+t.depth*t.slotBytes ≤ 2^31 := hsize
  rw [waitlineOf, inRange_add_iff (by omega)] at hx
  refine ⟨fun hhead => ?_,fun hring => ?_⟩
  · rw [InRange] at hhead
    omega
  · rw [InRing, inRange_add_iff (by omega)] at hring
    omega

end

section
variable (h : Prepared t ctx frame value s u target) (hm : ¬ Misdirects value)
include h hm

theorem Prepared.outside
    (hx : ¬ InRange x ctx.topicData t.layout.totalSize.toNat) : u.mem x = s.mem x :=
  h.mem x (fun hin => hx (head_in_block hsize hin)) (fun hin => hx (ring_in_block hsize hin))
    fun hin => hx (ring_in_block hsize (h.inside hm x hin))

theorem Prepared.waitline (hs : subscriber ∈ t.layout.subscribers) :
    load u.mem (waitlineOf ctx subscriber) 8 = load s.mem (waitlineOf ctx subscriber) 8 := by
  refine load_frame fun x hx => ?_
  obtain ⟨hhead,hring⟩ := waitline_apart hsize hs hx
  exact h.mem x hhead hring fun hin => hring (h.inside hm x hin)

end

theorem fannedOut_quiet (hm : ¬ Misdirects value)
    (hu : Prepared t ctx frame value m.cpu u target) {w : State} (hw : w.mem = u.mem)
    (hnone : ∀ subscriber ∈ t.layout.subscribers, ¬ Armed t ctx m subscriber) :
    FannedOut t ctx apic ids m ⟨w,m.sent,m.pending⟩ := by
  refine ⟨fun subscriber hs harmed => absurd harmed (hnone subscriber hs),
    ⟨[],rfl,fun subscriber hs harmed => absurd harmed (hnone subscriber hs)⟩,fun subscriber hs _ => ?_,
    fun x hx => ?_⟩
  · rw [hw]
    exact hu.waitline hsize hm hs
  · rw [hw]
    exact hu.outside hsize hm fun hin => hx (.inl hin)

theorem fannedOut_hit {m' : Machine} (hm : ¬ Misdirects value) (hplaced : Placed t ctx apic)
    (hsubs : t.layout.subscribers = [subscriber]) (hv : ctx.vcpuOf subscriber.label = some vcpuID)
    (harmed : Armed t ctx m subscriber) (hu : Prepared t ctx frame value m.cpu u target)
    (hhit : Hit ctx apic ids subscriber.label vcpuID (waitlineOf ctx subscriber)
      ⟨u,m.sent,m.pending⟩ m') : FannedOut t ctx apic ids m m' := by
  have hmem : subscriber ∈ t.layout.subscribers := hsubs ▸ mem_singleton_self _
  have honly : ∀ s ∈ t.layout.subscribers, s = subscriber := by
    intro s hs
    rw [hsubs] at hs
    exact mem_singleton.mp hs
  refine ⟨fun s hs _ => ?_,⟨[⟨ids vcpuID,wakeVector⟩],hhit.sent,fun s hs _ v hsv => ?_⟩,
    fun s hs hnot => absurd (honly s hs ▸ harmed) hnot,fun x hx => ?_⟩
  · rw [honly s hs]
    have hsame : load m'.cpu.mem (waitlineOf ctx subscriber) 8 =
        load (store u.mem (waitlineOf ctx subscriber) 8 (u.reg .r10)) (waitlineOf ctx subscriber) 8 := by
      refine load_frame fun x hx => hhit.mem x ?_ ?_
      · exact fun hin => hplaced.apicBlock x hin (waitline_in_block hsize hmem hx)
      · exact fun hin => hplaced.lineBlock _ (vcpuOf_mem hv) x hin.2 (waitline_in_block hsize hmem hx)
    rw [hsame, load_store _ (by decide), lowBytes_eight, hu.r10, newSequence_eq t ctx hsize]
  · rw [honly s hs, hv] at hsv
    rw [Option.some.inj hsv]
    exact mem_singleton_self _
  · have hapic : ¬ InRange x apic.base 0x1000 := fun hin => hx (.inr (.inr hin))
    have hline : ¬ InMwaitLine ctx subscriber.label x := fun hin => hx (.inr (.inl ⟨_,hmem,hin⟩))
    have hblock : ¬ InRange x ctx.topicData t.layout.totalSize.toNat := fun hin => hx (.inl hin)
    rw [hhit.mem x hapic hline, store_outside fun hin => hblock (waitline_in_block hsize hmem hin)]
    exact hu.outside hsize hm hblock

theorem publish_single (hvalue : t.layout.payloadSize.toNat = value.type.storageSize)
    (hm : ¬ Misdirects value) (hone : t.layout.subscribers.length ≤ 1)
    (hslots : ∀ subscriber ∈ t.layout.subscribers, (ctx.vcpuOf subscriber.label).isSome)
    (hplaced : Placed t ctx apic) (hstarted : Started ctx apic ids m.cpu.mem)
    (hfits : ∀ p ∈ ctx.slotVcpu, IdFits ctx.apicMode apic (ids p.2))
    (hcode : emitTopicPublish t.layout frame value ctx = .ok code) :
    ∃ m', code.Runs apic m m' ∧ FannedOut t ctx apic ids m m' := by
  obtain ⟨payload,wake,hpayload,hwake,rfl⟩ := emitTopicPublish_ok.mp hcode
  obtain ⟨u,target,hrun,hu⟩ := run_prepare ctx hsize hvalue hpayload m.cpu
  cases hsubs : t.layout.subscribers with
  | nil =>
    rw [hsubs] at hwake
    obtain rfl := Except.ok.inj hwake
    exact ⟨_,.seq (.block hrun) (.block rfl),
      fannedOut_quiet hsize hm hu rfl (by rw [hsubs]; exact fun _ h => nomatch h)⟩
  | cons subscriber rest =>
    obtain rfl : rest = [] := by
      rw [hsubs, length_cons] at hone
      exact eq_nil_of_length_eq_zero (by omega)
    have hmem : subscriber ∈ t.layout.subscribers := hsubs ▸ mem_singleton_self _
    have hlookup : topicSubscriberLayoutByLabel t.layout subscriber.label = some subscriber := by
      simp [topicSubscriberLayoutByLabel, hsubs]
    obtain ⟨vcpuID,hv⟩ := isSome_iff_exists.mp (hslots subscriber hmem)
    rw [hsubs, map_cons, map_nil, emitTouch_cons hlookup hv] at hwake
    obtain rfl := Except.ok.inj hwake
    obtain ⟨i,hi,hoffset⟩ := waitlineOffset_lt hsize hmem
    have hlt : subscriber.waitlineOffset.toNat < 2^31 := by
      have hblock : 128+128*t.subscribers+t.depth*t.slotBytes ≤ 2^31 := hsize
      omega
    have haddress : u.reg .rax+BitVec.ofNat 64 subscriber.waitlineOffset.toNat =
        waitlineOf ctx subscriber := by rw [hu.rax, waitlineOf]
    have hline := hu.waitline hsize hm hmem
    have hsequence : u.reg .r10 = newSequence t ctx m := by rw [hu.r10, newSequence_eq t ctx hsize]
    by_cases harmed : Armed t ctx m subscriber
    · obtain ⟨m',hruns,hhit⟩ := turn_hit (m := ⟨u,m.sent,m.pending⟩) hplaced
        (hstarted.of_frame hplaced fun x hx => hu.outside hsize hm hx) hv (hfits _ (vcpuOf_mem hv)) hlt
        (haddress ▸ steady_waitline hsize hmem hplaced) (by rw [haddress, hline]; exact harmed.1)
        (by rw [haddress, hline, hsequence]; exact harmed.2)
      rw [haddress] at hhit
      exact ⟨m',.seq (.block hrun) (.seq hruns (.block rfl)),
        fannedOut_hit hsize hm hplaced hsubs hv harmed hu hhit⟩
    · have hpassed : load u.mem (u.reg .rax+BitVec.ofNat 64 subscriber.waitlineOffset.toNat) 8 = -1 ∨
          load u.mem (u.reg .rax+BitVec.ofNat 64 subscriber.waitlineOffset.toNat) 8 = u.reg .r10 := by
        rw [haddress, hline, hsequence]
        by_contra hne
        exact harmed (not_or.mp hne)
      obtain ⟨w,hruns,hchanges⟩ := touch_skip apic (wakeVcpu ctx subscriber.label vcpuID)
        (m := ⟨u,m.sent,m.pending⟩) hlt hpassed
      refine ⟨_,.seq (.block hrun) (.seq hruns (.block rfl)),
        fannedOut_quiet hsize hm hu hchanges.mem ?_⟩
      rw [hsubs]
      exact forall_mem_singleton.mpr harmed

end

/-! ## A placement in which the rest of the loop goes astray -/

section
variable {mode : ApicMode} {slotVcpu : List (String × ℕ)} {u : State} {bound : ℕ}

def strayContext (mode : ApicMode) (slotVcpu : List (String × ℕ)) : CompileContext :=
  ⟨mode,slotVcpu,0x10000000000,0x40000000000,fun _ => 0x80000000000,fun _ => 0x2000000000⟩

def strayApic : LocalApic := ⟨0x1000000000,0,fun _ => 0⟩

/-- The address of the local APIC, and a handle with the object it points at; all
else is zero. -/
def strayMem : Mem :=
  store (store (store (fun _ => 0) 0x40000000000 8 0x1000000000) 0x100000000000 8 0x200000000000)
    0x200000000000 1 7

/-- The value's slot is where the handle lies. -/
def strayMachine (frame : Frame) (value : Value) : Machine where
  cpu := ⟨fun r => if r = .rbp then
    0x100000000000-(disp32 ((frame.slots value.id).getD 0)).signExtend 64 else 0,strayMem,none⟩
  sent := []
  pending := 0

theorem load_zero {a : Word} (h : ∀ x, InRange x a 8 → mem x = 0) : load mem a 8 = 0 :=
  (load_frame (m := fun _ => 0) h).trans (by simp [load])

variable {code : Routine}

theorem strayMem_low (h : x.toNat < 0x40000000000) : strayMem x = 0 := by
  have hbelow : ∀ (a : Word) (n : ℕ), 0x40000000000 ≤ a.toNat → a.toNat+n ≤ 2^64 → ¬ InRange x a n := by
    intro a n ha hn hin
    have := (hin.bounds hn).1
    omega
  rw [strayMem, store_outside (hbelow _ _ (by decide) (by decide)),
    store_outside (hbelow _ _ (by decide) (by decide)), store_outside (hbelow _ _ (by decide) (by decide))]

theorem apicIdCommand_zero : apicIdCommand mode 0 = 0 := by
  rw [apicIdCommand]
  split_ifs
  · rfl
  · rfl

variable (hctx : ctx = strayContext mode slotVcpu)

include hctx in
theorem started_stray
    (h : ∀ x : Word, 0x40000000000 ≤ x.toNat → x.toNat < 0x100000000000 → mem x = strayMem x) :
    Started ctx strayApic (fun _ => 0) mem := by
  subst hctx
  have hsame : ∀ a : Word, 0x40000000000 ≤ a.toNat → a.toNat+8 ≤ 0x100000000000 →
      load mem a 8 = load strayMem a 8 := by
    intro a ha ha'
    refine load_frame fun x hx => ?_
    have := hx.bounds (by omega)
    exact h x (by omega) (by omega)
  refine ⟨(hsame 0x40000000000 (by decide) (by decide)).trans (by decide),fun p _ => ?_⟩
  rw [apicIdCommand_zero]
  exact (hsame 0x80000000000 (by decide) (by decide)).trans (by decide)

theorem idFits_zero {apic : LocalApic} : IdFits mode apic 0 := by
  rw [IdFits]
  split_ifs
  · decide
  · decide

theorem leftInRax_zero {apic : LocalApic} : (leftInRax mode apic 0).toNat ≤ 0x40F0 := by
  rw [leftInRax]
  split_ifs
  · decide
  · decide

variable (hsize : t.blockSize ≤ 2^31)

include hsize

theorem waitlineOffset_small
    (h : subscriber ∈ t.layout.subscribers) : subscriber.waitlineOffset.toNat+8 < 2^31 := by
  obtain ⟨i,hi,hoffset⟩ := waitlineOffset_lt hsize h
  have hblock : 128+128*t.subscribers+t.depth*t.slotBytes ≤ 2^31 := hsize
  omega

include hctx

theorem stray_block (hx : InRange x ctx.topicData t.layout.totalSize.toNat) :
    2^40 ≤ x.toNat ∧ x.toNat < 2^41 := by
  have hstart : ctx.topicData.toNat = 2^40 := hctx ▸ rfl
  rw [(t.planned_of_le hsize).total] at hx
  have := hx.bounds (by omega)
  omega

theorem not_in_block (hx : 2^41 ≤ x.toNat) : ¬ InRange x ctx.topicData t.layout.totalSize.toNat :=
  fun hin => absurd (stray_block hctx hsize hin).2 (not_lt_of_ge hx)

theorem placed_stray : Placed t ctx strayApic := by
  subst hctx
  have htotal : t.layout.totalSize.toNat ≤ 2^31 := (t.planned_of_le hsize).total ▸ hsize
  have hblock : ∀ a : Word, 0x20000000000 ≤ a.toNat → a.toNat+8 ≤ 2^64 →
      Disjoint a 8 0x10000000000 t.layout.totalSize.toNat := by
    intro a ha ha'
    refine (disjoint_of_le ?_ ha').symm
    rw [show (0x10000000000 : Word).toNat = 0x10000000000 from rfl]
    omega
  have hbelow : ∀ (a : Word) (n : ℕ), a.toNat+n ≤ 0x10000000000 →
      Disjoint a n 0x10000000000 t.layout.totalSize.toNat := by
    intro a n ha
    refine disjoint_of_le ha ?_
    rw [show (0x10000000000 : Word).toNat = 0x10000000000 from rfl]
    omega
  exact ⟨hblock 0x40000000000 (by decide) (by decide),fun _ _ => hblock 0x80000000000 (by decide) (by decide),
    hbelow _ _ (by decide),disjoint_of_le (b := 0x40000000000) (by decide) (by decide),
    fun _ _ => disjoint_of_le (b := 0x80000000000) (by decide) (by decide),
    fun _ _ => hbelow 0x2000000000 8 (by decide),
    fun _ _ => disjoint_of_le (a := 0x2000000000) (b := 0x40000000000) (by decide) (by decide),
    fun _ _ _ _ => disjoint_of_le (a := 0x2000000000) (b := 0x80000000000) (by decide) (by decide)⟩

theorem stray_turn {offset : ℕ} (hlow : 2^38 ≤ bound) (hhigh : bound ≤ 2^42)
    (hoffset : offset+8 < 2^31) (hv : ctx.vcpuOf label = some vcpuID)
    (hrax : (m.cpu.reg .rax).toNat+2^32 ≤ bound)
    (hstarted : Started ctx strayApic (fun _ => 0) m.cpu.mem) :
    ∃ m', (touchWaitline .rax .r10 offset (wakeVcpu ctx label vcpuID)).Runs strayApic m m' ∧
      (m'.cpu.reg .rax).toNat+2^32 ≤ bound ∧
      ∀ x : Word, bound ≤ x.toNat → m'.cpu.mem x = m.cpu.mem x := by
  subst hctx
  generalize haddress : m.cpu.reg .rax+BitVec.ofNat 64 offset = waitline
  have hwaitline : waitline.toNat+8 ≤ bound := by
    rw [← haddress, BitVec.toNat_add, BitVec.toNat_ofNat]
    omega
  have habove : ∀ (a : Word) (n : ℕ), a.toNat+n ≤ bound → ∀ x : Word, bound ≤ x.toNat →
      ¬ InRange x a n := by
    intro a n ha x hx hin
    have := (hin.bounds (by omega)).2
    omega
  by_cases hpass : load m.cpu.mem waitline 8 = -1 ∨ load m.cpu.mem waitline 8 = m.cpu.reg .r10
  · obtain ⟨w,hruns,hchanges⟩ := touch_skip strayApic (wakeVcpu _ label vcpuID) (m := m)
      (show offset < 2^31 by omega) (haddress ▸ hpass)
    refine ⟨_,hruns,?_,fun x _ => congrFun hchanges.mem x⟩
    rwa [hchanges.reg .rax (by decide)]
  · obtain ⟨hdisarmed,hother⟩ := not_or.mp hpass
    have hsteady : Steady (strayContext mode slotVcpu) waitline := by
      refine ⟨(disjoint_of_le (b := 0x40000000000) ?_ (by decide)).symm,
        fun _ _ => (disjoint_of_le (b := 0x80000000000) ?_ (by decide)).symm⟩
      · exact hwaitline.trans hhigh
      · exact hwaitline.trans (hhigh.trans (by decide))
    subst haddress
    obtain ⟨m',hruns,hhit⟩ := turn_hit (placed_stray rfl hsize) hstarted hv idFits_zero (by omega) hsteady
      hdisarmed hother
    refine ⟨m',hruns,?_,fun x hx => ?_⟩
    · have hleft : (leftInRax mode strayApic 0).toNat ≤ 0x40F0 := leftInRax_zero
      rw [hhit.rax]
      change (leftInRax mode strayApic 0).toNat+2^32 ≤ bound
      omega
    · rw [hhit.mem x (habove _ _ (by rw [show strayApic.base.toNat = 2^36 from rfl]; omega) x hx)
        (fun hin => habove 0x2000000000 8 (by rw [show (0x2000000000 : Word).toNat = 2^37 from rfl]; omega)
          x hx hin.2),
        store_outside (habove _ _ hwaitline x hx)]

theorem stray_turns (hlow : 2^38 ≤ bound) (hhigh : bound ≤ 2^42) (labels : List String)
    (hlabels : ∀ label ∈ labels, label ∈ t.layout.subscribers.map TopicDataSubscriberLayout.label)
    (hslots : ∀ label ∈ labels, (ctx.vcpuOf label).isSome)
    (hcode : emitTouchSubscriberWaitlinesAndWakeSkippingVcpu t.layout .rax .r10 ctx none labels =
      .ok code) (hrax : (m.cpu.reg .rax).toNat+2^32 ≤ bound)
    (hmem : ∀ x : Word, 0x40000000000 ≤ x.toNat → x.toNat < 0x100000000000 →
      m.cpu.mem x = strayMem x) :
    ∃ m', code.Runs strayApic m m' ∧ ∀ x : Word, bound ≤ x.toNat → m'.cpu.mem x = m.cpu.mem x := by
  induction labels generalizing code m with
  | nil =>
    obtain rfl := Except.ok.inj hcode
    exact ⟨_,.block rfl,fun _ _ => rfl⟩
  | cons label labels ih =>
    rw [forall_mem_cons] at hlabels hslots
    obtain ⟨subscriber,hsub,hlookup⟩ := lookup_of_mem hlabels.1
    obtain ⟨vcpuID,hv⟩ := isSome_iff_exists.mp hslots.1
    obtain ⟨rest,hrest⟩ := emitTouch_ok .rax .r10 labels hlabels.2 hslots.2
    rw [emitTouch_cons hlookup hv, hrest] at hcode
    obtain rfl := Except.ok.inj hcode
    obtain ⟨m',hturn,hrax',hsame⟩ := stray_turn (m := m) hctx hsize hlow hhigh
      (waitlineOffset_small hsize hsub) hv hrax (started_stray hctx hmem)
    obtain ⟨m'',hruns,hsame'⟩ := ih hlabels.2 hslots.2 hrest hrax' fun x hx hx' => by
      rw [hsame x (by omega), hmem x hx hx']
    refine ⟨m'',.seq hturn hruns,fun x hx => ?_⟩
    rw [hsame' x hx, hsame x hx]

theorem stray_target (hm : Misdirects value)
    (hu : Prepared t ctx frame value (strayMachine frame value).cpu u target) :
    target = 0x200000000000 := by
  have haddress : (strayMachine frame value).cpu.address .rbp
      (disp32 ((frame.slots value.id).getD 0)) = 0x100000000000 := by
    exact BitVec.sub_add_cancel _ _
  rw [hu.handle hm, haddress]
  · change load strayMem 0x100000000000 8 = 0x200000000000
    decide
  · intro x hx hin
    rw [haddress] at hx
    have hslot := (hx.bounds (by decide)).1
    have hring := (stray_block hctx hsize (ring_in_block hsize hin)).2
    rw [show (0x100000000000 : Word).toNat = 2^44 from rfl] at hslot
    omega

variable (hvalue : t.layout.payloadSize.toNat = value.type.storageSize)

include hvalue

section
variable
    (hu : Prepared t ctx frame value (strayMachine frame value).cpu u target)

include hu

theorem stray_prepared (hx : x.toNat < 2^45) (hhead : ¬ InRange x ctx.topicData 8)
    (hring : ¬ InRing t ctx x) : u.mem x = strayMem x := by
  refine hu.mem x hhead hring fun hin => ?_
  by_cases hm : Misdirects value
  · rw [stray_target hctx hsize hm hu] at hin
    have hblock : 128+128*t.subscribers+t.depth*t.slotBytes ≤ 2^31 := hsize
    have hslot := Nat.le_mul_of_pos_left t.slotBytes t.depth_pos
    have hroom := slotBytes_ge t
    have hstart : (0x200000000000+8 : Word).toNat = 2^45+8 := rfl
    have := (hin.bounds (by omega)).1
    omega
  · exact hring (hu.inside hm x hin)

theorem stray_waitline (h : subscriber ∈ t.layout.subscribers)
    (hx : InRange x (waitlineOf ctx subscriber) 8) :
    2^40 ≤ x.toNat ∧ x.toNat < 2^41 ∧ strayMem x = 0 ∧ u.mem x = 0 := by
  obtain ⟨hlow,hhigh⟩ := stray_block hctx hsize (waitline_in_block hsize h hx)
  have hzero : strayMem x = 0 := strayMem_low (by omega)
  obtain ⟨hhead,hring⟩ := waitline_apart hsize h hx
  exact ⟨hlow,hhigh,hzero,(stray_prepared hctx hsize hvalue hu (by omega) hhead hring).trans hzero⟩

theorem stray_data (hx : 0x40000000000 ≤ x.toNat) (hx' : x.toNat < 0x100000000000) :
    u.mem x = strayMem x := by
  have hblock := not_in_block hctx hsize (show 2^41 ≤ x.toNat by omega)
  exact stray_prepared hctx hsize hvalue hu (by omega) (fun hin => hblock (head_in_block hsize hin))
    fun hin => hblock (ring_in_block hsize hin)

end

theorem stray_misdirected (hm : Misdirects value)
    (hslots : ∀ subscriber ∈ t.layout.subscribers, (ctx.vcpuOf subscriber.label).isSome)
    (hcode : emitTopicPublish t.layout frame value ctx = .ok code) :
    ∃ m', code.Runs strayApic (strayMachine frame value) m' ∧
      ¬ FannedOut t ctx strayApic (fun _ => 0) (strayMachine frame value) m' := by
  obtain ⟨payload,wake,hpayload,hwake,rfl⟩ := emitTopicPublish_ok.mp hcode
  obtain ⟨u,target,hrun,hu⟩ := run_prepare ctx hsize hvalue hpayload (strayMachine frame value).cpu
  obtain rfl := stray_target hctx hsize hm hu
  have hrax : (u.reg .rax).toNat = 2^40 := by
    rw [hu.rax, hctx]
    rfl
  obtain ⟨m',hruns,hsame⟩ := stray_turns (m := ⟨u,[],0⟩) hctx hsize (show 2^38 ≤ 2^41 by omega)
    (by omega) _ (fun _ h => h) (List.forall_mem_map.mpr hslots) hwake (by rw [hrax]; omega)
    fun x hx hx' => stray_data hctx hsize hvalue hu hx hx'
  refine ⟨m',.seq (.block hrun) hruns,fun hout => ?_⟩
  have hcopied : m'.cpu.mem (0x200000000000+8) = 7 := by
    rw [hsame _ (by decide),
      hu.first hm (fun hin => not_in_block hctx hsize (by decide) (head_in_block hsize hin))
        fun hin => not_in_block hctx hsize (by decide) (ring_in_block hsize hin)]
    exact (show strayMem 0x200000000000 = 7 by decide)
  have hkept : m'.cpu.mem (0x200000000000+8) = strayMem (0x200000000000+8) := by
    refine hout.frame _ ?_
    rintro (hin | ⟨_,_,_,hin⟩ | hin)
    · exact not_in_block hctx hsize (by decide) hin
    · subst hctx
      exact absurd hin (show ¬ InRange (0x200000000000+8 : Word) 0x2000000000 8 by decide)
    · exact absurd hin (by decide)
  rw [hcopied] at hkept
  exact absurd hkept (by decide)

theorem stray_first {first : TopicDataSubscriberLayout} (hfirst : first ∈ t.layout.subscribers)
    (hv : ctx.vcpuOf first.label = some vcpuID)
    (hu : Prepared t ctx frame value (strayMachine frame value).cpu u target) :
    ∃ m', (touchWaitline .rax .r10 first.waitlineOffset.toNat
        (wakeVcpu ctx first.label vcpuID)).Runs strayApic ⟨u,[],0⟩ m' ∧
      (m'.cpu.reg .rax).toNat ≤ 0x40F0 ∧
      ∀ x : Word, 2^39 ≤ x.toNat → ¬ InRange x (waitlineOf ctx first) 8 →
        m'.cpu.mem x = u.mem x := by
  have haddress : u.reg .rax+BitVec.ofNat 64 first.waitlineOffset.toNat = waitlineOf ctx first := by
    rw [hu.rax, waitlineOf]
  have hempty : load u.mem (waitlineOf ctx first) 8 = 0 :=
    load_zero fun x hx => (stray_waitline hctx hsize hvalue hu hfirst hx).2.2.2
  have hplaced : Placed t ctx strayApic := placed_stray hctx hsize
  have hsmall := waitlineOffset_small hsize hfirst
  have hstarted := started_stray hctx fun x hx hx' => stray_data hctx hsize hvalue hu hx hx'
  subst hctx
  have hr10 : u.reg .r10 = 1 := hu.r10.trans (show load strayMem 0x10000000000 8+1 = 1 by decide)
  obtain ⟨m',hruns,hhit⟩ := turn_hit (m := ⟨u,[],0⟩) hplaced hstarted hv idFits_zero (by omega)
    (haddress ▸ steady_waitline hsize hfirst hplaced) (by rw [haddress, hempty]; decide)
    (by rw [haddress, hempty, hr10]; decide)
  rw [haddress] at hhit
  refine ⟨m',hruns,?_,fun x hx hout => ?_⟩
  · rw [hhit.rax]
    exact leftInRax_zero
  · rw [hhit.mem x (fun hin => ?_) (fun hin => ?_), store_outside hout]
    · have hend := (hin.bounds (by decide)).2
      rw [show strayApic.base.toNat = 2^36 from rfl] at hend
      omega
    · have hend := (InRange.bounds (a := 0x2000000000) hin.2 (by decide)).2
      rw [show (0x2000000000 : Word).toNat = 2^37 from rfl] at hend
      omega

theorem stray_second (htwo : 2 ≤ t.layout.subscribers.length)
    (hslots : ∀ subscriber ∈ t.layout.subscribers, (ctx.vcpuOf subscriber.label).isSome)
    (hcode : emitTopicPublish t.layout frame value ctx = .ok code) :
    ∃ m', code.Runs strayApic (strayMachine frame value) m' ∧ ∃ second ∈ t.layout.subscribers,
      Armed t ctx (strayMachine frame value) second ∧
      newSequence t ctx (strayMachine frame value) = 1 ∧
      load m'.cpu.mem (waitlineOf ctx second) 8 = 0 := by
  obtain ⟨payload,wake,hpayload,hwake,rfl⟩ := emitTopicPublish_ok.mp hcode
  obtain ⟨u,target,hrun,hu⟩ := run_prepare ctx hsize hvalue hpayload (strayMachine frame value).cpu
  obtain ⟨first,second,rest,hsubs⟩ : ∃ first second rest,
      t.layout.subscribers = first::second::rest := by
    match hsubs : t.layout.subscribers, htwo with
    | first::second::rest, _ => exact ⟨first,second,rest,rfl⟩
  have hfirst : first ∈ t.layout.subscribers := by simp [hsubs]
  have hsecond : second ∈ t.layout.subscribers := by simp [hsubs]
  -- the two waitlines lie 128 bytes apart
  have happart : ∀ x, InRange x (waitlineOf ctx second) 8 →
      ¬ InRange x (waitlineOf ctx first) 8 := by
    have hoffset := (t.planned_of_le hsize).waitline 0 first (by simp [hsubs])
    have hoffset' := (t.planned_of_le hsize).waitline 1 second (by simp [hsubs])
    intro x hx hin
    rw [waitlineOf, inRange_add_iff (by omega)] at hx hin
    omega
  obtain ⟨vcpuID,hv⟩ := isSome_iff_exists.mp (hslots first hfirst)
  have hlookup : topicSubscriberLayoutByLabel t.layout first.label = some first := by
    simp [topicSubscriberLayoutByLabel, hsubs]
  have hlabels : ∀ label ∈ (second::rest).map TopicDataSubscriberLayout.label,
      label ∈ t.layout.subscribers.map TopicDataSubscriberLayout.label := by
    rw [hsubs]
    exact fun label h => mem_cons_of_mem _ h
  have hslots' : ∀ label ∈ (second::rest).map TopicDataSubscriberLayout.label,
      (ctx.vcpuOf label).isSome := by
    intro label h
    obtain ⟨subscriber,hs,rfl⟩ := List.mem_map.mp (hlabels label h)
    exact hslots subscriber hs
  obtain ⟨others,hothers⟩ := emitTouch_ok .rax .r10 _ hlabels hslots'
  rw [hsubs, map_cons, emitTouch_cons hlookup hv, hothers] at hwake
  obtain rfl := Except.ok.inj hwake
  obtain ⟨m₁,hturn,hrax,hkept⟩ := stray_first hctx hsize hvalue hfirst hv hu
  obtain ⟨m',hruns,hkept'⟩ := stray_turns (m := m₁) hctx hsize (show 2^38 ≤ 2^39 by omega)
    (by omega) _ hlabels hslots' hothers (by omega) fun x hx hx' => by
      have hout : ¬ InRange x (waitlineOf ctx first) 8 := fun hin => by
        have := (stray_waitline hctx hsize hvalue hu hfirst hin).2.1
        omega
      rw [hkept x (by omega) hout, stray_data hctx hsize hvalue hu hx hx']
  have hsequence : newSequence t ctx (strayMachine frame value) = 1 := by
    rw [newSequence_eq _ _ hsize, hctx]
    exact (show load strayMem 0x10000000000 8+1 = 1 by decide)
  have hbefore : load (strayMachine frame value).cpu.mem (waitlineOf ctx second) 8 =
      0 := load_zero fun x hx => (stray_waitline hctx hsize hvalue hu hsecond hx).2.2.1
  refine ⟨m',.seq (.block hrun) (.seq hturn hruns),second,hsecond,
    ⟨by rw [hbefore]; decide,by rw [hbefore, hsequence]; decide⟩,hsequence,load_zero fun x hx => ?_⟩
  obtain ⟨hlow,-,-,hzero⟩ := stray_waitline hctx hsize hvalue hu hsecond hx
  rw [hkept' x (by omega), hkept x (by omega) (happart x hx), hzero]

end

theorem publish_emitted {t : Topic} {ctx : CompileContext} {frame : Frame} {value : Value}
    (hslots : ∀ subscriber ∈ t.layout.subscribers, (ctx.vcpuOf subscriber.label).isSome)
    (hslot : (frame.slots value.id).isSome) :
    ∃ code, emitTopicPublish t.layout frame value ctx = .ok code := by
  obtain ⟨slot,hslot⟩ := isSome_iff_exists.mp hslot
  obtain ⟨payload,hpayload⟩ : ∃ payload,
      emitCopyValueToMemoryRange frame value .r11 8 value.type.storageSize = .ok payload := by
    rw [emitCopyValueToMemoryRange]
    split_ifs with hhandle
    · rw [emitValueAddress, hslot]
      simp only [if_pos hhandle.1]
      exact ⟨_,rfl⟩
    · rw [emitLoadValue, hslot]
      cases value.constInt with
      | none | some v => exact ⟨_,rfl⟩
  obtain ⟨wake,hwake⟩ : ∃ wake, emitTouchSubscriberWaitlinesAndWakeSkippingVcpu t.layout .rax .r10 ctx
      none (t.layout.subscribers.map TopicDataSubscriberLayout.label) = .ok wake :=
    emitTouch_ok .rax .r10 _ (fun _ h => h) (List.forall_mem_map.mpr hslots)
  exact ⟨_,emitTopicPublish_ok.mpr ⟨payload,wake,hpayload,hwake,rfl⟩⟩

/-- For a topic whose block the code can address, the publish code fans out from
every state of the machine exactly when there is at most one subscriber and the
payload is not copied through r11. -/
theorem publish_fans_out_iff (t : Topic) (hsize : t.blockSize ≤ 2^31) (mode : ApicMode)
    (slotVcpu : List (String × ℕ)) (frame : Frame) (value : Value)
    (hslots : ∀ subscriber ∈ t.layout.subscribers, ∃ p ∈ slotVcpu, p.1 = subscriber.label)
    (hslot : (frame.slots value.id).isSome)
    (hvalue : t.layout.payloadSize.toNat = value.type.storageSize) :
    (∀ (ctx : CompileContext) (apic : LocalApic) (ids : ℕ → Word) (m : Machine) (code : Routine),
      ctx.apicMode = mode → ctx.slotVcpu = slotVcpu → Placed t ctx apic →
      Started ctx apic ids m.cpu.mem → (∀ p ∈ slotVcpu, IdFits mode apic (ids p.2)) →
      emitTopicPublish t.layout frame value ctx = .ok code →
      ∃ m', code.Runs apic m m' ∧ FannedOut t ctx apic ids m m') ↔
    t.layout.subscribers.length ≤ 1 ∧ ¬ Misdirects value := by
  have hvcpu : ∀ ctx : CompileContext, ctx.slotVcpu = slotVcpu →
      ∀ subscriber ∈ t.layout.subscribers, (ctx.vcpuOf subscriber.label).isSome := by
    intro ctx hctx subscriber hs
    obtain ⟨p,hp,hlabel⟩ := hslots subscriber hs
    rw [CompileContext.vcpuOf, isSome_map, find?_isSome, hctx]
    exact ⟨p,hp,decide_eq_true hlabel⟩
  constructor
  · intro h
    have hslots' := hvcpu (strayContext mode slotVcpu) rfl
    obtain ⟨code,hcode⟩ := publish_emitted hslots' hslot
    obtain ⟨m',hruns,hout⟩ := h (strayContext mode slotVcpu) strayApic (fun _ => 0)
      (strayMachine frame value) code rfl rfl (placed_stray rfl hsize)
      (started_stray rfl fun _ _ _ => rfl)
      (fun _ _ => idFits_zero) hcode
    refine ⟨?_,fun hm => ?_⟩
    · by_contra hmany
      obtain ⟨m'',hruns',second,hsecond,harmed,hsequence,hafter⟩ :=
        stray_second rfl hsize hvalue (by omega) hslots' hcode
      have htouched := hout.touched second hsecond harmed
      rw [hruns.unique hruns', hafter, hsequence] at htouched
      exact absurd htouched (by decide)
    · obtain ⟨m'',hruns',hnot⟩ := stray_misdirected rfl hsize hvalue hm hslots' hcode
      exact hnot (hruns.unique hruns' ▸ hout)
  · rintro ⟨hone,hm⟩ ctx apic ids m code rfl hslotVcpu hplaced hstarted hfits hcode
    exact publish_single hsize hvalue hm hone (hvcpu ctx hslotVcpu) hplaced hstarted
      (hslotVcpu ▸ hfits) hcode

def oneReader : Topic where
  source := ⟨"ticks",.topic,4,8,8,["clock"],["reader"]⟩
  layout := planTopicData ⟨"ticks",.topic,4,8,8,["clock"],["reader"]⟩
  planned := rfl

def twoReaders : Topic where
  source := ⟨"ticks",.topic,4,8,8,["clock"],["left","right"]⟩
  layout := planTopicData ⟨"ticks",.topic,4,8,8,["clock"],["left","right"]⟩
  planned := rfl

def wordFrame : Frame := ⟨fun _ => some (-8),fun _ => none⟩

def wordValue : Value := ⟨0,.prim .u64,none⟩

theorem publish_fans_out_reader : ∃ code m',
    emitTopicPublish oneReader.layout wordFrame wordValue (strayContext .xapic [("reader",1)]) =
      .ok code ∧
    code.Runs strayApic (strayMachine wordFrame wordValue) m' ∧
    FannedOut oneReader (strayContext .xapic [("reader",1)]) strayApic (fun _ => 0)
      (strayMachine wordFrame wordValue) m' := by
  have hsize : oneReader.blockSize ≤ 2^31 := by decide
  obtain ⟨code,hcode⟩ := publish_emitted (t := oneReader)
    (show ∀ subscriber ∈ oneReader.layout.subscribers,
      ((strayContext .xapic [("reader",1)]).vcpuOf subscriber.label).isSome by decide)
    (show (wordFrame.slots wordValue.id).isSome from rfl)
  obtain ⟨m',hruns,hout⟩ := (publish_fans_out_iff oneReader hsize .xapic [("reader",1)] wordFrame
    wordValue (by decide) (by decide) (by decide)).mpr (by decide) _ strayApic (fun _ => 0)
    (strayMachine wordFrame wordValue) code rfl rfl (placed_stray rfl hsize)
    (started_stray rfl fun _ _ _ => rfl) (fun _ _ => idFits_zero) hcode
  exact ⟨code,m',hcode,hruns,hout⟩

/-- Both readers wait for a message; the publish reaches the first one only. -/
theorem publish_loses_second_reader : ∃ code m',
    emitTopicPublish twoReaders.layout wordFrame wordValue
      (strayContext .xapic [("left",1),("right",2)]) = .ok code ∧
    code.Runs strayApic (strayMachine wordFrame wordValue) m' ∧
    ∃ second ∈ twoReaders.layout.subscribers,
      Armed twoReaders (strayContext .xapic [("left",1),("right",2)])
        (strayMachine wordFrame wordValue) second ∧
      newSequence twoReaders (strayContext .xapic [("left",1),("right",2)])
        (strayMachine wordFrame wordValue) = 1 ∧
      load m'.cpu.mem (waitlineOf (strayContext .xapic [("left",1),("right",2)]) second) 8 = 0 := by
  have hslots : ∀ subscriber ∈ twoReaders.layout.subscribers,
      ((strayContext .xapic [("left",1),("right",2)]).vcpuOf subscriber.label).isSome := by decide
  obtain ⟨code,hcode⟩ := publish_emitted hslots (show (wordFrame.slots wordValue.id).isSome from rfl)
  obtain ⟨m',hruns,hsecond⟩ := stray_second rfl (by decide) (by decide) (by decide) hslots hcode
  exact ⟨code,m',hcode,hruns,hsecond⟩

end Wrela.WakeCode

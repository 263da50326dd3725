import Wrela.Codegen.EncoderSlot

/-!
# Encoders and the reference format

A call passes six parameters in registers; the home slots of the others, among
them the payload's length and the flags, are read as they are. So an encoder
writes the reference bytes exactly when those slots hold the arguments all the
same, every payload field has a primitive type, and no two fields share a name.
-/

set_option autoImplicit false

namespace Wrela.Codegen
open X86 Ir Sem StorageFormat List

def stackParams (layout : EventLayout) : List Value := (lowerEventEncoder layout).params.drop 6

/-- A call of an encoder with arguments `a`. The slot is not in the callee's
stack; `filled` are the parameters whose home slots hold their arguments although
the call does not put them there. -/
structure Called (layout : EventLayout) (filled : Value → Prop) (a : EncoderArgs) (s : State) :
    Prop where
  apart : Disjoint a.slot 512 (s.reg .rsp-BitVec.ofNat 64 (encoderFrameSize layout+16))
    (encoderFrameSize layout+16)
  registers : ∀ p ∈ (lowerEventEncoder layout).params.zip argRegs,
    lowBytes p.1.type.representationSize (s.reg p.2) =
      lowBytes p.1.type.representationSize (a.word p.1.id)
  stack : ∀ v ∈ stackParams layout, filled v → ∀ d, (encoderFrame layout).slots v.id = some d →
    load s.mem (s.reg .rsp-8+BitVec.ofInt 64 d) v.type.representationSize =
      lowBytes v.type.representationSize (a.word v.id)

/-- A call leaves the reference bytes in the slot, with a checksum that recovery
accepts. -/
def Encodes (enc : Encoding) (layout : EventLayout) (a : EncoderArgs) (s : State) (ret : Word) :
    Prop :=
  let slot := referenceSlot layout a s.mem
  ∃ code t, compileFunction (lowerEventEncoder layout) ret = .ok code ∧ Runs (Linked enc) code s t ∧
    (bytes t.mem a.slot 512).map UInt8.ofBitVec = slotBytes slot slot.header.checksum32 ∧
    slotChecksumValid slot

variable {n : ℕ} {w : Word}

section
variable {layout : EventLayout} {s : State} {v : Value} {d : ℤ}

theorem mem_stackParams : v ∈ stackParams layout ↔
    v = Encoder.payloadLength ∨ v = Encoder.flags ∨ v ∈ Encoder.payloadParams layout.payloadFields := by
  show v ∈ Encoder.payloadLength::Encoder.flags::_ ↔ _
  rw [mem_cons, mem_cons]
  exact Iff.rfl

theorem stackParams_valueOf (hv : v ∈ stackParams layout) :
    v = valueOf layout v.id ∧ v.constInt = none ∧ 6 ≤ v.id := by
  rcases mem_stackParams.mp hv with rfl | rfl | hv
  · exact ⟨rfl,rfl,by decide⟩
  · exact ⟨rfl,rfl,by decide⟩
  · refine ⟨valueOf_payload layout hv,?_⟩
    obtain ⟨i,f,-,rfl⟩ := mem_payloadParamsFrom.mp hv
    exact ⟨rfl,by simp [Encoder.param]; omega⟩

theorem stackParams_home (hv : v ∈ stackParams layout)
    (hd : (encoderFrame layout).slots v.id = some d) :
    -(encoderFrameSize layout:ℤ) ≤ d ∧ d+v.type.representationSize ≤ -40 := by
  obtain ⟨hval,-,-⟩ := stackParams_valueOf hv
  obtain ⟨h1,-,h3⟩ := slot_bounds layout hval hd
  refine ⟨h1,?_⟩
  rcases mem_stackParams.mp hv with rfl | rfl | hv
  · obtain rfl : d = -44 := Option.some.inj (hd.symm.trans (slots_header layout (by decide)))
    decide
  · obtain rfl : d = -48 := Option.some.inj (hd.symm.trans (slots_header layout (by decide)))
    decide
  · obtain ⟨i,f,-,rfl⟩ := mem_payloadParamsFrom.mp hv
    have := h3 (by simp [Encoder.param]; omega)
    omega

theorem below_homes (hs : encoderFrameSize layout < 2^31) {x : Word}
    (h1 : -(encoderFrameSize layout:ℤ) ≤ d) (h2 : d+n ≤ -40)
    (hx : InRange x ((entrySite layout s).base+BitVec.ofInt 64 d) n) :
    ¬ InRange x (s.reg .rsp-48) 48 := by
  intro hlow
  have hroom := frame_room layout
  have hbase : s.reg .rsp-48 = (entrySite layout s).base-BitVec.ofNat 64 (encoderFrameSize layout)+
      BitVec.ofNat 64 (encoderFrameSize layout-40) := by
    rw [entrySite]
    bv_omega
  have hhome : (entrySite layout s).base+BitVec.ofInt 64 d =
      (entrySite layout s).base-BitVec.ofNat 64 (encoderFrameSize layout)+
        BitVec.ofNat 64 (encoderFrameSize layout+d).toNat := Site.home_eq h1
  rw [hhome, inRange_add_iff (by omega)] at hx
  rw [hbase, inRange_add_iff (by omega)] at hlow
  omega

theorem word_stack (hs : encoderFrameSize layout < 2^31) (hv : v ∈ stackParams layout)
    (hd : (encoderFrame layout).slots v.id = some d) :
    (entrySite layout s).word v =
      load s.mem (s.reg .rsp-8+BitVec.ofInt 64 d) v.type.representationSize := by
  obtain ⟨-,hconst,-⟩ := stackParams_valueOf hv
  obtain ⟨h1,h2⟩ := stackParams_home hv hd
  have hd' : (entrySite layout s).frame.slots v.id = some d := hd
  rw [Site.word, hconst, hd']
  exact load_frame fun x hx => entry_mem layout s (below_homes hs h1 h2 hx)

theorem word_home {o : ℕ} (d : ℤ) (hconst : v.constInt = none)
    (hd : (v.id, d) ∈ headerSlots) (haddr : BitVec.ofInt 64 d = BitVec.ofNat 64 o-40)
    (hmem : (o, v.type.representationSize, w) ∈ registerHomes s) :
    (entrySite layout s).word v = lowBytes v.type.representationSize w := by
  have hd' : (entrySite layout s).frame.slots v.id = some d := slots_header layout hd
  have haddr' : s.reg .rsp-8+BitVec.ofInt 64 d = s.reg .rsp-48+BitVec.ofNat 64 o := by
    rw [haddr]
    bv_omega
  rw [Site.word, hconst, hd']
  refine Eq.trans ?_ (load_registerHome layout s hmem (representationSize_le _))
  exact congrArg (load _ · _) haddr'

theorem word_register {p : Value × Reg} (hp : p ∈ (lowerEventEncoder layout).params.zip argRegs) :
    (entrySite layout s).word p.1 = lowBytes p.1.type.representationSize (s.reg p.2) := by
  have hzip : p ∈ [(Encoder.slot, Reg.rdi),(Encoder.eventID, .rsi),(Encoder.streamID, .rdx),
    (Encoder.streamSequence, .rcx),(Encoder.atomicGroupLen, .r8),(Encoder.atomicGroupIndex, .r9)] :=
    hp
  simp only [mem_cons, not_mem_nil, or_false] at hzip
  rcases hzip with rfl | rfl | rfl | rfl | rfl | rfl
  · exact word_home (o := 32) (-8) rfl (by decide) (by decide) (.head _)
  · exact word_home (o := 24) (-16) rfl (by decide) (by decide) (.tail _ (.head _))
  · exact word_home (o := 16) (-24) rfl (by decide) (by decide) (.tail _ (.tail _ (.head _)))
  · exact word_home (o := 8) (-32) rfl (by decide) (by decide)
      (.tail _ (.tail _ (.tail _ (.head _))))
  · exact word_home (o := 4) (-36) rfl (by decide) (by decide)
      (.tail _ (.tail _ (.tail _ (.tail _ (.head _)))))
  · exact word_home (o := 0) (-40) rfl (by decide) (by decide)
      (.tail _ (.tail _ (.tail _ (.tail _ (.tail _ (.head _))))))

end

section
variable {layout : EventLayout} {filled : Value → Prop} {a : EncoderArgs} {s : State} {v : Value}

theorem Called.rdi (h : Called layout filled a s) : s.reg .rdi = a.slot := by
  have hr := h.registers (Encoder.slot, .rdi) (.head _)
  rwa [show Encoder.slot.type.representationSize = 8 from rfl, lowBytes_eight, lowBytes_eight] at hr

theorem Called.room (h : Called layout filled a s) (hp : PayloadPlaced 0 layout.payloadFields) :
    Room layout s :=
  ⟨PayloadPlaced.frame_small hp,h.rdi ▸ h.apart⟩

theorem mem_registerParams (hv : v ∈ (lowerEventEncoder layout).params.take 6) :
    ∃ reg, (v, reg) ∈ (lowerEventEncoder layout).params.zip argRegs := by
  have hv : v ∈ [Encoder.slot,Encoder.eventID,Encoder.streamID,Encoder.streamSequence,
    Encoder.atomicGroupLen,Encoder.atomicGroupIndex] := hv
  simp only [mem_cons, not_mem_nil, or_false] at hv
  rcases hv with rfl | rfl | rfl | rfl | rfl | rfl
  · exact ⟨.rdi,.head _⟩
  · exact ⟨.rsi,.tail _ (.head _)⟩
  · exact ⟨.rdx,.tail _ (.tail _ (.head _))⟩
  · exact ⟨.rcx,.tail _ (.tail _ (.tail _ (.head _)))⟩
  · exact ⟨.r8,.tail _ (.tail _ (.tail _ (.tail _ (.head _))))⟩
  · exact ⟨.r9,.tail _ (.tail _ (.tail _ (.tail _ (.tail _ (.head _)))))⟩

theorem exists_slot_param (hv : v ∈ stackParams layout) :
    ∃ d, (encoderFrame layout).slots v.id = some d := by
  rcases mem_stackParams.mp hv with rfl | rfl | hv
  · exact ⟨-44,slots_header layout (by decide)⟩
  · exact ⟨-48,slots_header layout (by decide)⟩
  · exact exists_slot_later layout (mem_append_left _ hv)

theorem Called.word (h : Called layout filled a s) (hp : PayloadPlaced 0 layout.payloadFields)
    (hv : v ∈ (lowerEventEncoder layout).params) (hf : v ∈ stackParams layout → filled v) :
    (entrySite layout s).word v = lowBytes v.type.representationSize (a.word v.id) := by
  rw [← take_append_drop 6 (lowerEventEncoder layout).params, mem_append] at hv
  rcases hv with hv | hv
  · obtain ⟨reg,hreg⟩ := mem_registerParams hv
    exact (word_register hreg).trans (h.registers _ hreg)
  · obtain ⟨d,hd⟩ := exists_slot_param hv
    rw [word_stack (PayloadPlaced.frame_small hp) hv hd]
    exact h.stack v hv (hf hv) d hd

theorem byteOf_passed {w' : Word} {j : ℕ} (h : w = lowBytes n w') (hj : j < n) (hn : n ≤ 8) :
    byteOf w j = byteOf w' j := by
  rw [h, byteOf_lowBytes _ _ _ (by omega), if_pos hj]

variable {c c' : ℕ → BitVec 8}

section
variable (hp : PayloadPlaced 0 layout.payloadFields)
  (hfill : (entrySite layout s).Filled (encoderOps layout) c c')
include hp hfill

theorem filled_header (hw : ∀ v ∈ Encoder.headerParams, (entrySite layout s).word v =
      lowBytes v.type.representationSize (a.word v.id)) :
    ∀ x ∈ headerWords (referenceHeader layout a) 0, ∀ j < x.2.1, c' (x.1+j) = byteOf x.2.2 j := by
  have hparam : ∀ (offset : ℕ) (v : Value) (p : Prim) (w : Word), a.word v.id = w →
      v ∈ Encoder.headerParams → v.type.representationSize = p.size →
      .slotStore Encoder.slot offset v (.prim p) ∈ Encoder.headerOps layout →
      ∀ j < p.size, c' (offset+j) = byteOf w j := by
    intro offset v p w hword hv hsize hop j hj
    rw [hfill.header hp hop hj, ← hword]
    exact byteOf_passed (hw v hv) (hsize ▸ hj) (representationSize_le _)
  have hconst : ∀ (offset : ℕ) (v : Value) (p : Prim) (w : Word), v.constInt = some w →
      .slotStore Encoder.slot offset v (.prim p) ∈ Encoder.headerOps layout →
      ∀ j < p.size, c' (offset+j) = byteOf w j := by
    intro offset v p w hw hop j hj
    rw [hfill.header hp hop hj, Site.word, hw]
  have hop : ∀ {i : ℕ} {op : StorageOp}, (Encoder.headerOps layout)[i]? = some op →
    op ∈ Encoder.headerOps layout := mem_of_getElem?
  have hv : ∀ {i : ℕ} {v : Value}, Encoder.headerParams[i]? = some v → v ∈ Encoder.headerParams :=
    mem_of_getElem?
  simp only [headerWords, referenceHeader, forall_mem_cons]
  refine ⟨hparam 0 Encoder.eventID .u64 _ (EncoderArgs.word.eq_2 a) (hv (i := 1) rfl) rfl
      (hop (i := 0) rfl),
    hparam 8 Encoder.streamID .u64 _ (EncoderArgs.word.eq_3 a) (hv (i := 2) rfl) rfl
      (hop (i := 1) rfl),
    hparam 16 Encoder.streamSequence .u64 _ (EncoderArgs.word.eq_4 a) (hv (i := 3) rfl) rfl
      (hop (i := 2) rfl),
    fun j hj => (hconst 24 _ .u32 _ rfl (hop (i := 3) rfl) j hj).trans (byteOf_word32 _ hj).symm,
    fun j hj => (hconst 28 _ .u32 _ rfl (hop (i := 4) rfl) j hj).trans (byteOf_word32 _ hj).symm,
    hparam 32 Encoder.atomicGroupLen .u32 _ (EncoderArgs.word.eq_5 a) (hv (i := 4) rfl) rfl
      (hop (i := 5) rfl),
    hparam 36 Encoder.atomicGroupIndex .u32 _ (EncoderArgs.word.eq_6 a) (hv (i := 5) rfl) rfl
      (hop (i := 6) rfl),
    hparam 40 Encoder.payloadLength .u32 _ (EncoderArgs.word.eq_7 a) (hv (i := 6) rfl) rfl
      (hop (i := 7) rfl),
    hparam 44 Encoder.flags .u32 _ (EncoderArgs.word.eq_8 a) (hv (i := 7) rfl) rfl
      (hop (i := 8) rfl),
    fun j hj => ((hfill.final hp).2 j hj).trans (byteOf_zero j).symm,
    hconst 52 _ .u16 1 rfl (hop (i := 9) rfl),hconst 54 _ .u16 0 rfl (hop (i := 10) rfl),
    hconst 56 _ .u64 0 rfl (hop (i := 11) rfl),by simp⟩

theorem filled_payload (hprim : ∀ f ∈ layout.payloadFields, f.type.isHandleType = false)
    (hn : (layout.payloadFields.map (·.name)).Nodup)
    (hw : ∀ v ∈ Encoder.payloadParams layout.payloadFields, (entrySite layout s).word v =
      lowBytes v.type.representationSize (a.word v.id)) (m : Mem) {k : ℕ} (hk : k < 448) :
    c' (64+k) = payloadByte m a.payload 0 layout.payloadFields k := by
  have hfield : ∀ j f, layout.payloadFields[j]? = some f → ∀ k < f.type.storageSize,
      c' (64+f.offset+k) = fieldByte m f.type (a.payload (0+j)) k := by
    intro j f hf k hk
    have hmem := mem_of_getElem? hf
    have hparam := payloadParamByName_of_nodup hn hf
    have hpassed := hw _ (mem_payloadParamsFrom.mpr ⟨j,f,hf,rfl⟩)
    obtain ⟨p,hprimType⟩ := Site.exists_prim (hprim f hmem)
    have hsize : f.type.representationSize = f.type.storageSize := by
      rw [hprimType, storageSize_prim]
      rfl
    have hbyte := hfill.field hp hmem (hprim f hmem) hk
    rw [show (entrySite layout s).layout = layout from rfl, hparam] at hbyte
    rw [hbyte, fieldByte, if_neg (by simp [hprim f hmem]), zero_add, ← a.word_payload]
    exact byteOf_passed hpassed (hsize ▸ hk) (representationSize_le _)
  rcases lt_or_ge k (Encoder.payloadOps (Encoder.payloadParamByName layout.payloadFields) 0
    layout.payloadFields).2 with hlt | hge
  · refine content_payload _ hp 0 hprim hfield (fun offset length ho hop => ?_) (Nat.zero_le k) hlt
    intro j hj
    exact hfill.zero hp ho (mem_append_right _ (mem_append_left _ hop)) hj
  · obtain ⟨last,hlast⟩ : ∃ last, (Encoder.payloadOps
      (Encoder.payloadParamByName layout.payloadFields) 0 layout.payloadFields).2 = last := ⟨_,rfl⟩
    rw [hlast] at hge
    have hop : .payloadZero Encoder.slot (64+last) (448-last) ∈ frontOps layout := by
      refine mem_append_right _ (mem_append_right _ ?_)
      rw [hlast, fillOps, if_pos (lt_of_le_of_lt hge hk)]
      exact mem_singleton_self _
    have hbyte := hfill.zero hp (by omega) hop (show k-last < 448-last by omega)
    rw [show 64+last+(k-last) = 64+k by omega] at hbyte
    rw [hbyte, payloadByte_after _ hp 0 (hlast.trans_le hge)]

end

/-- An encoder writes the reference bytes when every parameter is passed, the
payload fields are primitive and their names distinct. -/
theorem encodes_of_passed {enc : Encoding} {code : List (Item ℤ)}
    (hcode : Crc32c.compileStorageCRC32CHelperUnit enc = .ok code)
    (hp : PayloadPlaced 0 layout.payloadFields)
    (hprim : ∀ f ∈ layout.payloadFields, f.type.isHandleType = false)
    (hn : (layout.payloadFields.map (·.name)).Nodup) (h : Called layout filled a s)
    (hf : ∀ v ∈ stackParams layout, filled v) (ret : Word) : Encodes enc layout a s ret := by
  have hcalm := encoderOps_calm (e := entrySite layout s) hp
    fun f hmem hh => absurd hh (by simp [hprim f hmem])
  obtain ⟨blocks,t,c,hcompile,hruns,hfill,ht⟩ := (h.room hp).call hcode hcalm ret
  have hword : ∀ v ∈ (lowerEventEncoder layout).params, (entrySite layout s).word v =
      lowBytes v.type.representationSize (a.word v.id) :=
    fun v hv => h.word hp hv (hf v)
  have hheader := filled_header hp hfill fun v hv => hword v (mem_append_left _ hv)
  have hpayload : segment c 64 448 = (referenceSlot layout a s.mem).payload.toList := by
    rw [referenceSlot, refresh_payload, Vector.toList_ofFn]
    refine ext_getElem (by rw [segment_length, length_ofFn]) fun k hk _ => ?_
    rw [segment_length] at hk
    simp only [segment, getElem_map, getElem_range, List.getElem_ofFn]
    exact congrArg UInt8.ofBitVec (filled_payload hp hfill hprim hn
      (fun v hv => hword v (mem_append_right _ hv)) s.mem hk)
  have hheader' : ∀ x ∈ headerWords (referenceSlot layout a s.mem).header 0, ∀ j < x.2.1,
      c (x.1+j) = byteOf x.2.2 j := by
    rw [referenceSlot, headerWords_refresh]
    exact hheader
  have hcrc : contentCrc c = word32 (referenceSlot layout a s.mem).header.checksum32 := by
    rw [contentCrc, contentBytes_eq_slotBytes hheader' hpayload, referenceSlot, refresh_checksum,
      crc32c_word]
  refine ⟨blocks,t,hcompile,hruns,?_,refresh_valid _⟩
  rw [← h.rdi, bytes_contents ht, hcrc]
  refine contentBytes_eq_slotBytes (headerWords_put hheader') ?_
  rw [← hpayload]
  refine map_congr_left fun k _ => ?_
  rw [put, if_neg (by omega)]

end

end Wrela.Codegen

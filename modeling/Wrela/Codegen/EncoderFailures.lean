import Wrela.Codegen.EncodedEvents

/-!
# Calls that an encoder gets wrong

For each way to miss the reference bytes there is a call: a parameter whose home
slot does not hold its argument, a record or an enum in the payload, and two
fields of one name. With the calls that are right this says exactly when
an encoder can be relied on. Ids are stored with 32 bits, so the pairs of ids on disk
are distinct exactly when the ids are told apart by their low halves.
-/

set_option autoImplicit false

namespace Wrela.Codegen
open X86 Ir Sem StorageFormat List BitVec Option

variable {layout : EventLayout} {filled : Value → Prop} {enc : Encoding} {code : List (Item ℤ)}
  {m : Mem} {k : ℕ}

theorem Linked.unique {enc : Encoding} (r : Helper) (s t t' : State) (h : Linked enc r s t)
    (h' : Linked enc r s t') : t = t' := by
  cases r with
  | crc32cCastagnoli =>
    obtain ⟨code,hcode,h⟩ := h
    obtain ⟨code',hcode',h'⟩ := h'
    rw [hcode] at hcode'
    cases hcode'
    exact h.unique h'

section
variable {a : EncoderArgs} {s : State} {ret : Word}

theorem Encodes.contents (h : Encodes enc layout a s ret) (hr : Room layout s)
    (hslot : s.reg .rdi = a.slot) (hcode : Crc32c.compileStorageCRC32CHelperUnit enc = .ok code)
    (hc : ∀ op ∈ encoderOps layout, (entrySite layout s).Calm op) :
    ∃ c, (entrySite layout s).Filled (encoderOps layout)
        (fun k => s.mem (a.slot+BitVec.ofNat 64 k)) c ∧
      contentBytes (put 48 4 (byteOf (contentCrc c)) c) =
        slotBytes (referenceSlot layout a s.mem)
          (referenceSlot layout a s.mem).header.checksum32 := by
  obtain ⟨blocks,t,c,hcompile,hruns,hfill,ht⟩ := hr.call hcode hc ret
  obtain ⟨blocks',t',hcompile',hruns',hbytes,-⟩ := h
  rw [hcompile] at hcompile'
  cases hcompile'
  obtain rfl := hruns.unique Linked.unique hruns'
  rw [hslot] at hfill ht
  exact ⟨c,hfill,(bytes_contents ht).symm.trans hbytes⟩

variable {c : ℕ → BitVec 8} {checksum : UInt32} {f : ℕ → BitVec 8}

section
variable (h : contentBytes (put 48 4 f c) = slotBytes (referenceSlot layout a m) checksum)
include h

theorem contents_payload (hk : k < 448) :
    c (64+k) = payloadByte m a.payload 0 layout.payloadFields k := by
  have hget := congrArg (·[64+k]?) h
  simp only [contentBytes_getElem (show 64+k < 512 by omega), slotBytes_payload, referenceSlot,
    refresh_payload, Vector.toList_ofFn] at hget
  rw [List.getElem?_ofFn, dif_pos hk, put, if_neg (by omega)] at hget
  exact congrArg UInt8.toBitVec (some.inj hget)

theorem contents_payloadLength : c 40 = byteOf (word32 a.payloadLength) 0 := by
  have hget := congrArg (·[40]?) h
  simp only [contentBytes_getElem (show 40 < 512 by decide), slotBytes_payloadLength] at hget
  exact congrArg UInt8.toBitVec (some.inj hget)

theorem contents_flags : c 44 = byteOf (word32 a.flags) 0 := by
  have hget := congrArg (·[44]?) h
  simp only [contentBytes_getElem (show 44 < 512 by decide), slotBytes_flags] at hget
  exact congrArg UInt8.toBitVec (some.inj hget)

end

end

section

def callState (m : Mem) : State where
  reg
    | .rdi => 0x100000
    | .rsp => 0x10000000000
    | _ => 0
  mem := m
  flags := none

def callArgs (payloadLength flags : UInt32) (payload : ℕ → Word) : EncoderArgs :=
  ⟨0x100000,0,0,0,0,0,payloadLength,flags,payload⟩

variable {n : ℕ} {d : ℤ} {v : Value} {i : ℕ} {f : EventPayloadField}

theorem toNat_callStack (hn : n < 2^32) :
    (0x10000000000-BitVec.ofNat 64 n : Word).toNat = 0x10000000000-n := by
  rw [toNat_sub, toNat_ofNat]
  simp only [BitVec.reduceToNat]
  omega

theorem callState_apart (hn : n < 2^31) :
    Disjoint 0x100000 512 (0x10000000000-BitVec.ofNat 64 (n+16)) (n+16) := by
  have hstack := toNat_callStack (show n+16 < 2^32 by omega)
  have hslot : (0x100000 : Word).toNat = 0x100000 := by simp
  exact disjoint_of_le (by omega) (by omega)

theorem called_callState (hs : encoderFrameSize layout < 2^31) {payloadLength flags : UInt32}
    {payload : ℕ → Word}
    (hstack : ∀ v ∈ stackParams layout, filled v → ∀ d, (encoderFrame layout).slots v.id = some d →
      load m (0x10000000000-8+BitVec.ofInt 64 d) v.type.representationSize =
        lowBytes v.type.representationSize ((callArgs payloadLength flags payload).word v.id)) :
    Called layout filled (callArgs payloadLength flags payload) (callState m) where
  apart := callState_apart hs
  registers := by
    intro p hp
    have hzip : p ∈ [(Encoder.slot, Reg.rdi),(Encoder.eventID, .rsi),(Encoder.streamID, .rdx),
      (Encoder.streamSequence, .rcx),(Encoder.atomicGroupLen, .r8),
      (Encoder.atomicGroupIndex, .r9)] := hp
    simp only [mem_cons, not_mem_nil, or_false] at hzip
    rcases hzip with rfl | rfl | rfl | rfl | rfl | rfl <;> rfl
  stack := hstack

theorem load_zero (a : Word) (hn : n ≤ 8) : load (fun _ => 0) a n = 0 := by
  apply word_ext
  intro k hk
  rw [byteOf_zero]
  rcases lt_or_ge k n with h | h
  · rw [byteOf_load h hn]
  · exact byteOf_load_of_ge h hk

theorem lowBytes_zero (n : ℕ) : lowBytes n 0 = 0 := by
  apply word_ext
  intro k hk
  rw [byteOf_lowBytes _ _ _ hk, byteOf_zero, ite_self]

theorem word_empty (hs : encoderFrameSize layout < 2^31) (hv : v ∈ stackParams layout) :
    (entrySite layout (callState fun _ => 0)).word v = 0 := by
  obtain ⟨d,hd⟩ := exists_slot_param hv
  rw [word_stack hs hv hd]
  exact load_zero _ (representationSize_le _)

section
variable (hp : PayloadPlaced 0 layout.payloadFields)
  (hprim : ∀ f ∈ layout.payloadFields, f.type.isHandleType = false)
  (hcode : Crc32c.compileStorageCRC32CHelperUnit enc = .ok code)
include hp hprim hcode

theorem empty_contents {a : EncoderArgs} {ret : Word}
    (hc : Called layout filled a (callState fun _ => 0))
    (h : Encodes enc layout a (callState fun _ => 0) ret) :
    byteOf (word32 a.payloadLength) 0 = 0 ∧ byteOf (word32 a.flags) 0 = 0 ∧
      ∀ i f, layout.payloadFields[i]? = some f → byteOf (a.payload i) 0 = 0 := by
  have hs := PayloadPlaced.frame_small hp
  have hcalm := encoderOps_calm (e := entrySite layout (callState fun _ => 0)) hp
    fun f hmem hh => absurd hh (by simp [hprim f hmem])
  obtain ⟨c,hfill,hbytes⟩ := h.contents (hc.room hp) hc.rdi hcode hcalm
  have hheader : ∀ v ∈ stackParams layout, ∀ offset,
      .slotStore Encoder.slot offset v (.prim .u32) ∈ Encoder.headerOps layout → c offset = 0 := by
    intro v hv offset hop
    have hbyte := hfill.header hp hop (show 0 < Prim.size .u32 by decide)
    rwa [word_empty hs hv, byteOf_zero] at hbyte
  refine ⟨?_,?_,fun i f hf => ?_⟩
  · rw [← contents_payloadLength hbytes]
    exact hheader _ (.head _) 40 (mem_of_getElem? (i := 7) rfl)
  · rw [← contents_flags hbytes]
    exact hheader _ (.tail _ (.head _)) 44 (mem_of_getElem? (i := 8) rfl)
  · have hmem := mem_of_getElem? hf
    obtain ⟨-,hfits,hend⟩ := PayloadPlaced.mem hp hmem
    have hpos := Site.storageSize_pos f.type
    have hstorage := hfits.storage
    have hbyte := hfill.field hp hmem (hprim f hmem) hpos
    have hv : Encoder.payloadParamByName layout.payloadFields f.name ∈ stackParams layout :=
      mem_stackParams.mpr (.inr (.inr (byName_mem layout hf)))
    have href := contents_payload hbytes (show f.offset < 448 by omega)
    rw [show f.offset = f.offset+0 from rfl, payloadByte_at hp 0 hf hpos, fieldByte,
      if_neg (by simp [hprim f hmem]), zero_add] at href
    rw [← href]
    rw [show (entrySite layout (callState fun _ => 0)).layout = layout from rfl,
      word_empty hs hv, byteOf_zero] at hbyte
    exact hbyte

/-- The condition on the parameters: each home slot must hold its argument. -/
theorem filled_of_encodes (h : ∀ a s ret, Called layout filled a s → Encodes enc layout a s ret) :
    ∀ v ∈ stackParams layout, filled v := by
  have hs := PayloadPlaced.frame_small hp
  -- a call in empty memory whose one argument that is not zero is the parameter's
  have hcall : ∀ payloadLength flags payload, (∀ v ∈ stackParams layout, filled v →
      (callArgs payloadLength flags payload).word v.id = 0) →
      Called layout filled (callArgs payloadLength flags payload) (callState fun _ => 0) := by
    intro payloadLength flags payload hzero
    refine called_callState hs fun v hv hf d _ => ?_
    rw [hzero v hv hf, lowBytes_zero, load_zero _ (representationSize_le _)]
  intro v hv
  by_contra hnot
  rcases mem_stackParams.mp hv with rfl | rfl | hpay
  · have hc := hcall 1 0 (fun _ => 0) fun w hw hf => by
      rcases mem_stackParams.mp hw with rfl | rfl | hw
      · exact absurd hf hnot
      · rfl
      · obtain ⟨i,f,-,rfl⟩ := mem_payloadParamsFrom.mp hw
        exact EncoderArgs.word_payload _ i
    have hbyte := (empty_contents hp hprim hcode hc (h _ _ 0 hc)).1
    exact absurd hbyte (by decide)
  · have hc := hcall 0 1 (fun _ => 0) fun w hw hf => by
      rcases mem_stackParams.mp hw with rfl | rfl | hw
      · rfl
      · exact absurd hf hnot
      · obtain ⟨i,f,-,rfl⟩ := mem_payloadParamsFrom.mp hw
        exact EncoderArgs.word_payload _ i
    have hbyte := (empty_contents hp hprim hcode hc (h _ _ 0 hc)).2.1
    exact absurd hbyte (by decide)
  · obtain ⟨j,g,hg,rfl⟩ := mem_payloadParamsFrom.mp hpay
    have hc := hcall 0 0 (fun k => if k = j then 1 else 0) fun w hw hf => by
      rcases mem_stackParams.mp hw with rfl | rfl | hw
      · rfl
      · rfl
      · obtain ⟨i,f,hi,rfl⟩ := mem_payloadParamsFrom.mp hw
        rw [show (Encoder.param (15+i) f.type).id = 15+i from rfl, EncoderArgs.word_payload]
        refine if_neg fun hij => hnot ?_
        subst hij
        rw [hg] at hi
        cases hi
        exact hf
    have hbyte := (empty_contents hp hprim hcode hc (h _ _ 0 hc)).2.2 j g hg
    rw [show (callArgs 0 0 fun k => if k = j then 1 else 0).payload j = 1 from if_pos rfl] at hbyte
    exact absurd hbyte (by decide)

end

def homeArgs (layout : EventLayout) (m : Mem) : EncoderArgs :=
  callArgs (UInt32.ofBitVec ((load m (0x10000000000-8+BitVec.ofInt 64 (-44)) 4).setWidth 32))
    (UInt32.ofBitVec ((load m (0x10000000000-8+BitVec.ofInt 64 (-48)) 4).setWidth 32)) fun i =>
      match (encoderFrame layout).slots (15+i), layout.payloadFields[i]? with
      | some d, some f => load m (0x10000000000-8+BitVec.ofInt 64 d) f.type.representationSize
      | _, _ => 0

theorem word32_load (a : Word) : word32 (UInt32.ofBitVec ((load m a 4).setWidth 32)) = load m a 4 := by
  have hlt := toNat_load_lt (m := m) (a := a) (show 4 ≤ 8 by decide)
  apply eq_of_toNat_eq
  rw [toNat_word32]
  exact (toNat_setWidth ..).trans (Nat.mod_eq_of_lt hlt)

theorem homeArgs_payload (hf : layout.payloadFields[i]? = some f)
    (hd : (encoderFrame layout).slots (15+i) = some d) : (homeArgs layout m).payload i =
      load m (0x10000000000-8+BitVec.ofInt 64 d) f.type.representationSize := by
  rw [homeArgs, callArgs]
  simp [hd, hf]

theorem called_homeArgs (hs : encoderFrameSize layout < 2^31) :
    Called layout filled (homeArgs layout m) (callState m) := by
  refine called_callState hs fun v hv _ d hd => ?_
  rcases mem_stackParams.mp hv with rfl | rfl | hv
  · obtain rfl : d = -44 := some.inj (hd.symm.trans (slots_header layout (by decide)))
    exact (lowBytes_load.symm.trans (congrArg (lowBytes 4) (word32_load _).symm))
  · obtain rfl : d = -48 := some.inj (hd.symm.trans (slots_header layout (by decide)))
    exact (lowBytes_load.symm.trans (congrArg (lowBytes 4) (word32_load _).symm))
  · obtain ⟨i,f,hf,rfl⟩ := mem_payloadParamsFrom.mp hv
    have hpay : (homeArgs layout m).word (15+i) = _ :=
      (EncoderArgs.word_payload _ i).trans (homeArgs_payload hf hd)
    exact lowBytes_load.symm.trans (congrArg (lowBytes _) hpay.symm)

theorem home_inj (hs : encoderFrameSize layout < 2^31) {j : ℕ} {d d' : ℤ}
    (hd : (encoderFrame layout).slots i = some d) (hd' : (encoderFrame layout).slots j = some d')
    (h1 : -(encoderFrameSize layout:ℤ) ≤ d ∧ d < 0) (h2 : -(encoderFrameSize layout:ℤ) ≤ d' ∧ d' < 0)
    (base : Word) (h : base+BitVec.ofInt 64 d = base+BitVec.ofInt 64 d') : i = j := by
  obtain rfl : d = d' := by
    have hint := congrArg BitVec.toInt ((BitVec.add_right_inj base).mp h)
    rw [toInt_ofInt_eq_self (by decide) (by omega) (by omega),
      toInt_ofInt_eq_self (by decide) (by omega) (by omega)] at hint
    exact hint
  exact slots_inj layout hd hd'

/-- The condition on the names: of two fields with one name the first is lost. -/
theorem nodup_of_encodes (hp : PayloadPlaced 0 layout.payloadFields)
    (hprim : ∀ f ∈ layout.payloadFields, f.type.isHandleType = false)
    (hcode : Crc32c.compileStorageCRC32CHelperUnit enc = .ok code)
    (h : ∀ a s ret, Called layout filled a s → Encodes enc layout a s ret) :
    (layout.payloadFields.map (·.name)).Nodup := by
  have hs := PayloadPlaced.frame_small hp
  rw [List.Nodup, pairwise_iff_getElem]
  intro i j hi hj hij hname
  rw [length_map] at hi hj
  rw [getElem_map, getElem_map] at hname
  have hf : layout.payloadFields[i]? = some layout.payloadFields[i] := List.getElem?_eq_getElem hi
  have hg : layout.payloadFields[j]? = some layout.payloadFields[j] := List.getElem?_eq_getElem hj
  obtain ⟨p,g,hp',-,hparam,hlast⟩ := payloadParamByName_eq hf
  have hle := hlast j _ hg hname.symm
  have hv : Encoder.param (15+i) layout.payloadFields[i].type ∈ stackParams layout :=
    mem_stackParams.mpr (.inr (.inr (mem_payloadParamsFrom.mpr ⟨i,_,hf,rfl⟩)))
  have hw : Encoder.param (15+p) g.type ∈ stackParams layout :=
    mem_stackParams.mpr (.inr (.inr (mem_payloadParamsFrom.mpr ⟨p,g,hp',rfl⟩)))
  obtain ⟨d,hd⟩ := exists_slot_param hv
  obtain ⟨d',hd'⟩ := exists_slot_param hw
  obtain ⟨hlow,hhigh⟩ := stackParams_home hv hd
  obtain ⟨hlow',hhigh'⟩ := stackParams_home hw hd'
  -- memory with a one in the first field's home slot, which no store reads
  let m : Mem := fun x => if x = 0x10000000000-8+BitVec.ofInt 64 d then 1 else 0
  have hother : m (0x10000000000-8+BitVec.ofInt 64 d') = 0 := by
    refine if_neg fun heq => ?_
    have hid : 15+p = 15+i := home_inj hs hd' hd ⟨hlow',by omega⟩ ⟨hlow,by omega⟩ _ heq
    omega
  have hc : Called layout filled (homeArgs layout m) (callState m) := called_homeArgs hs
  have hcalm := encoderOps_calm (e := entrySite layout (callState m)) hp
    fun f hmem hh => absurd hh (by simp [hprim f hmem])
  obtain ⟨c,hfill,hbytes⟩ := (h _ _ 0 hc).contents (hc.room hp) hc.rdi hcode hcalm
  have hmem := mem_of_getElem? hf
  have hpos := Site.storageSize_pos layout.payloadFields[i].type
  obtain ⟨-,hfits,hend⟩ := PayloadPlaced.mem hp hmem
  have hstorage := hfits.storage
  have hbyte := hfill.field hp hmem (hprim _ hmem) hpos
  rw [show (entrySite layout (callState m)).layout = layout from rfl, hparam, word_stack hs hw hd',
    byteOf_load (representationSize_pos _) (representationSize_le _)] at hbyte
  have href := contents_payload hbytes (show layout.payloadFields[i].offset < 448 by omega)
  rw [show layout.payloadFields[i].offset = layout.payloadFields[i].offset+0 from rfl,
    payloadByte_at hp 0 hf hpos, fieldByte, if_neg (by simp [hprim _ hmem]), zero_add,
    homeArgs_payload hf hd, byteOf_load (representationSize_pos _) (representationSize_le _)] at href
  rw [BitVec.add_zero] at hbyte href
  have hone : m (0x10000000000-8+BitVec.ofInt 64 d) = 1 := if_pos rfl
  have hzero := (hone.symm.trans href.symm).trans (hbyte.trans hother)
  exact absurd hzero (by decide)

def strayHandle : Word := 0x4040404040404040

def strayMem (n : ℕ) : Mem := fun x =>
  if x = strayHandle then 1
  else if InRange x (0x10000000000-BitVec.ofNat 64 (n+16)) (n+16) then 0x40 else 0

theorem byteOf_strayHandle (hk : k < 8) : byteOf strayHandle k = 0x40 := by
  revert k
  decide

theorem toNat_strayHandle (k : ℕ) (hk : k < 2^32) :
    (strayHandle+BitVec.ofNat 64 k).toNat = 0x4040404040404040+k := by
  rw [strayHandle, toNat_add, toNat_ofNat]
  simp only [BitVec.reduceToNat]
  omega

theorem strayMem_stack {n : ℕ} (hn : n < 2^31) (hk : k < n+16) :
    strayMem n (0x10000000000-BitVec.ofNat 64 (n+16)+BitVec.ofNat 64 k) = 0x40 := by
  have hne : 0x10000000000-BitVec.ofNat 64 (n+16)+BitVec.ofNat 64 k ≠ strayHandle := by
    intro heq
    have hstack := toNat_callStack (show n+16 < 2^32 by omega)
    have hnat := congrArg BitVec.toNat heq
    rw [toNat_add, hstack, toNat_ofNat, strayHandle] at hnat
    simp only [BitVec.reduceToNat] at hnat
    omega
  rw [strayMem, if_neg hne, if_pos (inRange_offset hk)]

theorem strayMem_slot {n : ℕ} (hn : n < 2^31) (hk : k < 512) :
    strayMem n (0x100000+BitVec.ofNat 64 k) = 0 := by
  have hne : 0x100000+BitVec.ofNat 64 k ≠ strayHandle := by
    intro heq
    have hnat := congrArg BitVec.toNat heq
    rw [toNat_add, toNat_ofNat, strayHandle] at hnat
    simp only [BitVec.reduceToNat] at hnat
    omega
  rw [strayMem, if_neg hne, if_neg (callState_apart hn _ (inRange_offset hk))]

theorem home_stack (hd : -(n:ℤ) ≤ d) :
    0x10000000000-8+BitVec.ofInt 64 d =
      0x10000000000-BitVec.ofNat 64 (n+16)+BitVec.ofNat 64 (n+8+d).toNat := by
  have hofInt : BitVec.ofNat 64 (n+8+d).toNat = BitVec.ofNat 64 (n+8)+BitVec.ofInt 64 d := by
    rw [← ofInt_natCast, ← ofInt_natCast, ← ofInt_add]
    congr 1
    omega
  have hbase : (0x10000000000-8 : Word) =
      0x10000000000-BitVec.ofNat 64 (n+16)+BitVec.ofNat 64 (n+8) := by bv_omega
  rw [hofInt, ← BitVec.add_assoc, ← hbase]

section
variable (hs : encoderFrameSize layout < 2^31) (hv : v ∈ stackParams layout)
include hs hv

theorem strayMem_home (hd : (encoderFrame layout).slots v.id = some d)
    (hk : k < v.type.representationSize) : strayMem (encoderFrameSize layout)
      (0x10000000000-8+BitVec.ofInt 64 d+BitVec.ofNat 64 k) = 0x40 := by
  obtain ⟨hlow,hhigh⟩ := stackParams_home hv hd
  rw [home_stack hlow, add_ofNat_add]
  exact strayMem_stack hs (by omega)

theorem load_strayMem (hh : v.type.isHandleType)
    (hd : (encoderFrame layout).slots v.id = some d) : load (strayMem (encoderFrameSize layout))
      (0x10000000000-8+BitVec.ofInt 64 d) v.type.representationSize = strayHandle := by
  have hsize : v.type.representationSize = 8 := by rw [Ty.representationSize, if_pos hh]
  apply word_ext
  intro k hk
  rw [byteOf_load (hsize ▸ hk) (representationSize_le _), strayMem_home hs hv hd (hsize ▸ hk),
    byteOf_strayHandle hk]

end

theorem strayMem_calm (hp : PayloadPlaced 0 layout.payloadFields) (hf : f ∈ layout.payloadFields) :
    CalmField (entrySite layout (callState (strayMem (encoderFrameSize layout)))) f := by
  have hs := PayloadPlaced.frame_small hp
  obtain ⟨i,hi⟩ := getElem?_of_mem hf
  obtain ⟨-,hfits,hend⟩ := PayloadPlaced.mem hp hf
  have hstorage := hfits.storage
  have hslot : (0x100000 : Word).toNat = 0x100000 := by simp
  have hv : Encoder.payloadParamByName layout.payloadFields f.name ∈ stackParams layout :=
    mem_stackParams.mpr (.inr (.inr (byName_mem layout hi)))
  obtain ⟨d,hd⟩ := exists_slot_param hv
  obtain ⟨hlow,hhigh⟩ := stackParams_home hv hd
  rw [CalmField]
  simp only [show (entrySite layout (callState (strayMem (encoderFrameSize layout)))).layout =
    layout from rfl]
  split_ifs with hh
  · have hword : (entrySite layout (callState (strayMem (encoderFrameSize layout)))).word
        (Encoder.payloadParamByName layout.payloadFields f.name) = strayHandle :=
      (word_stack hs hv hd).trans (load_strayMem hs hv hh hd)
    have hstray := toNat_strayHandle (64+f.offset) (by omega)
    have hframe : (0x10000000000-8-BitVec.ofNat 64 (encoderFrameSize layout) : Word) =
        0x10000000000-BitVec.ofNat 64 (encoderFrameSize layout+8) := by bv_omega
    have hstack := toNat_callStack (show encoderFrameSize layout+8 < 2^32 by omega)
    rw [hword]
    refine ⟨(disjoint_of_le ?_ ?_).symm,(disjoint_of_le ?_ ?_).symm⟩
    · show BitVec.toNat 0x100000+512 ≤ _
      omega
    · omega
    · show BitVec.toNat (0x10000000000-8-BitVec.ofNat 64 (encoderFrameSize layout))+_ ≤ _
      rw [hframe, hstack, hstray, Site.size, entrySite]
      simp only
      omega
    · omega
  · intro d' hd'
    obtain rfl : d = d' := some.inj (hd.symm.trans hd')
    have hstack := toNat_callStack (show encoderFrameSize layout+16 < 2^32 by omega)
    have hhome : (0x10000000000-8+BitVec.ofInt 64 d : Word).toNat =
        0x10000000000-(encoderFrameSize layout+16)+(encoderFrameSize layout+8+d).toNat := by
      rw [home_stack hlow, toNat_add, hstack, toNat_ofNat]
      omega
    refine (disjoint_of_le ?_ ?_).symm
    · show BitVec.toNat 0x100000+512 ≤ BitVec.toNat (0x10000000000-8+BitVec.ofInt 64 d)
      omega
    · show BitVec.toNat (0x10000000000-8+BitVec.ofInt 64 d)+512 ≤ 2^64
      omega

/-- The condition on the types: a record or an enum does not reach the slot. -/
theorem prim_of_encodes (hp : PayloadPlaced 0 layout.payloadFields)
    (hcode : Crc32c.compileStorageCRC32CHelperUnit enc = .ok code)
    (h : ∀ a s ret, Called layout filled a s → Encodes enc layout a s ret) :
    ∀ f ∈ layout.payloadFields, f.type.isHandleType = false := by
  intro f hf
  by_contra hh
  have hh : f.type.isHandleType := by simpa using hh
  have hs := PayloadPlaced.frame_small hp
  let m := strayMem (encoderFrameSize layout)
  have hc : Called layout filled (homeArgs layout m) (callState m) := called_homeArgs hs
  have hcalm := encoderOps_calm (e := entrySite layout (callState m)) hp
    fun g hg _ => strayMem_calm hp hg
  obtain ⟨c,hfill,hbytes⟩ := (h _ _ 0 hc).contents (hc.room hp) hc.rdi hcode hcalm
  obtain ⟨i,hi⟩ := getElem?_of_mem hf
  have hpos := Site.storageSize_pos f.type
  obtain ⟨-,hfits,hend⟩ := PayloadPlaced.mem hp hf
  have hstorage := hfits.storage
  have hv : Encoder.param (15+i) f.type ∈ stackParams layout :=
    mem_stackParams.mpr (.inr (.inr (mem_payloadParamsFrom.mpr ⟨i,f,hi,rfl⟩)))
  obtain ⟨d,hd⟩ := exists_slot_param hv
  -- the reference has the byte behind the handle
  have href := contents_payload hbytes (show f.offset < 448 by omega)
  rw [show f.offset = f.offset+0 from rfl, payloadByte_at hp 0 hi hpos, fieldByte, if_pos hh,
    zero_add, homeArgs_payload hi hd] at href
  have hhandle : load m (0x10000000000-8+BitVec.ofInt 64 d) f.type.representationSize =
    strayHandle := load_strayMem hs hv hh hd
  rw [hhandle, BitVec.add_zero] at href
  have hone : m strayHandle = 1 := if_pos rfl
  have href : c (64+f.offset) = 1 := href.trans hone
  -- the encoder leaves the slot's old byte or one of the frame
  rcases hfill.handleField hp hf hh with hold | ⟨d',hd',hframe⟩
  · have hzero : m (0x100000+BitVec.ofNat 64 (64+f.offset)) = 0 := strayMem_slot hs (by omega)
    rw [href] at hold
    exact absurd (hold.trans hzero) (by decide)
  · have hw : Encoder.payloadParamByName layout.payloadFields f.name ∈ stackParams layout :=
      mem_stackParams.mpr (.inr (.inr (byName_mem layout hi)))
    obtain ⟨hlow,hhigh⟩ := stackParams_home hw hd'
    have hmem := entry_mem layout (callState m)
      (below_homes hs hlow hhigh (inRange_self (representationSize_pos _)))
    have hbyte := strayMem_home hs hw hd' (representationSize_pos _)
    rw [BitVec.add_zero] at hbyte
    rw [href, hmem] at hframe
    exact absurd (hframe.trans hbyte) (by decide)

end

/-- When an encoder leaves the reference bytes in every call: the home slots of
the parameters beyond the registers hold their arguments, every payload field is
of a primitive type, and the fields have distinct names. -/
theorem encoder_matches_reference_iff {decls : List (String × EventDecl)}
    (haccepted : (checkStorageDecls decls).2 = []) {layout : EventLayout}
    (hl : layout ∈ currentLayouts (checkStorageDecls decls).1) {enc : Encoding}
    {code : List (Item ℤ)} (hcode : Crc32c.compileStorageCRC32CHelperUnit enc = .ok code)
    (filled : Value → Prop) :
    (∀ a s ret, Called layout filled a s → Encodes enc layout a s ret) ↔
      (∀ v ∈ stackParams layout, filled v) ∧
      (∀ f ∈ layout.payloadFields, f.type.isHandleType = false) ∧
      (layout.payloadFields.map (·.name)).Nodup := by
  have hp := currentLayouts_placed (checkStorageDecls_sound haccepted) hl
  constructor
  · intro h
    have hprim := prim_of_encodes hp hcode h
    exact ⟨filled_of_encodes hp hprim hcode h,hprim,nodup_of_encodes hp hprim hcode h⟩
  · rintro ⟨hf,hprim,hn⟩ a s ret hc
    exact encodes_of_passed hcode hp hprim hn hc hf ret

def oneField : List (String × EventDecl) :=
  [("app", ⟨"Created","1",[⟨"1",true,[⟨"amount",some (.prim .u64),[],false⟩]⟩]⟩)]

def oneFieldLayout : EventLayout :=
  ⟨"app","Created",1,1,true,8,8,[⟨"amount",.prim .u64,0,8,8⟩]⟩

theorem oneField_accepted : (checkStorageDecls oneField).2 = [] := rfl

theorem oneFieldLayout_mem : oneFieldLayout ∈ currentLayouts (checkStorageDecls oneField).1 :=
  mem_currentLayouts.mpr ⟨_,.head _,_,.head _,rfl⟩

theorem oneFieldLayout_prim : ∀ f ∈ oneFieldLayout.payloadFields, f.type.isHandleType = false :=
  forall_mem_singleton.mpr rfl

def threeBytes : Encoding := ⟨fun _ => 3,fun _ => by decide⟩

theorem threeBytes_code : ∃ code, Crc32c.compileStorageCRC32CHelperUnit threeBytes = .ok code :=
  ⟨_,rfl⟩

theorem encoder_matches_oneField :
    (checkStorageDecls oneField).2 = [] ∧
    oneFieldLayout ∈ currentLayouts (checkStorageDecls oneField).1 ∧
    (∃ code, Crc32c.compileStorageCRC32CHelperUnit threeBytes = .ok code) ∧
    ∀ a s ret, Called oneFieldLayout (fun _ => True) a s →
      Encodes threeBytes oneFieldLayout a s ret := by
  obtain ⟨code,hcode⟩ := threeBytes_code
  refine ⟨oneField_accepted,oneFieldLayout_mem,⟨code,hcode⟩,?_⟩
  exact (encoder_matches_reference_iff oneField_accepted oneFieldLayout_mem hcode
    fun _ => True).mpr ⟨fun _ _ => trivial,oneFieldLayout_prim,nodup_singleton _⟩

/-- The length of the payload does not reach the slot. -/
theorem encoder_loses_payloadLength :
    (checkStorageDecls oneField).2 = [] ∧
    oneFieldLayout ∈ currentLayouts (checkStorageDecls oneField).1 ∧
    Called oneFieldLayout (fun _ => False) (callArgs 8 0 fun _ => 7) (callState fun _ => 0) ∧
    ∀ ret, ¬ Encodes threeBytes oneFieldLayout (callArgs 8 0 fun _ => 7)
      (callState fun _ => 0) ret := by
  have hp := currentLayouts_placed (checkStorageDecls_sound oneField_accepted) oneFieldLayout_mem
  have hc : Called oneFieldLayout (fun _ => False) (callArgs 8 0 fun _ => 7)
    (callState fun _ => 0) :=
    called_callState (PayloadPlaced.frame_small hp) fun _ _ hf => hf.elim
  obtain ⟨code,hcode⟩ := threeBytes_code
  refine ⟨oneField_accepted,oneFieldLayout_mem,hc,fun ret h => ?_⟩
  have hbyte := (empty_contents hp oneFieldLayout_prim hcode hc h).1
  exact absurd hbyte (by decide)

/-! ### Identifiers in the slot -/

/-- The event type and the layout that an encoder leaves in its slot in some call
whose copies of records and enums do not hit the slot or the frame. -/
def Writes (enc : Encoding) (layout : EventLayout) (ids : UInt32 × UInt32) : Prop :=
  ∃ s ret code t, Room layout s ∧
    (∀ f ∈ layout.payloadFields, f.type.isHandleType → CalmField (entrySite layout s) f) ∧
    compileFunction (lowerEventEncoder layout) ret = .ok code ∧ Runs (Linked enc) code s t ∧
    load t.mem (s.reg .rdi+24) 4 = word32 ids.1 ∧ load t.mem (s.reg .rdi+28) 4 = word32 ids.2

theorem word32_inj {v w : UInt32} (h : word32 v = word32 w) : v = w := by
  rw [← UInt32.toNat_inj, ← toNat_word32, ← toNat_word32, h]

section
variable {layout : EventLayout} {enc : Encoding} {code : List (Item ℤ)}

theorem call_ids (hp : PayloadPlaced 0 layout.payloadFields) {s : State} (hr : Room layout s)
    (hf : ∀ f ∈ layout.payloadFields, f.type.isHandleType → CalmField (entrySite layout s) f)
    (hcode : Crc32c.compileStorageCRC32CHelperUnit enc = .ok code) (ret : Word) :
    ∃ blocks t, compileFunction (lowerEventEncoder layout) ret = .ok blocks ∧
      Runs (Linked enc) blocks s t ∧
      load t.mem (s.reg .rdi+24) 4 = word32 layout.eventTypeID.toUInt32 ∧
      load t.mem (s.reg .rdi+28) 4 = word32 layout.layoutID.toUInt32 := by
  obtain ⟨blocks,t,c,hcompile,hruns,hfill,ht⟩ :=
    hr.call hcode (encoderOps_calm (e := entrySite layout s) hp hf) ret
  have hload : ∀ (offset : ℕ) (v : Value) (id : UInt64), offset ≤ 44 →
      v.constInt = some id.toBitVec →
      .slotStore Encoder.slot offset v (.prim .u32) ∈ Encoder.headerOps layout →
      load t.mem (s.reg .rdi+BitVec.ofNat 64 offset) 4 = word32 id.toUInt32 := by
    intro offset v id ho hv hop
    apply word_ext
    intro k hk
    rcases lt_or_ge k 4 with h4 | h4
    · rw [byteOf_load h4 (by decide), add_ofNat_add, ht _ (by omega), put, if_neg (by omega),
        hfill.header hp hop h4, Site.word, hv, byteOf_word32 id h4]
    · rw [byteOf_load_of_ge h4 hk, word32_toUInt32, byteOf_lowBytes _ _ _ hk, if_neg (by omega)]
  exact ⟨blocks,t,hcompile,hruns,hload 24 _ _ (by decide) rfl (mem_of_getElem? (i := 3) rfl),
    hload 28 _ _ (by decide) rfl (mem_of_getElem? (i := 4) rfl)⟩

theorem writes_iff (hp : PayloadPlaced 0 layout.payloadFields)
    (hcode : Crc32c.compileStorageCRC32CHelperUnit enc = .ok code) (ids : UInt32 × UInt32) :
    Writes enc layout ids ↔ ids = (layout.eventTypeID.toUInt32, layout.layoutID.toUInt32) := by
  constructor
  · rintro ⟨s,ret,blocks,t,hr,hf,hcompile,hruns,htype,hlayout⟩
    obtain ⟨blocks',t',hcompile',hruns',htype',hlayout'⟩ := call_ids hp hr hf hcode ret
    rw [hcompile] at hcompile'
    cases hcompile'
    obtain rfl := hruns.unique Linked.unique hruns'
    exact Prod.ext (word32_inj (htype.symm.trans htype')) (word32_inj (hlayout.symm.trans hlayout'))
  · rintro rfl
    have hs := PayloadPlaced.frame_small hp
    have hr : Room layout (callState (strayMem (encoderFrameSize layout))) :=
      ⟨hs,callState_apart hs⟩
    have hf : ∀ f ∈ layout.payloadFields, f.type.isHandleType →
      CalmField (entrySite layout (callState (strayMem (encoderFrameSize layout)))) f :=
      fun f hf _ => strayMem_calm hp hf
    obtain ⟨blocks,t,hcompile,hruns,htype,hlayout⟩ := call_ids hp hr hf hcode 0
    exact ⟨_,0,blocks,t,hr,hf,hcompile,hruns,htype,hlayout⟩

end

theorem toUInt32_eq_iff (v w : UInt64) : v.toUInt32 = w.toUInt32 ↔ v.toNat%2^32 = w.toNat%2^32 := by
  rw [← UInt32.toNat_inj, UInt64.toNat_toUInt32, UInt64.toNat_toUInt32]

/-- When the ids on disk are distinct and never the type of an empty slot: no two
current layouts have both ids equal modulo 2 ^ 32, and no event type id is a
multiple of 2 ^ 32. -/
theorem slot_ids_distinct_iff {decls : List (String × EventDecl)}
    (haccepted : (checkStorageDecls decls).2 = []) {enc : Encoding} {code : List (Item ℤ)}
    (hcode : Crc32c.compileStorageCRC32CHelperUnit enc = .ok code) :
    ((∀ l ∈ currentLayouts (checkStorageDecls decls).1,
        ∀ l' ∈ currentLayouts (checkStorageDecls decls).1, l ≠ l' →
          ∀ ids ids', Writes enc l ids → Writes enc l' ids' → ids ≠ ids') ∧
      ∀ l ∈ currentLayouts (checkStorageDecls decls).1, ∀ ids, Writes enc l ids → ids.1 ≠ 0) ↔
    ((∀ l ∈ currentLayouts (checkStorageDecls decls).1,
        ∀ l' ∈ currentLayouts (checkStorageDecls decls).1,
          l.eventTypeID.toNat%2^32 = l'.eventTypeID.toNat%2^32 →
          l.layoutID.toNat%2^32 = l'.layoutID.toNat%2^32 → l.eventTypeID = l'.eventTypeID) ∧
      ∀ l ∈ currentLayouts (checkStorageDecls decls).1, ¬ 2^32 ∣ l.eventTypeID.toNat) := by
  have hsound := checkStorageDecls_sound haccepted
  have hwrites : ∀ l ∈ currentLayouts (checkStorageDecls decls).1, ∀ ids,
      Writes enc l ids ↔ ids = (l.eventTypeID.toUInt32, l.layoutID.toUInt32) :=
    fun l hl ids => writes_iff (currentLayouts_placed hsound hl) hcode ids
  have hzero : ∀ v : UInt64, v.toUInt32 = 0 ↔ 2^32 ∣ v.toNat := by
    intro v
    rw [show (0 : UInt32) = (0 : UInt64).toUInt32 from rfl, toUInt32_eq_iff]
    exact (Nat.dvd_iff_mod_eq_zero ..).symm
  constructor
  · rintro ⟨hdistinct,hnonzero⟩
    refine ⟨fun l hl l' hl' htype hlayout => ?_,fun l hl hdvd => ?_⟩
    · by_contra hne
      refine hdistinct l hl l' hl' (fun h => hne (by rw [h])) _ _ ((hwrites l hl _).mpr rfl)
        ((hwrites l' hl' _).mpr rfl) ?_
      rw [Prod.mk.injEq]
      exact ⟨(toUInt32_eq_iff ..).mpr htype,(toUInt32_eq_iff ..).mpr hlayout⟩
    · exact hnonzero l hl _ ((hwrites l hl _).mpr rfl) ((hzero _).mpr hdvd)
  · rintro ⟨hdistinct,hnonzero⟩
    refine ⟨fun l hl l' hl' hne ids ids' hw hw' heq => ?_,fun l hl ids hw h0 => ?_⟩
    · rw [(hwrites l hl ids).mp hw, (hwrites l' hl' ids').mp hw', Prod.mk.injEq] at heq
      exact hne (currentLayouts_distinct hsound hl hl' (hdistinct l hl l' hl'
        ((toUInt32_eq_iff ..).mp heq.1) ((toUInt32_eq_iff ..).mp heq.2)))
    · rw [(hwrites l hl ids).mp hw] at h0
      exact hnonzero l hl ((hzero _).mp h0)

/-- Two events; the first one has a former layout as well. -/
def smallIds : List (String × EventDecl) :=
  [("app", ⟨"Created","1",[⟨"1",false,[]⟩, ⟨"2",true,[]⟩]⟩),
    ("app", ⟨"Renamed","2",[⟨"1",true,[]⟩]⟩)]

theorem smallIds_current {l : EventLayout}
    (hl : l ∈ currentLayouts (checkStorageDecls smallIds).1) :
    l.eventTypeID = 1 ∨ l.eventTypeID = 2 := by
  obtain ⟨entry,he,info,hi,rfl⟩ := mem_currentLayouts.mp hl
  have hentry : entry ∈ [_, _] := he
  rcases mem_pair.mp hentry with rfl | rfl
  · exact .inr rfl
  · exact .inl rfl

theorem slot_ids_distinct_small :
    (checkStorageDecls smallIds).2 = [] ∧
    (∃ code, Crc32c.compileStorageCRC32CHelperUnit threeBytes = .ok code) ∧
    ∀ l ∈ currentLayouts (checkStorageDecls smallIds).1,
      ∀ l' ∈ currentLayouts (checkStorageDecls smallIds).1, l ≠ l' →
        ∀ ids ids', Writes threeBytes l ids → Writes threeBytes l' ids' → ids ≠ ids' := by
  have haccepted : (checkStorageDecls smallIds).2 = [] := rfl
  obtain ⟨code,hcode⟩ := threeBytes_code
  refine ⟨haccepted,⟨code,hcode⟩,?_⟩
  refine ((slot_ids_distinct_iff haccepted hcode).mpr ⟨fun l hl l' hl' htype _ => ?_,
    fun l hl => ?_⟩).1
  · rcases smallIds_current hl with h | h <;> rcases smallIds_current hl' with h' | h' <;>
      rw [h, h'] at htype ⊢ <;> exact absurd htype (by decide)
  · rcases smallIds_current hl with h | h <;> rw [h] <;> decide

/-- Events whose ids differ above the low half only, or there only from 0. -/
def wideIds : List (String × EventDecl) :=
  [("app", ⟨"Created","1",[⟨"1",true,[]⟩]⟩),
    ("app", ⟨"Renamed","4294967297",[⟨"1",true,[]⟩]⟩),
    ("app", ⟨"Removed","4294967296",[⟨"1",true,[]⟩]⟩)]

def wideLayout (name : String) (id : UInt64) : EventLayout :=
  ⟨"app",name,id,1,true,0,1,[]⟩

/-- Two events share their ids on disk, and the third looks like an empty slot. -/
theorem slot_ids_collide :
    (checkStorageDecls wideIds).2 = [] ∧
    wideLayout "Created" 1 ∈ currentLayouts (checkStorageDecls wideIds).1 ∧
    wideLayout "Renamed" 4294967297 ∈ currentLayouts (checkStorageDecls wideIds).1 ∧
    wideLayout "Removed" 4294967296 ∈ currentLayouts (checkStorageDecls wideIds).1 ∧
    Writes threeBytes (wideLayout "Created" 1) (1, 1) ∧
    Writes threeBytes (wideLayout "Renamed" 4294967297) (1, 1) ∧
    Writes threeBytes (wideLayout "Removed" 4294967296) (0, 1) := by
  obtain ⟨code,hcode⟩ := threeBytes_code
  have hwrites : ∀ name id, Writes threeBytes (wideLayout name id) (id.toUInt32, 1) :=
    fun name id => (writes_iff (show PayloadPlaced 0 [] from Nat.zero_le _) hcode _).mpr rfl
  refine ⟨rfl,?_,?_,?_,hwrites _ _,hwrites _ _,hwrites _ _⟩
  · exact mem_currentLayouts.mpr ⟨_,.tail _ (.tail _ (.head _)),_,.head _,rfl⟩
  · exact mem_currentLayouts.mpr ⟨_,.tail _ (.head _),_,.head _,rfl⟩
  · exact mem_currentLayouts.mpr ⟨_,.head _,_,.head _,rfl⟩

end Wrela.Codegen

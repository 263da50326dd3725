import Wrela.Codegen.EncoderCall

/-!
# The slot of an accepted layout's encoder

The payload of an accepted layout lies in the slot, so the operations in front
of the checksum write it from front to back and stay inside it. The slot that
the reference format writes for the same arguments is compared with memory field
by field.
-/

set_option autoImplicit false

namespace Wrela.Codegen
open X86 Ir Sem List

section
variable {fields : List EventPayloadField} {cursor : ℕ} {f : EventPayloadField}

theorem FieldFits.pos (h : FieldFits f) : 0 < f.storageSize :=
  lt_of_lt_of_le (Site.storageSize_pos f.type) h.storage

theorem FieldFits.storageSize_eq (h : FieldFits f) (hf : f.type.isHandleType = false) :
    f.type.storageSize = f.storageSize := by
  obtain ⟨p,hp⟩ := Site.exists_prim hf
  rw [h.prim p hp, hp, storageSize_prim]

theorem PayloadPlaced.length_le (h : PayloadPlaced cursor fields) : cursor+fields.length ≤ 448 := by
  induction fields generalizing cursor with
  | nil => exact h
  | cons f fields ih =>
    obtain ⟨hle,hfits,hrest⟩ := h
    have := ih hrest
    have := FieldFits.pos hfits
    rw [length_cons]
    omega

theorem PayloadPlaced.mem (h : PayloadPlaced cursor fields) (hf : f ∈ fields) :
    cursor ≤ f.offset ∧ FieldFits f ∧ f.offset+f.storageSize ≤ 448 := by
  induction fields generalizing cursor with
  | nil => cases hf
  | cons g fields ih =>
    obtain ⟨hle,hfits,hrest⟩ := h
    rcases mem_cons.mp hf with rfl | hf
    · exact ⟨hle,hfits,le_trans (Nat.le_add_right _ _) (PayloadPlaced.length_le hrest)⟩
    · obtain ⟨hle',hfits',hend⟩ := ih hrest hf
      exact ⟨by omega,hfits',hend⟩

theorem PayloadPlaced.frame_small {layout : EventLayout} (h : PayloadPlaced 0 layout.payloadFields) :
    encoderFrameSize layout < 2^31 := by
  have hlen := PayloadPlaced.length_le h
  have hsize := encoderFrameSize_le layout
  omega

end

variable {ops : List StorageOp} {op : StorageOp} {f : EventPayloadField} {offset : ℕ}

section
variable {fields : List EventPayloadField} {cursor : ℕ} (byName : String → Value)

open Encoder in
theorem payloadOps_ascending (h : PayloadPlaced cursor fields)
    (ho : StorageOp.Ascending (64+(payloadOps byName cursor fields).2) ops) :
    StorageOp.Ascending (64+cursor) ((payloadOps byName cursor fields).1++ops) := by
  induction fields generalizing cursor with
  | nil => exact ho
  | cons f fields ih =>
    obtain ⟨hle,hfits,hrest⟩ := h
    have hrest := (ih hrest ho).mono (show 64+f.offset+f.type.storageSize ≤
      64+(f.offset+f.storageSize) by have := hfits.storage; omega)
    simp only [payloadOps, append_assoc, cons_append]
    split_ifs with hgap
    · exact ⟨le_refl _,by simp only [StorageOp.start, StorageOp.length]; omega,hrest⟩
    · exact ⟨by simp only [StorageOp.start]; omega,hrest⟩

open Encoder in
theorem mem_payloadOps_iff (h : PayloadPlaced cursor fields)
    (hop : op ∈ (payloadOps byName cursor fields).1) :
    (∃ offset length, op = .payloadZero slot offset length ∧ offset+length ≤ 512) ∨
      ∃ f ∈ fields, op = .slotStore slot (64+f.offset) (byName f.name) f.type := by
  induction fields generalizing cursor with
  | nil => cases hop
  | cons f fields ih =>
    have hmem := PayloadPlaced.mem h (mem_cons_self ..)
    obtain ⟨hle,hfits,hrest⟩ := h
    simp only [payloadOps, mem_append, mem_cons] at hop
    rcases hop with hop | rfl | hop
    · split_ifs at hop with hgap
      · rw [mem_singleton] at hop
        exact .inl ⟨_,_,hop,by omega⟩
      · cases hop
    · exact .inr ⟨f,mem_cons_self ..,rfl⟩
    · rcases ih hrest hop with hzero | ⟨g,hg,rfl⟩
      · exact .inl hzero
      · exact .inr ⟨g,mem_cons_of_mem _ hg,rfl⟩

open Encoder in
theorem slotStore_mem_payloadOps (hf : f ∈ fields) :
    .slotStore slot (64+f.offset) (byName f.name) f.type ∈ (payloadOps byName cursor fields).1 := by
  induction fields generalizing cursor with
  | nil => cases hf
  | cons g fields ih =>
    simp only [payloadOps, mem_append, mem_cons]
    rcases mem_cons.mp hf with rfl | hf
    · exact .inr (.inl rfl)
    · exact .inr (.inr (ih hf))

end

section
variable {layout : EventLayout}

open Encoder in
def fillOps (cursor : ℕ) : List StorageOp :=
  if cursor < 448 then [.payloadZero slot (64+cursor) (448-cursor)] else []

open Encoder in
def frontOps (layout : EventLayout) : List StorageOp :=
  let payload := payloadOps (payloadParamByName layout.payloadFields) 0 layout.payloadFields
  headerOps layout++(payload.1++fillOps payload.2)

theorem encoderOps_eq (layout : EventLayout) : encoderOps layout = frontOps layout++
    [.slotStore Encoder.slot 48 (Encoder.storageConst 14 0 Encoder.u32) Encoder.u32] := by
  simp [encoderOps, frontOps, fillOps, Encoder.bodyOps]

theorem headerOps_ascending (h : StorageOp.Ascending 64 ops) :
    StorageOp.Ascending 0 (Encoder.headerOps layout++ops) := by
  refine ⟨?_,?_,?_,?_,?_,?_,?_,?_,?_,?_,?_,?_,h⟩ <;> exact Nat.le_of_ble_eq_true rfl

theorem fillOps_ascending (cursor : ℕ) : StorageOp.Ascending (64+cursor) (fillOps cursor) := by
  rw [fillOps]
  split_ifs
  · exact ⟨le_refl _,trivial⟩
  · trivial

theorem frontOps_ascending (h : PayloadPlaced 0 layout.payloadFields) :
    StorageOp.Ascending 0 (frontOps layout) :=
  headerOps_ascending (payloadOps_ascending _ h (fillOps_ascending _))

theorem slotStore_mem_frontOps (hf : f ∈ layout.payloadFields) :
    .slotStore Encoder.slot (64+f.offset)
      (Encoder.payloadParamByName layout.payloadFields f.name) f.type ∈ frontOps layout :=
  mem_append_right _ (mem_append_left _ (slotStore_mem_payloadOps _ hf))

theorem encoderOps_values {slot value : Value} {type : Ty}
    (hop : .slotStore slot offset value type ∈ encoderOps layout) :
    value = valueOf layout value.id ∧ ∃ d, (encoderFrame layout).slots value.id = some d := by
  have hv : value ∈ laterValues layout := by
    rw [laterValues, lowerEventEncoder]
    refine mem_append_right _ (mem_flatMap.mpr ⟨_,mem_append_left _ hop,?_⟩)
    simp [valuesDefinedBy]
  exact ⟨valueOf_later layout hv,exists_slot_later layout hv⟩

theorem mem_headerOps (hop : op ∈ Encoder.headerOps layout) :
    ∃ offset value p, op = .slotStore Encoder.slot offset value (.prim p) ∧
      (offset+p.size ≤ 48 ∨ 52 ≤ offset ∧ offset+p.size ≤ 64) := by
  simp only [Encoder.headerOps, mem_cons, not_mem_nil, or_false] at hop
  rcases hop with rfl | rfl | rfl | rfl | rfl | rfl | rfl | rfl | rfl | rfl | rfl | rfl <;>
    exact ⟨_,_,_,rfl,by decide⟩

theorem mem_encoderOps (h : PayloadPlaced 0 layout.payloadFields) (hop : op ∈ encoderOps layout) :
    (∃ offset length, op = .payloadZero Encoder.slot offset length ∧ offset+length ≤ 512) ∨
    (∃ offset value p, op = .slotStore Encoder.slot offset value (.prim p) ∧ offset+p.size ≤ 64) ∨
    ∃ f ∈ layout.payloadFields, op = .slotStore Encoder.slot (64+f.offset)
      (Encoder.payloadParamByName layout.payloadFields f.name) f.type := by
  simp only [encoderOps_eq, frontOps, mem_append, mem_singleton] at hop
  rcases hop with (hop | hop | hop) | rfl
  · obtain ⟨offset,value,p,rfl,hle⟩ := mem_headerOps hop
    exact .inr (.inl ⟨_,_,_,rfl,by omega⟩)
  · rcases mem_payloadOps_iff _ h hop with hzero | hfield
    · exact .inl hzero
    · exact .inr (.inr hfield)
  · rw [fillOps] at hop
    split_ifs at hop
    · rw [mem_singleton] at hop
      exact .inl ⟨_,_,hop,by omega⟩
    · cases hop
  · exact .inr (.inl ⟨48,_,.u32,rfl,by decide⟩)

/-- Where a field's store copies through a handle, or from the frame, it must
miss the slot and the frame. -/
def CalmField (e : Site) (f : EventPayloadField) : Prop :=
  let v := Encoder.payloadParamByName e.layout.payloadFields f.name
  if v.type.isHandleType then
    Disjoint (e.word v+BitVec.ofNat 64 (64+f.offset)) f.type.storageSize e.slot 512 ∧
      Disjoint (e.word v+BitVec.ofNat 64 (64+f.offset)) f.type.storageSize
        (e.base-BitVec.ofNat 64 e.size) e.size
  else ∀ d, e.frame.slots v.id = some d → Disjoint (e.base+BitVec.ofInt 64 d) 512 e.slot 512

theorem encoderOps_calm {e : Site} (h : PayloadPlaced 0 e.layout.payloadFields)
    (hf : ∀ f ∈ e.layout.payloadFields, f.type.isHandleType → CalmField e f) :
    ∀ op ∈ encoderOps e.layout, e.Calm op := by
  intro op hop
  rcases mem_encoderOps h hop with ⟨offset,length,rfl,hle⟩ | ⟨offset,value,p,rfl,hle⟩ | ⟨f,hmem,rfl⟩
  · exact ⟨rfl,hle⟩
  · obtain ⟨hv,d,hd⟩ := encoderOps_values hop
    refine ⟨rfl,?_,hv,d,hd,fun h => by cases h⟩
    rw [storageSize_prim]
    omega
  · obtain ⟨hv,d,hd⟩ := encoderOps_values hop
    obtain ⟨-,hfits,hend⟩ := PayloadPlaced.mem h hmem
    have hstorage := hfits.storage
    refine ⟨rfl,by omega,hv,d,hd,fun ht => ?_⟩
    have hcalm := hf f hmem ht
    rw [CalmField] at hcalm
    split_ifs at hcalm ⊢ with hh
    · refine ⟨?_,hcalm⟩
      obtain ⟨i,hi⟩ := getElem?_of_mem hmem
      obtain ⟨p,g,-,-,heq,-⟩ := payloadParamByName_eq hi
      rw [heq]
      rfl
    · exact hcalm d hd

end

namespace Site
variable {e : Site} {c c' : ℕ → BitVec 8} {ops ops' : List StorageOp}

theorem Filled.split (h : e.Filled (ops++ops') c c') :
    ∃ c₁, e.Filled ops c c₁ ∧ e.Filled ops' c₁ c' := by
  induction ops generalizing c with
  | nil => exact ⟨c,.nil c,h⟩
  | cons op ops ih =>
    cases h with
    | cons hw rest =>
      obtain ⟨c₁,h1,h2⟩ := ih rest
      exact ⟨c₁,.cons hw h1,h2⟩

section
variable (h : e.Filled (encoderOps e.layout) c c') (hp : PayloadPlaced 0 e.layout.payloadFields)
  {j : ℕ}
include h hp

theorem Filled.final :
    (∀ op ∈ frontOps e.layout, ∃ f c₀, e.Written op c₀ f ∧ (∀ k, op.start ≤ k → c₀ k = c k) ∧
      ∀ j < op.length, ¬ (48 ≤ op.start+j ∧ op.start+j < 52) → c' (op.start+j) = f j) ∧
    ∀ j < 4, c' (48+j) = 0 := by
  rw [encoderOps_eq] at h
  obtain ⟨c₁,hfront,hlast⟩ := h.split
  obtain ⟨f,hw,hc'⟩ : ∃ f, e.Written (.slotStore Encoder.slot 48
      (Encoder.storageConst 14 0 Encoder.u32) Encoder.u32) c₁ f ∧ c' = put 48 4 f c₁ := by
    cases hlast with
    | cons hw rest =>
      cases rest
      exact ⟨_,hw,rfl⟩
  subst hc'
  refine ⟨fun op hop => ?_,fun j hj => ?_⟩
  · obtain ⟨g,c₀,hg,hc₀,hat⟩ := hfront.at (frontOps_ascending hp) hop
    refine ⟨g,c₀,hg,hc₀,fun j hj hout => ?_⟩
    rw [put, if_neg hout, hat j hj]
  · rw [put, if_pos (by omega), show f = byteOf (e.word (Encoder.storageConst 14 0 Encoder.u32))
      from hw]
    exact byteOf_zero _

theorem Filled.header {v : Value} {p : Prim}
    (hop : .slotStore Encoder.slot offset v (.prim p) ∈ Encoder.headerOps e.layout)
    (hj : j < p.size) : c' (offset+j) = byteOf (e.word v) j := by
  obtain ⟨f,c₀,hw,-,hat⟩ := (h.final hp).1 _ (mem_append_left _ hop)
  obtain ⟨_,_,_,heq,hle⟩ := mem_headerOps hop
  cases heq
  have hf : f = byteOf (e.word v) := hw
  rw [← hf]
  refine hat j ?_ ?_
  · rwa [StorageOp.length, storageSize_prim]
  · rw [StorageOp.start]
    omega

theorem Filled.field (hf : f ∈ e.layout.payloadFields) (ht : f.type.isHandleType = false)
    (hj : j < f.type.storageSize) : c' (64+f.offset+j) =
      byteOf (e.word (Encoder.payloadParamByName e.layout.payloadFields f.name)) j := by
  have hop := slotStore_mem_frontOps hf
  obtain ⟨g,c₀,hw,-,hat⟩ := (h.final hp).1 _ hop
  rw [Written, if_neg (by simp [ht])] at hw
  rw [← hw]
  exact hat j hj (by rw [StorageOp.start]; omega)

/-- The first byte of a payload field with a record or an enum: what the slot
held, or a byte of the frame. -/
theorem Filled.handleField (hf : f ∈ e.layout.payloadFields) (ht : f.type.isHandleType) :
    c' (64+f.offset) = c (64+f.offset) ∨ ∃ d,
      e.frame.slots (Encoder.payloadParamByName e.layout.payloadFields f.name).id = some d ∧
        c' (64+f.offset) = e.mem (e.base+BitVec.ofInt 64 d) := by
  have hop := slotStore_mem_frontOps hf
  obtain ⟨g,c₀,hw,hc₀,hat⟩ := (h.final hp).1 _ hop
  rw [Written, if_pos ht] at hw
  have hat := hat 0 (storageSize_pos f.type) (by rw [StorageOp.start]; omega)
  have hc₀ := hc₀ (64+f.offset) (le_refl _)
  rw [StorageOp.start, add_zero] at hat
  rw [hat]
  rcases hw with hw | hw
  · exact .inl (hw.trans hc₀)
  · exact .inr hw

theorem Filled.zero {length : ℕ} (ho : 64 ≤ offset)
    (hop : .payloadZero Encoder.slot offset length ∈ frontOps e.layout) (hj : j < length) :
    c' (offset+j) = 0 := by
  obtain ⟨f,c₀,hw,-,hat⟩ := (h.final hp).1 _ hop
  have hf : f = fun _ => 0 := hw
  rw [hf] at hat
  exact hat j hj (by rw [StorageOp.start]; omega)

end

end Site

open StorageFormat BitVec

/-- The arguments of an encoder; `payload` are those of the payload fields in
their order, a handle for a record or an enum. -/
structure EncoderArgs where
  slot : Word
  eventID : UInt64
  streamID : UInt64
  streamSequence : UInt64
  atomicGroupLen : UInt32
  atomicGroupIndex : UInt32
  payloadLength : UInt32
  flags : UInt32
  payload : ℕ → Word

def word32 (v : UInt32) : Word := v.toBitVec.setWidth 64

def EncoderArgs.word (a : EncoderArgs) : ℕ → Word
  | 0 => a.slot
  | 1 => a.eventID.toBitVec
  | 2 => a.streamID.toBitVec
  | 3 => a.streamSequence.toBitVec
  | 4 => word32 a.atomicGroupLen
  | 5 => word32 a.atomicGroupIndex
  | 6 => word32 a.payloadLength
  | 7 => word32 a.flags
  | id => a.payload (id-15)

theorem EncoderArgs.word_payload (a : EncoderArgs) (i : ℕ) : a.word (15+i) = a.payload i := by
  rw [add_comm]
  rfl

def fieldByte (m : Mem) (type : Ty) (w : Word) (k : ℕ) : BitVec 8 :=
  if type.isHandleType then m (w+BitVec.ofNat 64 k) else byteOf w k

/-- A payload byte; `i` is the position of the first field. -/
def payloadByte (m : Mem) (payload : ℕ → Word) : ℕ → List EventPayloadField → ℕ → BitVec 8
  | _, [], _ => 0
  | i, f::fields, k =>
    if f.offset ≤ k ∧ k < f.offset+f.type.storageSize then
      fieldByte m f.type (payload i) (k-f.offset)
    else payloadByte m payload (i+1) fields k

def referenceHeader (layout : EventLayout) (a : EncoderArgs) : EventSlotHeader where
  eventID := a.eventID
  streamID := a.streamID
  streamSequence := a.streamSequence
  eventTypeID := layout.eventTypeID.toUInt32
  payloadLayoutID := layout.layoutID.toUInt32
  atomicGroupLen := a.atomicGroupLen
  atomicGroupIndex := a.atomicGroupIndex
  payloadLength := a.payloadLength
  flags := a.flags
  checksum32 := 0
  headerVersion := 1
  reserved16 := 0
  reserved64 := 0

def referenceSlot (layout : EventLayout) (a : EncoderArgs) (m : Mem) : Slot :=
  refreshSlotChecksum ⟨referenceHeader layout a,Vector.ofFn fun k =>
    UInt8.ofBitVec (payloadByte m a.payload 0 layout.payloadFields k)⟩

variable {k j : ℕ}

section
variable {c : ℕ → BitVec 8}

def segment (c : ℕ → BitVec 8) (o n : ℕ) : List UInt8 :=
  (List.range n).map fun j => UInt8.ofBitVec (c (o+j))

theorem segment_length (o n : ℕ) : (segment c o n).length = n := by
  rw [segment, length_map, length_range]

theorem segment_add (o n k : ℕ) : segment c o (n+k) = segment c o n++segment c (o+n) k := by
  simp only [segment, range_add, map_append, map_map, Function.comp_def, add_assoc]

theorem contentBytes_eq_segment : contentBytes c = segment c 0 512 := by
  simp [contentBytes, segment]

theorem contentBytes_getElem (hk : k < 512) :
    (contentBytes c)[k]? = some (UInt8.ofBitVec (c k)) := by
  rw [contentBytes, getElem?_map, getElem?_range hk]
  rfl

variable (slot : Slot) (checksum : UInt32)

theorem slotBytes_payloadLength :
    (slotBytes slot checksum)[40]? = some (UInt8.ofNat slot.header.payloadLength.toNat) := by
  simp [slotBytes, littleEndian]

theorem slotBytes_flags :
    (slotBytes slot checksum)[44]? = some (UInt8.ofNat slot.header.flags.toNat) := by
  simp [slotBytes, littleEndian]

theorem slotBytes_payload (k : ℕ) : (slotBytes slot checksum)[64+k]? = slot.payload.toList[k]? := by
  rw [slotBytes, getElem?_append_right] <;> simp [littleEndian_length]

theorem byteOf_succ (w : Word) (j : ℕ) : byteOf w (j+1) = byteOf (w >>> 8) j := by
  rw [byteOf, byteOf, Nat.mul_succ, add_comm, shiftRight_add]

theorem ofBitVec_byteOf (w : Word) : UInt8.ofBitVec (byteOf w 0) = UInt8.ofNat w.toNat := rfl

theorem segment_word {o n : ℕ} {w : Word} (h : ∀ j < n, c (o+j) = byteOf w j) :
    segment c o n = littleEndian n w.toNat := by
  induction n generalizing o w with
  | zero => rfl
  | succ n ih =>
    have h0 : c o = byteOf w 0 := h 0 (Nat.succ_pos n)
    have hrest : segment c (o+1) n = littleEndian n (w >>> 8).toNat := by
      refine ih fun j hj => ?_
      rw [← byteOf_succ, ← h (j+1) (by omega)]
      congr 1
      omega
    have hfirst : segment c o 1 = [UInt8.ofNat w.toNat] := by
      show [UInt8.ofBitVec (c o)] = _
      rw [h0, ofBitVec_byteOf]
    rw [add_comm n 1, segment_add, hfirst, hrest, add_comm 1 n, littleEndian,
      toNat_ushiftRight, Nat.shiftRight_eq_div_pow]
    rfl

def headerWords (h : EventSlotHeader) (checksum : UInt32) : List (ℕ × ℕ × Word) :=
  [(0,8,h.eventID.toBitVec),(8,8,h.streamID.toBitVec),(16,8,h.streamSequence.toBitVec),
    (24,4,word32 h.eventTypeID),(28,4,word32 h.payloadLayoutID),(32,4,word32 h.atomicGroupLen),
    (36,4,word32 h.atomicGroupIndex),(40,4,word32 h.payloadLength),(44,4,word32 h.flags),
    (48,4,word32 checksum),(52,2,h.headerVersion.toBitVec.setWidth 64),
    (54,2,h.reserved16.toBitVec.setWidth 64),(56,8,h.reserved64.toBitVec)]

theorem toNat_word32 (v : UInt32) : (word32 v).toNat = v.toNat := by
  rw [word32, toNat_setWidth]
  exact Nat.mod_eq_of_lt (lt_trans v.toBitVec.isLt (by decide))

theorem toNat_word16 (v : UInt16) : (v.toBitVec.setWidth 64).toNat = v.toNat := by
  rw [toNat_setWidth]
  exact Nat.mod_eq_of_lt (lt_trans v.toBitVec.isLt (by decide))

theorem headerWords_refresh :
    headerWords (refreshSlotChecksum slot).header checksum = headerWords slot.header checksum := rfl

theorem refresh_payload : (refreshSlotChecksum slot).payload = slot.payload := rfl

theorem refresh_checksum : (refreshSlotChecksum slot).header.checksum32 =
    crc32c (slotBytes (refreshSlotChecksum slot) 0) := rfl

theorem contentBytes_eq_slotBytes {slot : Slot} {checksum : UInt32}
    (hh : ∀ x ∈ headerWords slot.header checksum, ∀ j < x.2.1, c (x.1+j) = byteOf x.2.2 j)
    (hp : segment c 64 448 = slot.payload.toList) : contentBytes c = slotBytes slot checksum := by
  simp only [headerWords, forall_mem_cons] at hh
  obtain ⟨h0,h1,h2,h3,h4,h5,h6,h7,h8,h9,h10,h11,h12,-⟩ := hh
  rw [contentBytes_eq_segment, show 512 = 8+8+8+4+4+4+4+4+4+4+2+2+8+448 from rfl]
  iterate 13 rw [segment_add]
  simp only [zero_add, Nat.reduceAdd]
  rw [segment_word h0, segment_word h1, segment_word h2, segment_word h3, segment_word h4,
    segment_word h5, segment_word h6, segment_word h7, segment_word h8, segment_word h9,
    segment_word h10, segment_word h11, segment_word h12, hp]
  simp only [toNat_word32, toNat_word16]
  rfl

theorem crc32c_word (v : UInt32) : Crc32c.word v = word32 v := rfl

theorem word32_toUInt32 (v : UInt64) : word32 v.toUInt32 = lowBytes 4 v.toBitVec := by
  apply eq_of_toNat_eq
  rw [toNat_word32, toNat_lowBytes 4 (by decide)]
  rfl

theorem byteOf_word32 (v : UInt64) (hj : j < 4) :
    byteOf (word32 v.toUInt32) j = byteOf v.toBitVec j := by
  rw [word32_toUInt32, byteOf_lowBytes _ _ _ (by omega), if_pos hj]

theorem headerWords_put {h : EventSlotHeader} {checksum : UInt32}
    (hh : ∀ x ∈ headerWords h 0, ∀ j < x.2.1, c (x.1+j) = byteOf x.2.2 j) :
    ∀ x ∈ headerWords h checksum, ∀ j < x.2.1,
      put 48 4 (byteOf (word32 checksum)) c (x.1+j) = byteOf x.2.2 j := by
  simp only [headerWords, forall_mem_cons] at hh ⊢
  obtain ⟨h0,h1,h2,h3,h4,h5,h6,h7,h8,-,h10,h11,h12,-⟩ := hh
  have hother : ∀ {o n : ℕ} {w : Word}, o+n ≤ 48 ∨ 52 ≤ o → (∀ j < n, c (o+j) = byteOf w j) →
      ∀ j < n, put 48 4 (byteOf (word32 checksum)) c (o+j) = byteOf w j := by
    intro o n w ho hc j hj
    rw [put, if_neg (by omega), hc j hj]
  refine ⟨hother (by decide) h0,hother (by decide) h1,hother (by decide) h2,hother (by decide) h3,
    hother (by decide) h4,hother (by decide) h5,hother (by decide) h6,hother (by decide) h7,
    hother (by decide) h8,fun j hj => ?_,hother (by decide) h10,hother (by decide) h11,
    hother (by decide) h12,by simp⟩
  rw [put, if_pos (by omega), Nat.add_sub_cancel_left]

end

section
variable {m : Mem} {payload : ℕ → Word} {fields : List EventPayloadField} {cursor : ℕ}

theorem payloadByte_before (h : PayloadPlaced cursor fields) (i : ℕ) (hk : k < cursor) :
    payloadByte m payload i fields k = 0 := by
  induction fields generalizing cursor i with
  | nil => rfl
  | cons f fields ih =>
    obtain ⟨hle,-,hrest⟩ := h
    rw [payloadByte, if_neg (by omega), ih hrest (i+1) (by omega)]

theorem payloadByte_at (h : PayloadPlaced cursor fields) (i : ℕ) {f : EventPayloadField}
    (hf : fields[j]? = some f) (hk : k < f.type.storageSize) :
    payloadByte m payload i fields (f.offset+k) = fieldByte m f.type (payload (i+j)) k := by
  induction fields generalizing cursor i j with
  | nil => cases hf
  | cons g fields ih =>
    obtain ⟨-,hfits,hrest⟩ := h
    rw [payloadByte]
    cases j with
    | zero =>
      cases hf
      rw [if_pos (by omega), Nat.add_sub_cancel_left]
      rfl
    | succ j =>
      have hle := (PayloadPlaced.mem hrest (mem_of_getElem? hf)).1
      have hstorage := hfits.storage
      rw [if_neg (by omega), ih hrest (i+1) hf, add_assoc, add_comm 1 j]

variable (byName : String → Value)

open Encoder in
theorem le_payloadOps_end (h : PayloadPlaced cursor fields) :
    cursor ≤ (payloadOps byName cursor fields).2 := by
  induction fields generalizing cursor with
  | nil => exact le_refl _
  | cons f fields ih =>
    obtain ⟨hle,-,hrest⟩ := h
    exact le_trans (le_trans hle (Nat.le_add_right _ _)) (ih hrest)

open Encoder in
theorem payloadByte_after (h : PayloadPlaced cursor fields) (i : ℕ)
    (hk : (payloadOps byName cursor fields).2 ≤ k) : payloadByte m payload i fields k = 0 := by
  induction fields generalizing cursor i with
  | nil => rfl
  | cons f fields ih =>
    obtain ⟨-,hfits,hrest⟩ := h
    have hend := le_trans (le_payloadOps_end byName hrest) hk
    have hstorage := hfits.storage
    rw [payloadByte, if_neg (by omega)]
    exact ih hrest (i+1) hk

open Encoder in
theorem content_payload {c : ℕ → BitVec 8} (h : PayloadPlaced cursor fields)
    (i : ℕ) (hprim : ∀ f ∈ fields, f.type.isHandleType = false)
    (hfield : ∀ j f, fields[j]? = some f → ∀ k < f.type.storageSize,
      c (64+f.offset+k) = fieldByte m f.type (payload (i+j)) k)
    (hzero : ∀ offset length, 64 ≤ offset →
      .payloadZero slot offset length ∈ (payloadOps byName cursor fields).1 →
        ∀ k < length, c (offset+k) = 0) (hk : cursor ≤ k)
    (hend : k < (payloadOps byName cursor fields).2) :
    c (64+k) = payloadByte m payload i fields k := by
  induction fields generalizing cursor i with
  | nil => exact absurd hend (by simp only [payloadOps]; omega)
  | cons f fields ih =>
    have hplaced := h
    obtain ⟨hle,hfits,hrest⟩ := h
    have hsize := FieldFits.storageSize_eq hfits (hprim f (mem_cons_self ..))
    rcases lt_or_ge k f.offset with hgap | hge
    · -- before the field: a fill
      have hop : .payloadZero slot (64+cursor) (f.offset-cursor) ∈
          (payloadOps byName cursor (f::fields)).1 := by
        simp only [payloadOps, if_pos (show f.offset > cursor by omega)]
        exact mem_append_left _ (mem_singleton_self _)
      have hbyte := hzero _ _ (by omega) hop (k-cursor) (by omega)
      rw [show 64+cursor+(k-cursor) = 64+k by omega] at hbyte
      rw [hbyte, payloadByte, if_neg (by omega), payloadByte_before hrest (i+1) (by omega)]
    · rcases lt_or_ge k (f.offset+f.storageSize) with hin | hafter
      · have hbyte := hfield 0 f rfl (k-f.offset) (by omega)
        have hat : payloadByte m payload i (f::fields) (f.offset+(k-f.offset)) =
            fieldByte m f.type (payload (i+0)) (k-f.offset) :=
          payloadByte_at hplaced i rfl (by omega)
        rw [show 64+f.offset+(k-f.offset) = 64+k by omega] at hbyte
        rw [show f.offset+(k-f.offset) = k by omega] at hat
        rw [hbyte, hat]
      · rw [payloadByte, if_neg (by omega)]
        refine ih hrest (i+1) (fun g hg => hprim g (mem_cons_of_mem _ hg))
          (fun j g hg => ?_) (fun offset length ho hop => ?_) hafter hend
        · rw [add_assoc, add_comm 1 j]
          exact hfield (j+1) g hg
        · refine hzero offset length ho ?_
          simp only [payloadOps, mem_append, mem_cons]
          exact .inr (.inr hop)

end

end Wrela.Codegen

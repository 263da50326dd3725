import Wrela.Codegen.Crc32c
import Wrela.Sem.Storage

/-!
# Event encoders

Every current event layout gets a function that fills a 512-byte slot from its
parameters: the header, the payload fields with zeros between them, and the
checksum of the whole. Parameters have home slots in the frame, which the
prologue fills from the argument registers. Values get slots one below the other,
so that different values have different slots and all lie in the frame.
-/

set_option autoImplicit false

namespace Wrela.Codegen
open X86 Ir

inductive StorageOp where
  | slotStore (slot : Value) (offset : ℕ) (value : Value) (type : Ty)
  | payloadZero (slot : Value) (offset length : ℕ)
  | crc32c (result slot : Value) (length : ℕ)
  | ret

structure IrFunction where
  params : List Value
  ops : List StorageOp

variable (layout : EventLayout)

namespace Encoder

def u16 : Ty := .prim .u16
def u32 : Ty := .prim .u32
def u64 : Ty := .prim .u64

def param (id : ℕ) (type : Ty) : Value := ⟨id,type,none⟩

def storageConst (id : ℕ) (value : UInt64) (type : Ty) : Value := ⟨id,type,some value.toBitVec⟩

def slot : Value := param 0 (.data [])
def eventID : Value := param 1 u64
def streamID : Value := param 2 u64
def streamSequence : Value := param 3 u64
def atomicGroupLen : Value := param 4 u32
def atomicGroupIndex : Value := param 5 u32
def payloadLength : Value := param 6 u32
def flags : Value := param 7 u32
def checksum : Value := param 8 u32

def headerParams : List Value :=
  [slot,eventID,streamID,streamSequence,atomicGroupLen,atomicGroupIndex,payloadLength,flags]

def payloadParamsFrom (id : ℕ) : List EventPayloadField → List Value
  | [] => []
  | field::fields => param id field.type::payloadParamsFrom (id+1) fields

def payloadParams (fields : List EventPayloadField) : List Value := payloadParamsFrom 15 fields

/-- The parameters by field name; of fields with one name the last stays. -/
def payloadParamByName (fields : List EventPayloadField) : String → Value :=
  (fields.zip (payloadParams fields)).foldl (fun params (field, p) =>
    Function.update params field.name p) fun _ => slot

def payloadOps (byName : String → Value) (payloadCursor : ℕ) :
    List EventPayloadField → List StorageOp × ℕ
  | [] => ([], payloadCursor)
  | field::fields =>
    let gap := if field.offset > payloadCursor then
      [.payloadZero slot (64+payloadCursor) (field.offset-payloadCursor)] else []
    let rest := payloadOps byName (field.offset+field.storageSize) fields
    (gap++.slotStore slot (64+field.offset) (byName field.name) field.type::rest.1, rest.2)

def headerOps : List StorageOp :=
  [.slotStore slot 0 eventID u64,
    .slotStore slot 8 streamID u64,
    .slotStore slot 16 streamSequence u64,
    .slotStore slot 24 (storageConst 9 layout.eventTypeID u32) u32,
    .slotStore slot 28 (storageConst 10 layout.layoutID u32) u32,
    .slotStore slot 32 atomicGroupLen u32,
    .slotStore slot 36 atomicGroupIndex u32,
    .slotStore slot 40 payloadLength u32,
    .slotStore slot 44 flags u32,
    .slotStore slot 52 (storageConst 11 1 u16) u16,
    .slotStore slot 54 (storageConst 12 0 u16) u16,
    .slotStore slot 56 (storageConst 13 0 u64) u64]

def bodyOps : List StorageOp :=
  let payload := payloadOps (payloadParamByName layout.payloadFields) 0 layout.payloadFields
  payload.1++
    (if payload.2 < 448 then [.payloadZero slot (64+payload.2) (448-payload.2)] else [])++
    [.slotStore slot 48 (storageConst 14 0 u32) u32]

end Encoder

open Encoder in
def lowerEventEncoder : IrFunction :=
  ⟨headerParams++payloadParams layout.payloadFields,
    headerOps layout++bodyOps layout++
      [.crc32c checksum slot 512,.slotStore slot 48 checksum u32,.ret]⟩

def valuesDefinedBy : StorageOp → List Value
  | .slotStore slot _ value _ => [slot,value]
  | .payloadZero slot _ _ => [slot]
  | .crc32c result _ _ => [result]
  | .ret => []

def placeSlots (slots : List (ℕ × ℤ)) (offset : ℕ) : List Value → List (ℕ × ℤ) × ℕ
  | [] => (slots, offset)
  | v::vs =>
    if v.id ∈ slots.map (·.1) then placeSlots slots offset vs
    else
      let offset := offset+v.type.representationSize
      placeSlots (slots++[(v.id, -(offset:ℤ))]) offset vs

variable (frame : Frame) (fn : IrFunction)

def functionSlots : List (ℕ × ℤ) × ℕ :=
  placeSlots [] 0 (fn.params++fn.ops.flatMap valuesDefinedBy)

def buildFrame : Frame :=
  ⟨fun id => ((functionSlots fn).1.find? (·.1 = id)).map (·.2),fun _ => none⟩

def frameSize : ℕ := alignUp (functionSlots fn).2 16

def argRegs : List Reg := [.rdi,.rsi,.rdx,.rcx,.r8,.r9]

def emitStoreParam (p : Value) (reg : Reg) : List Instr :=
  match frame.slots p.id with
  | none => []
  | some slot => emitStoreSlotFromReg reg slot p.type.valueWidthBits

/-- Parameters beyond the argument registers keep what their slots hold. -/
def emitPrologue (params : List Value) (frame : Frame) (size : ℕ) : List Instr :=
  [.push .rbp,.movReg 8 .rbp .rsp]++(if size ≠ 0 then [.subImm .rsp (disp32 size)] else [])++
    (params.zip argRegs).flatMap fun p => emitStoreParam frame p.1 p.2

/-- The closing `ret` is the end of the code. -/
def emitEpilogue : List Instr := [.movReg 8 .rsp .rbp,.pop .rbp]

def storageSlotStoreWidthBits (type : Ty) : ℕ :=
  let width := type.storageSize*8
  if width = 0 then type.valueWidthBits else width

def emitStorageSlotStore (slot : Value) (offset : ℕ) (value : Value) (type : Ty) :
    Except Diagnostic (List Instr) := do
  let load ← emitLoadValue frame slot .r11
  let size := type.storageSize
  if type.isHandleType ∧ size > 0 then
    let (code, srcBase, srcDisp) ← emitValueAddress frame value
    return load++code++emitCopyMemoryToMemoryRange srcBase srcDisp .r11 offset size
  else
    let code ← emitLoadValue frame value .rax
    return load++code++emitStoreMemFromReg .r11 offset .rax (storageSlotStoreWidthBits type)

def emitStoragePayloadZero (slot : Value) (offset length : ℕ) : Except Diagnostic (List Instr) := do
  let load ← emitLoadValue frame slot .r11
  return load++emitMovImmToReg .rax 0++
    (copyTurns length length 0).flatMap fun (o, width) =>
      emitStoreMemFromReg .r11 (offset+o) .rax width

inductive Helper where
  | crc32cCastagnoli
  deriving DecidableEq, Repr

/-- The return address of the call is `ret`. -/
def emitStorageCRC32C (ret : Word) (result slot : Value) (length : ℕ) :
    Except Diagnostic (List (Block Helper)) := do
  let load ← emitLoadValue frame slot .rdi
  return [.code (load++emitMovImmToReg .rsi (BitVec.ofNat 64 length)),
    .call .crc32cCastagnoli ret,
    .code (match frame.slots result.id with
      | none => []
      | some slot => emitStoreSlotFromReg .rax slot (storageSlotStoreWidthBits result.type))]

def emitStorageOp (ret : Word) : StorageOp → Except Diagnostic (List (Block Helper))
  | .slotStore slot offset value type =>
    (emitStorageSlotStore frame slot offset value type).map fun code => [.code code]
  | .payloadZero slot offset length =>
    (emitStoragePayloadZero frame slot offset length).map fun code => [.code code]
  | .crc32c result slot length => emitStorageCRC32C frame ret result slot length
  | .ret => .ok [.code emitEpilogue]

def emitStorageOps (frame : Frame) (ret : Word) :
    List StorageOp → Except Diagnostic (List (Block Helper))
  | [] => .ok []
  | op::ops => do
    let code ← emitStorageOp frame ret op
    let rest ← emitStorageOps frame ret ops
    return code++rest

def compileFunction (ret : Word) : Except Diagnostic (List (Block Helper)) := do
  let code ← emitStorageOps (buildFrame fn) ret fn.ops
  return .code (emitPrologue fn.params (buildFrame fn) (frameSize fn))::code

def Linked (enc : Encoding) : Helper → State → State → Prop
  | .crc32cCastagnoli, s, t =>
    ∃ code, Crc32c.compileStorageCRC32CHelperUnit enc = .ok code ∧ enc.Halts code s t

open List

structure Stacked (slots : List (ℕ × ℤ)) (offset : ℕ) : Prop where
  above : ∀ e ∈ slots, -(offset:ℤ) ≤ e.2
  descending : slots.Pairwise fun a b => b.2 < a.2

variable {v : Value} {i : ℕ} {f : EventPayloadField}

section
variable {slots : List (ℕ × ℤ)} {offset : ℕ} {vs : List Value}

theorem representationSize_pos (t : Ty) : 0 < t.representationSize := by
  rw [Ty.representationSize]
  split_ifs
  · decide
  · exact size_pos t

theorem Stacked.snoc (h : Stacked slots offset) (id : ℕ) {size : ℕ} (hs : 0 < size) :
    Stacked (slots++[(id, -((offset+size : ℕ):ℤ))]) (offset+size) where
  above := by
    simp only [mem_append, mem_singleton]
    rintro e (he | rfl)
    · have := h.above e he
      omega
    · exact le_refl _
  descending := by
    rw [pairwise_append]
    refine ⟨h.descending,pairwise_singleton _ _,?_⟩
    simp only [mem_singleton]
    rintro a ha b rfl
    have := h.above a ha
    simp only
    omega

theorem Stacked.placeSlots (h : Stacked slots offset) (vs : List Value) :
    Stacked (placeSlots slots offset vs).1 (placeSlots slots offset vs).2 := by
  induction vs generalizing slots offset with
  | nil => exact h
  | cons v vs ih =>
    rw [Codegen.placeSlots]
    split_ifs
    · exact ih h
    · exact ih (h.snoc v.id (representationSize_pos v.type))

theorem placeSlots_extends (slots : List (ℕ × ℤ)) (offset : ℕ) (vs : List Value) :
    slots <+: (placeSlots slots offset vs).1 := by
  induction vs generalizing slots offset with
  | nil => exact prefix_rfl
  | cons v vs ih =>
    rw [placeSlots]
    split_ifs
    · exact ih _ _
    · exact (prefix_append _ _).trans (ih _ _)

theorem placeSlots_le (slots : List (ℕ × ℤ)) (offset : ℕ) (vs : List Value) :
    offset ≤ (placeSlots slots offset vs).2 := by
  induction vs generalizing slots offset with
  | nil => exact le_refl _
  | cons v vs ih =>
    rw [placeSlots]
    split_ifs
    · exact ih _ _
    · exact le_trans (Nat.le_add_right _ _) (ih _ _)

theorem placeSlots_mem (slots : List (ℕ × ℤ)) (offset : ℕ)
    (hv : v ∈ vs) : v.id ∈ (placeSlots slots offset vs).1.map (·.1) := by
  induction vs generalizing slots offset with
  | nil => cases hv
  | cons w vs ih =>
    rw [placeSlots]
    rcases mem_cons.mp hv with rfl | hv
    · split_ifs with h
      · exact List.Sublist.subset ((placeSlots_extends _ _ _).sublist.map _) h
      · refine List.Sublist.subset ((placeSlots_extends _ _ _).sublist.map _) ?_
        simp
    · split_ifs
      · exact ih _ _ hv
      · exact ih _ _ hv

theorem placeSlots_new {e : ℕ × ℤ} (he : e ∈ (placeSlots slots offset vs).1) :
    e ∈ slots ∨ ∃ v ∈ vs, v.id = e.1 ∧ e.2+v.type.representationSize ≤ -(offset:ℤ) := by
  induction vs generalizing slots offset with
  | nil => exact .inl he
  | cons w vs ih =>
    rw [placeSlots] at he
    split_ifs at he
    · rcases ih he with h | ⟨v,hv,h⟩
      · exact .inl h
      · exact .inr ⟨v,mem_cons_of_mem _ hv,h⟩
    · rcases ih he with h | ⟨v,hv,hid,h⟩
      · rcases mem_append.mp h with h | h
        · exact .inl h
        · rw [mem_singleton] at h
          subst h
          exact .inr ⟨w,mem_cons_self,rfl,by simp only; omega⟩
      · exact .inr ⟨v,mem_cons_of_mem _ hv,hid,by omega⟩

theorem placeSlots_append (slots : List (ℕ × ℤ)) (offset : ℕ) (vs ws : List Value) :
    placeSlots slots offset (vs++ws) =
      placeSlots (placeSlots slots offset vs).1 (placeSlots slots offset vs).2 ws := by
  induction vs generalizing slots offset with
  | nil => rfl
  | cons v vs ih =>
    rw [cons_append, placeSlots, placeSlots]
    split_ifs
    · exact ih _ _
    · exact ih _ _

end

section
open Encoder
variable {fields : List EventPayloadField} {k : ℕ} {name : String}

theorem mem_payloadParamsFrom :
    v ∈ payloadParamsFrom k fields ↔ ∃ i f, fields[i]? = some f ∧ v = param (k+i) f.type := by
  induction fields generalizing k with
  | nil => simp [payloadParamsFrom]
  | cons f fields ih =>
    rw [payloadParamsFrom, mem_cons, ih]
    constructor
    · rintro (rfl | ⟨i,g,hg,rfl⟩)
      · exact ⟨0,f,rfl,rfl⟩
      · exact ⟨i+1,g,hg,by rw [add_right_comm, add_assoc]⟩
    · rintro ⟨i,g,hg,rfl⟩
      cases i with
      | zero =>
        cases hg
        exact .inl rfl
      | succ i => exact .inr ⟨i,g,hg,by rw [add_right_comm, add_assoc]⟩

theorem foldl_byName (fields : List EventPayloadField) (k : ℕ) (params : String → Value)
    (name : String) :
    let found := (fields.zip (payloadParamsFrom k fields)).foldl (fun params (field, p) =>
      Function.update params field.name p) params name
    ((∀ f ∈ fields, f.name ≠ name) ∧ found = params name) ∨
      ∃ p g, fields[p]? = some g ∧ g.name = name ∧ found = param (k+p) g.type ∧
        ∀ j h, fields[j]? = some h → h.name = name → j ≤ p := by
  induction fields generalizing k params with
  | nil => exact .inl ⟨nofun,rfl⟩
  | cons f fields ih =>
    rw [payloadParamsFrom, zip_cons_cons, foldl_cons]
    rcases ih (k+1) (Function.update params f.name (param k f.type)) with
      ⟨hnone,hfound⟩ | ⟨p,g,hg,hname,hfound,hlast⟩
    · by_cases hf : f.name = name
      · refine .inr ⟨0,f,rfl,hf,?_,?_⟩
        · refine hfound.trans ?_
          rw [← hf, Function.update_self, add_zero]
        · intro j h hj hn
          cases j with
          | zero => exact le_refl 0
          | succ j => exact absurd hn (hnone h (mem_of_getElem? hj))
      · refine .inl ⟨?_,?_⟩
        · rw [forall_mem_cons]
          exact ⟨hf,hnone⟩
        · exact hfound.trans (Function.update_of_ne (Ne.symm hf) _ _)
    · refine .inr ⟨p+1,g,hg,hname,?_,?_⟩
      · rw [show k+(p+1) = k+1+p by omega]
        exact hfound
      · intro j h hj hn
        cases j with
        | zero => exact Nat.zero_le _
        | succ j => exact Nat.succ_le_succ (hlast j h hj hn)

theorem payloadParamByName_eq (hf : fields[i]? = some f) :
    ∃ p g, fields[p]? = some g ∧ g.name = f.name ∧
      payloadParamByName fields f.name = param (15+p) g.type ∧
      ∀ j h, fields[j]? = some h → h.name = f.name → j ≤ p := by
  rcases foldl_byName fields 15 (fun _ => slot) f.name with ⟨hnone,-⟩ | h
  · exact absurd rfl (hnone f (mem_of_getElem? hf))
  · exact h

theorem payloadParamByName_of_nodup (hn : (fields.map (·.name)).Nodup) (hf : fields[i]? = some f) :
    payloadParamByName fields f.name = param (15+i) f.type := by
  obtain ⟨p,g,hg,hname,heq,-⟩ := payloadParamByName_eq hf
  have hi : (fields.map (·.name))[i]? = some f.name := by rw [getElem?_map, hf]; rfl
  have hp : (fields.map (·.name))[p]? = some f.name := by rw [getElem?_map, hg, ← hname]; rfl
  have : i = p := by
    obtain ⟨hi1,hi2⟩ := List.getElem?_eq_some_iff.mp hi
    obtain ⟨hp1,hp2⟩ := List.getElem?_eq_some_iff.mp hp
    exact (List.Nodup.getElem_inj_iff hn).mp (hi2.trans hp2.symm)
  subst this
  rw [hf] at hg
  cases hg
  exact heq

end

section
open Encoder
variable (layout : EventLayout) {id : ℕ}

def encoderFrame : Frame := buildFrame (lowerEventEncoder layout)

def encoderFrameSize : ℕ := frameSize (lowerEventEncoder layout)

def headerSlots : List (ℕ × ℤ) :=
  [(0,-8),(1,-16),(2,-24),(3,-32),(4,-36),(5,-40),(6,-44),(7,-48)]

def laterValues : List Value :=
  payloadParams layout.payloadFields++(lowerEventEncoder layout).ops.flatMap valuesDefinedBy

theorem functionSlots_eq :
    functionSlots (lowerEventEncoder layout) = placeSlots headerSlots 48 (laterValues layout) := by
  rw [functionSlots, lowerEventEncoder, append_assoc, placeSlots_append]
  rfl

theorem headerSlots_stacked : Stacked headerSlots 48 := ⟨by decide,by decide⟩

variable {v : Value} {d : ℤ}

theorem mem_slots_of_eq (h : (encoderFrame layout).slots id = some d) :
    (id, d) ∈ (functionSlots (lowerEventEncoder layout)).1 := by
  obtain ⟨e,he,rfl⟩ := Option.map_eq_some_iff.mp h
  have hid := find?_some he
  simp only [decide_eq_true_eq] at hid
  subst hid
  exact mem_of_find?_eq_some he

theorem exists_slot_of_mem (h : id ∈ (functionSlots (lowerEventEncoder layout)).1.map (·.1)) :
    ∃ d, (encoderFrame layout).slots id = some d := by
  obtain ⟨e,he,rfl⟩ := mem_map.mp h
  have : ((functionSlots (lowerEventEncoder layout)).1.find? (·.1 = e.1)).isSome := by
    rw [find?_isSome]
    exact ⟨e,he,by simp⟩
  obtain ⟨d,hd⟩ := Option.isSome_iff_exists.mp this
  exact ⟨d.2,by simp [encoderFrame, buildFrame, hd]⟩

theorem slots_header (h : (id, d) ∈ headerSlots) : (encoderFrame layout).slots id = some d := by
  obtain ⟨rest,hrest⟩ := placeSlots_extends headerSlots 48 (laterValues layout)
  rw [encoderFrame, buildFrame, functionSlots_eq, ← hrest]
  simp only [find?_append]
  simp only [headerSlots, mem_cons, not_mem_nil, or_false, Prod.mk.injEq] at h
  rcases h with ⟨rfl,rfl⟩ | ⟨rfl,rfl⟩ | ⟨rfl,rfl⟩ | ⟨rfl,rfl⟩ | ⟨rfl,rfl⟩ | ⟨rfl,rfl⟩ | ⟨rfl,rfl⟩ |
    ⟨rfl,rfl⟩ <;> rfl

theorem slots_stacked :
    Stacked (functionSlots (lowerEventEncoder layout)).1
      (functionSlots (lowerEventEncoder layout)).2 := by
  rw [functionSlots_eq]
  exact headerSlots_stacked.placeSlots _

theorem slots_inj {j : ℕ} (hi : (encoderFrame layout).slots i = some d)
    (hj : (encoderFrame layout).slots j = some d) : i = j := by
  have hd := (slots_stacked layout).descending
  have hi := mem_slots_of_eq layout hi
  have hj := mem_slots_of_eq layout hj
  obtain ⟨a,ha,hia⟩ := getElem_of_mem hi
  obtain ⟨b,hb,hjb⟩ := getElem_of_mem hj
  rw [pairwise_iff_getElem] at hd
  rcases Nat.lt_trichotomy a b with hlt | rfl | hlt
  · have := hd a b ha hb hlt
    rw [hia, hjb] at this
    exact absurd this (lt_irrefl d)
  · rw [hia] at hjb
    exact congrArg Prod.fst hjb
  · have := hd b a hb ha hlt
    rw [hia, hjb] at this
    exact absurd this (lt_irrefl d)

def valueOf (id : ℕ) : Value :=
  match id with
  | 0 => slot
  | 1 => eventID
  | 2 => streamID
  | 3 => streamSequence
  | 4 => atomicGroupLen
  | 5 => atomicGroupIndex
  | 6 => payloadLength
  | 7 => flags
  | 8 => checksum
  | 9 => storageConst 9 layout.eventTypeID u32
  | 10 => storageConst 10 layout.layoutID u32
  | 11 => storageConst 11 1 u16
  | 12 => storageConst 12 0 u16
  | 13 => storageConst 13 0 u64
  | 14 => storageConst 14 0 u32
  | i+15 => param (15+i) ((layout.payloadFields.map (·.type))[i]?.getD u64)

theorem valueOf_payload (hv : v ∈ payloadParams layout.payloadFields) :
    v = valueOf layout v.id := by
  obtain ⟨i,f,hf,rfl⟩ := mem_payloadParamsFrom.mp hv
  rw [show (param (15+i) f.type).id = i+15 from add_comm _ _, valueOf, getElem?_map, hf]
  rfl

theorem byName_mem (hf : layout.payloadFields[i]? = some f) :
    payloadParamByName layout.payloadFields f.name ∈ payloadParams layout.payloadFields := by
  obtain ⟨p,g,hg,-,heq,-⟩ := payloadParamByName_eq hf
  rw [heq]
  exact mem_payloadParamsFrom.mpr ⟨p,g,hg,rfl⟩

theorem mem_payloadOps {byName : String → Value} {cursor : ℕ} {fields : List EventPayloadField}
    (hv : v ∈ (payloadOps byName cursor fields).1.flatMap valuesDefinedBy) :
    v = slot ∨ ∃ f ∈ fields, v = byName f.name := by
  induction fields generalizing cursor with
  | nil => simp [payloadOps] at hv
  | cons f fields ih =>
    simp only [payloadOps, flatMap_append, flatMap_cons, mem_append, valuesDefinedBy,
      mem_cons, not_mem_nil, or_false] at hv
    rcases hv with hv | (hv | hv) | hv
    · left
      split_ifs at hv
      · simpa [valuesDefinedBy] using hv
      · simp at hv
    · exact .inl hv
    · exact .inr ⟨f,mem_cons_self,hv⟩
    · rcases ih hv with h | ⟨g,hg,h⟩
      · exact .inl h
      · exact .inr ⟨g,mem_cons_of_mem _ hg,h⟩

theorem valueOf_header (hv : v ∈ (headerOps layout).flatMap valuesDefinedBy) :
    v = valueOf layout v.id := by
  simp only [headerOps, flatMap_cons, flatMap_nil, valuesDefinedBy, cons_append,
    nil_append, mem_cons, not_mem_nil, or_false] at hv
  rcases hv with h | h | h | h | h | h | h | h | h | h | h | h | h | h | h | h | h | h | h | h | h |
    h | h | h <;> rw [h] <;> rfl

theorem valueOf_later (hv : v ∈ laterValues layout) : v = valueOf layout v.id := by
  simp only [laterValues, lowerEventEncoder, bodyOps, flatMap_append, mem_append] at hv
  rcases hv with hv | (hv | (hv | hv) | hv) | hv
  · exact valueOf_payload layout hv
  · exact valueOf_header layout hv
  · rcases mem_payloadOps hv with rfl | ⟨f,hf,rfl⟩
    · rfl
    · obtain ⟨i,hi⟩ := getElem?_of_mem hf
      exact valueOf_payload layout (byName_mem layout hi)
  · have hs : v = slot := by
      split_ifs at hv
      · simpa [valuesDefinedBy] using hv
      · simp at hv
    rw [hs]
    rfl
  · simp only [flatMap_cons, flatMap_nil, valuesDefinedBy, append_nil, mem_cons,
      not_mem_nil, or_false] at hv
    rcases hv with rfl | rfl <;> rfl
  · simp only [flatMap_cons, flatMap_nil, valuesDefinedBy, append_nil,
      cons_append, nil_append, mem_cons, not_mem_nil, or_false] at hv
    rcases hv with rfl | rfl | rfl <;> rfl

theorem slot_bounds (hv : v = valueOf layout v.id)
    (hd : (encoderFrame layout).slots v.id = some d) :
    -(encoderFrameSize layout:ℤ) ≤ d ∧ d+v.type.representationSize ≤ 0 ∧
      (8 ≤ v.id → d+v.type.representationSize ≤ -48) := by
  have hmem := mem_slots_of_eq layout hd
  have habove := (slots_stacked layout).above _ hmem
  have hle := le_alignUp (functionSlots (lowerEventEncoder layout)).2 16
  have hframe : -(encoderFrameSize layout:ℤ) ≤ d := by
    simp only [encoderFrameSize, frameSize]
    simp only at habove
    omega
  rw [functionSlots_eq] at hmem
  rcases placeSlots_new hmem with h | ⟨w,hw,hid,h⟩
  · -- a header parameter
    have hlow : v.id < 8 ∧ d+v.type.representationSize ≤ 0 := by
      simp only [headerSlots, mem_cons, not_mem_nil, or_false, Prod.mk.injEq] at h
      rcases h with ⟨hi,rfl⟩ | ⟨hi,rfl⟩ | ⟨hi,rfl⟩ | ⟨hi,rfl⟩ | ⟨hi,rfl⟩ | ⟨hi,rfl⟩ | ⟨hi,rfl⟩ |
        ⟨hi,rfl⟩ <;> rw [hi] at hv <;> rw [hv] <;> simp only [valueOf] <;> decide
    exact ⟨hframe,hlow.2,fun h8 => by omega⟩
  · have hwv : w = v := by
      rw [valueOf_later layout hw, hid]
      exact hv.symm
    rw [hwv] at h
    simp only at h
    exact ⟨hframe,by omega,fun _ => h⟩

theorem exists_slot_later (hv : v ∈ laterValues layout) :
    ∃ d, (encoderFrame layout).slots v.id = some d := by
  apply exists_slot_of_mem
  rw [functionSlots_eq]
  exact placeSlots_mem headerSlots 48 hv

theorem representationSize_le (t : Ty) : t.representationSize ≤ 8 := by
  cases t with
  | prim p => cases p <;> decide
  | data fields | cls fields | enum variants => exact le_refl 8

theorem valueWidthBits_div (t : Ty) : t.valueWidthBits/8 = t.representationSize := by
  cases t with
  | prim p => cases p <;> rfl
  | data fields | cls fields | enum variants =>
    simp [Ty.valueWidthBits, Ty.representationSize, Ty.isHandleType]

theorem placeSlots_offset_le (slots : List (ℕ × ℤ)) (offset : ℕ) (vs : List Value) :
    (placeSlots slots offset vs).2 ≤ offset+8*vs.length := by
  induction vs generalizing slots offset with
  | nil => exact le_refl _
  | cons v vs ih =>
    have hv := representationSize_le v.type
    rw [placeSlots, length_cons]
    split_ifs
    · exact le_trans (ih _ _) (by omega)
    · exact le_trans (ih _ _) (by omega)

theorem payloadParamsFrom_length (k : ℕ) (fields : List EventPayloadField) :
    (payloadParamsFrom k fields).length = fields.length := by
  induction fields generalizing k with
  | nil => rfl
  | cons f fields ih => rw [payloadParamsFrom, length_cons, length_cons, ih]

theorem payloadOps_values_le (byName : String → Value) (cursor : ℕ)
    (fields : List EventPayloadField) :
    ((payloadOps byName cursor fields).1.flatMap valuesDefinedBy).length ≤ 3*fields.length := by
  induction fields generalizing cursor with
  | nil => exact le_refl _
  | cons f fields ih =>
    have := ih (f.offset+f.storageSize)
    simp only [payloadOps, flatMap_append, flatMap_cons, length_append,
      length_cons, valuesDefinedBy, length_nil]
    split_ifs
    · simp only [flatMap_cons, flatMap_nil, valuesDefinedBy, length_append,
        length_cons, length_nil]
      omega
    · simp only [flatMap_nil, length_nil]
      omega

theorem encoderFrameSize_le : encoderFrameSize layout ≤ 32*layout.payloadFields.length+320 := by
  have hvalues := payloadOps_values_le (payloadParamByName layout.payloadFields) 0
    layout.payloadFields
  have hparams := payloadParamsFrom_length 15 layout.payloadFields
  have hheader : ((headerOps layout).flatMap valuesDefinedBy).length = 24 := rfl
  have hlast : ([StorageOp.crc32c checksum slot 512,.slotStore slot 48 checksum u32,.ret].flatMap
    valuesDefinedBy).length = 3 := rfl
  have hzero : ([StorageOp.slotStore slot 48 (storageConst 14 0 u32) u32].flatMap
    valuesDefinedBy).length = 2 := rfl
  have hlen : (laterValues layout).length ≤ 4*layout.payloadFields.length+31 := by
    simp only [laterValues, lowerEventEncoder, bodyOps, payloadParams, flatMap_append,
      length_append, hparams, hheader, hlast, hzero]
    split_ifs
    · have : ∀ a b, ([StorageOp.payloadZero slot a b].flatMap valuesDefinedBy).length = 1 :=
        fun _ _ => rfl
      rw [this]
      omega
    · rw [flatMap_nil, length_nil]
      omega
  have hoff := placeSlots_offset_le headerSlots 48 (laterValues layout)
  rw [← functionSlots_eq] at hoff
  have hup : alignUp (functionSlots (lowerEventEncoder layout)).2 16 ≤
      (functionSlots (lowerEventEncoder layout)).2+15 := by
    rw [alignUp]
    split_ifs <;> omega
  rw [encoderFrameSize, frameSize]
  omega

theorem frame_room : 48 ≤ encoderFrameSize layout := by
  have h := placeSlots_le headerSlots 48 (laterValues layout)
  rw [← functionSlots_eq] at h
  exact le_trans h (le_alignUp _ 16)

end

end Wrela.Codegen

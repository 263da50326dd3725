import Wrela.Diag
import Wrela.Sem.Layout

/-!
# Durable events

The checker collects the event declarations of a program under their event type
ids and under their names, and lays out the payload of every event layout.
Lowering lists the layouts in the order of their names and ids; every current
one gets an encoder. Ids are 64-bit words.
-/

set_option autoImplicit false

namespace Wrela.Sem
open Ir

/-- A field of an event layout, with what the rest of the checker says about it:
its type, if there is one, the errors of its encode expression, and whether it
refers to an unpublished blob. -/
structure EventLayoutField where
  name : String
  type : Option Ty
  encodeErrors : List Diagnostic
  unpublishedBlob : Bool

structure EventLayoutDecl where
  id : String
  current : Bool
  fields : List EventLayoutField

structure EventDecl where
  name : String
  id : String
  layouts : List EventLayoutDecl

structure EventPayloadFieldInfo where
  name : String
  type : Ty
  payloadOffset : ℕ
  storageSize : ℕ
  align : ℕ

structure EventLayoutInfo where
  id : UInt64
  current : Bool
  payloadSize : ℕ
  payloadAlign : ℕ
  fields : List EventPayloadFieldInfo

structure EventInfo where
  moduleName : String
  name : String
  eventTypeID : UInt64
  layouts : List EventLayoutInfo
  currentLayoutID : UInt64

structure StorageIndex where
  eventsByTypeID : List (UInt64 × EventInfo)
  eventsByKey : List (String × EventInfo)

def parseUint (text : String) : Option UInt64 :=
  let digits := text.toList
  let value := digits.foldl (fun n c => 10*n+(c.toNat-Char.toNat '0')) 0
  if digits ≠ [] ∧ digits.all Char.isDigit ∧ value < 2^64 then some (UInt64.ofNat value) else none

def checkLayoutField (field : EventLayoutField) :
    List Diagnostic × Option (String × Ty × SemanticFieldLayout) :=
  match field.type with
  | none => ([⟨.SEM0103,"invalid event layout field "++field.name⟩], none)
  | some type =>
    if field.unpublishedBlob then
      (field.encodeErrors++[⟨.SEM0117,"event payload cannot reference unpublished blob bytes"⟩],
        none)
    else
      match semanticSizeAlignAndStorage type with
      | none =>
        (field.encodeErrors++[⟨.SEM0103,"invalid event layout field "++field.name⟩], none)
      | some layout =>
        (field.encodeErrors, some (field.name, type, semanticFieldSizeAndStorage type layout))

def placePayload (payloadSize payloadAlign : ℕ) :
    List (String × Ty × SemanticFieldLayout) → List EventPayloadFieldInfo × ℕ × ℕ
  | [] => ([], payloadSize, payloadAlign)
  | (name, type, layout)::fields =>
    let offset := alignPayloadOffset payloadSize layout.valueAlign
    let rest := placePayload (offset+layout.storageSize)
      (if layout.valueAlign > payloadAlign then layout.valueAlign else payloadAlign) fields
    (⟨name,type,offset,layout.storageSize,layout.valueAlign⟩::rest.1, rest.2)

def eventLayoutPayload (layout : EventLayoutDecl) :
    (List EventPayloadFieldInfo × ℕ × ℕ) × List Diagnostic :=
  let checked := layout.fields.map checkLayoutField
  let (fields, payloadEnd, payloadAlign) := placePayload 0 1 (checked.filterMap (·.2))
  let payloadSize := alignPayloadOffset payloadEnd payloadAlign
  ((fields, payloadSize, payloadAlign), (checked.map (·.1)).flatten++
    if payloadSize > 448 then [⟨.SEM0121,"event payload exceeds inline slot budget"⟩] else [])

def checkLayouts (seen : List UInt64) :
    List EventLayoutDecl → List EventLayoutInfo × List Diagnostic
  | [] => ([], [])
  | layout::layouts =>
    let id := (parseUint layout.id).getD 0
    if id = 0 then
      let rest := checkLayouts seen layouts
      (rest.1, ⟨.SEM0102,"layout id 0 is reserved"⟩::rest.2)
    else if id ∈ seen then
      let rest := checkLayouts seen layouts
      (rest.1, ⟨.SEM0102,"duplicate event layout id"⟩::rest.2)
    else
      let payload := eventLayoutPayload layout
      let rest := checkLayouts (id::seen) layouts
      (⟨id,layout.current,payload.1.2.1,payload.1.2.2,payload.1.1⟩::rest.1, payload.2++rest.2)

def markCurrent (layouts : List EventLayoutInfo) : List EventLayoutInfo :=
  match layouts with
  | [layout] => [{layout with current := true}]
  | _ => layouts

def checkEventLayouts (decl : EventDecl) : (List EventLayoutInfo × UInt64) × List Diagnostic :=
  let checked := checkLayouts [] decl.layouts
  let layouts := markCurrent checked.1
  let marked := layouts.filter (·.current)
  ((layouts, (marked.map (·.id)).getLast?.getD 0), checked.2++
    if layouts.length > 1 ∧ marked.length ≠ 1 then
      [⟨.SEM0101,"event with multiple layouts must mark exactly one current layout"⟩] else [])

def recordStorageEvent (storage : StorageIndex) (moduleName : String) (decl : EventDecl) :
    StorageIndex × List Diagnostic :=
  let id := (parseUint decl.id).getD 0
  if id = 0 then (storage, [⟨.SEM0100,"invalid durable event type id "++decl.id⟩])
  else
    let ((layouts, currentLayoutID), errors) := checkEventLayouts decl
    let info : EventInfo := ⟨moduleName,decl.name,id,layouts,currentLayoutID⟩
    if id ∈ storage.eventsByTypeID.map (·.1) then
      (storage, errors++[⟨.SEM0099,"duplicate durable event type id"⟩])
    else
      let key := moduleName++"."++decl.name
      (⟨(id, info)::storage.eventsByTypeID,
        (key, info)::storage.eventsByKey.filter (·.1 ≠ key)⟩, errors)

def checkStorageDecls (decls : List (String × EventDecl)) : StorageIndex × List Diagnostic :=
  decls.foldl (fun (storage, errors) (moduleName, decl) =>
    let (storage, new) := recordStorageEvent storage moduleName decl
    (storage, errors++new)) (⟨[],[]⟩, [])

end Wrela.Sem

namespace Wrela.Ir
open Sem

structure EventPayloadField where
  name : String
  type : Ty
  offset : ℕ
  storageSize : ℕ
  align : ℕ

structure EventLayout where
  moduleName : String
  name : String
  eventTypeID : UInt64
  layoutID : UInt64
  current : Bool
  payloadSize : ℕ
  payloadAlign : ℕ
  payloadFields : List EventPayloadField

def sortedStorageEvents (storage : StorageIndex) : List EventInfo :=
  (storage.eventsByKey.mergeSort fun a b => a.1 ≤ b.1).map (·.2)

def lowerField (field : EventPayloadFieldInfo) : EventPayloadField :=
  ⟨field.name,field.type,field.payloadOffset,field.storageSize,field.align⟩

def lowerLayout (event : EventInfo) (layout : EventLayoutInfo) : EventLayout :=
  ⟨event.moduleName,event.name,event.eventTypeID,layout.id,layout.current,layout.payloadSize,
    layout.payloadAlign,layout.fields.map lowerField⟩

def lowerStorageMetadata (storage : StorageIndex) : List EventLayout :=
  (sortedStorageEvents storage).flatMap fun event =>
    (event.layouts.mergeSort fun a b => a.id ≤ b.id).map (lowerLayout event)

def currentLayouts (storage : StorageIndex) : List EventLayout :=
  (lowerStorageMetadata storage).filter (·.current)

end Wrela.Ir

/-! ### Events of an accepted program -/

namespace Wrela.Sem
open Ir List

structure FieldFits (field : EventPayloadField) : Prop where
  storage : field.type.storageSize ≤ field.storageSize
  prim : ∀ p, field.type = .prim p → field.storageSize = p.size

def PayloadPlaced : ℕ → List EventPayloadField → Prop
  | cursor, [] => cursor ≤ 448
  | cursor, field::fields =>
    cursor ≤ field.offset ∧ FieldFits field ∧ PayloadPlaced (field.offset+field.storageSize) fields

theorem le_alignPayloadOffset (offset align : ℕ) : offset ≤ alignPayloadOffset offset align := by
  rw [alignPayloadOffset]
  split_ifs with h
  · exact le_refl _
  · have := Nat.mod_lt offset (show 0 < align by omega)
    omega

theorem checkLayoutField_fits {field : EventLayoutField} {name : String} {type : Ty}
    {layout : SemanticFieldLayout} (h : (checkLayoutField field).2 = some (name, type, layout)) :
    type.storageSize ≤ layout.storageSize ∧ ∀ p, type = .prim p → layout.storageSize = p.size := by
  rw [checkLayoutField] at h
  cases hf : field.type with
  | none => simp [hf] at h
  | some t =>
    simp only [hf] at h
    split_ifs at h
    cases hl : semanticSizeAlignAndStorage t with
    | none => simp [hl] at h
    | some l =>
      simp only [hl, Option.some.injEq, Prod.mk.injEq] at h
      obtain ⟨-,rfl,rfl⟩ := h
      refine ⟨(semanticLayout_covers t l hl).field.storageSize,?_⟩
      rintro p rfl
      have ha := agrees_prim (p := p) (by rw [hl]; rfl)
      rw [Agrees, hl] at ha
      cases ha
      cases p <;> rfl

theorem placePayload_placed {fields : List (String × Ty × SemanticFieldLayout)}
    (hf : ∀ f ∈ fields, f.2.1.storageSize ≤ f.2.2.storageSize ∧
      ∀ p, f.2.1 = .prim p → f.2.2.storageSize = p.size) (size align : ℕ)
    (hend : (placePayload size align fields).2.1 ≤ 448) :
    PayloadPlaced size ((placePayload size align fields).1.map lowerField) := by
  induction fields generalizing size align with
  | nil => exact hend
  | cons f fields ih =>
    obtain ⟨name,type,layout⟩ := f
    rw [forall_mem_cons] at hf
    exact ⟨le_alignPayloadOffset _ _,⟨hf.1.1,hf.1.2⟩,ih hf.2 _ _ hend⟩

theorem eventLayoutPayload_placed {layout : EventLayoutDecl}
    (h : (eventLayoutPayload layout).2 = []) :
    PayloadPlaced 0 ((eventLayoutPayload layout).1.1.map lowerField) := by
  simp only [eventLayoutPayload, append_eq_nil_iff] at h ⊢
  have hsize := h.2
  split_ifs at hsize with hle
  refine placePayload_placed ?_ 0 1 (le_trans (le_alignPayloadOffset _ _) (Nat.le_of_not_lt hle))
  intro f hf
  obtain ⟨x,hx,hsome⟩ := mem_filterMap.mp hf
  obtain ⟨field,-,rfl⟩ := mem_map.mp hx
  exact checkLayoutField_fits hsome

theorem checkLayouts_placed {layouts : List EventLayoutDecl} {seen : List UInt64}
    (h : (checkLayouts seen layouts).2 = []) :
    ∀ layout ∈ (checkLayouts seen layouts).1, PayloadPlaced 0 (layout.fields.map lowerField) := by
  induction layouts generalizing seen with
  | nil =>
    intro layout hl
    cases hl
  | cons decl layouts ih =>
    rw [checkLayouts] at h ⊢
    simp only at h ⊢
    split_ifs at h ⊢ with hzero hseen
    obtain ⟨hpayload,hrest⟩ := append_eq_nil_iff.mp h
    intro layout hl
    rcases mem_cons.mp hl with rfl | hl
    · exact eventLayoutPayload_placed hpayload
    · exact ih hrest layout hl

theorem mem_markCurrent {layouts : List EventLayoutInfo} {layout : EventLayoutInfo}
    (h : layout ∈ markCurrent layouts) : ∃ l ∈ layouts, l.fields = layout.fields := by
  rw [markCurrent.eq_def] at h
  split at h
  · rw [mem_singleton] at h
    exact ⟨_,mem_singleton_self _,by rw [h]⟩
  · exact ⟨layout,h,rfl⟩

structure EventFits (event : EventInfo) : Prop where
  placed : ∀ layout ∈ event.layouts, PayloadPlaced 0 (layout.fields.map lowerField)
  current : (event.layouts.filter (·.current)).length ≤ 1

variable {decl : EventDecl} {decls : List (String × EventDecl)}

theorem checkEventLayouts_fits (h : (checkEventLayouts decl).2 = [])
    (moduleName name : String) (id : UInt64) :
    EventFits ⟨moduleName,name,id,(checkEventLayouts decl).1.1,(checkEventLayouts decl).1.2⟩ := by
  simp only [checkEventLayouts, append_eq_nil_iff] at h ⊢
  obtain ⟨hlayouts,hcurrent⟩ := h
  refine ⟨fun layout hl => ?_,?_⟩
  · obtain ⟨l,hl,heq⟩ := mem_markCurrent hl
    rw [← heq]
    exact checkLayouts_placed hlayouts l hl
  · split_ifs at hcurrent with hone
    by_cases hle : (markCurrent (checkLayouts [] decl.layouts).1).length ≤ 1
    · exact le_trans (length_filter_le _ _) hle
    · exact le_of_eq (by_contra fun hne => hone ⟨by omega,hne⟩)

structure IndexSound (storage : StorageIndex) : Prop where
  nonzero : ∀ entry ∈ storage.eventsByKey, entry.2.eventTypeID ≠ 0
  known : ∀ entry ∈ storage.eventsByKey, entry.2.eventTypeID ∈ storage.eventsByTypeID.map (·.1)
  distinct : (storage.eventsByKey.map (·.2.eventTypeID)).Nodup
  fits : ∀ entry ∈ storage.eventsByKey, EventFits entry.2

theorem recordStorageEvent_sound {storage : StorageIndex} (hs : IndexSound storage)
    {moduleName : String} (h : (recordStorageEvent storage moduleName decl).2 = []) :
    IndexSound (recordStorageEvent storage moduleName decl).1 := by
  rw [recordStorageEvent] at h ⊢
  simp only at h ⊢
  split_ifs at h ⊢ with hzero hknown
  · simp at h
  · have hfilter : ∀ entry ∈ storage.eventsByKey.filter (·.1 ≠ moduleName++"."++decl.name),
        entry ∈ storage.eventsByKey := fun entry he => (mem_filter.mp he).1
    refine ⟨?_,?_,?_,?_⟩
    · rw [forall_mem_cons]
      exact ⟨hzero,fun entry he => hs.nonzero entry (hfilter entry he)⟩
    · rw [forall_mem_cons]
      exact ⟨mem_cons_self ..,fun entry he =>
        mem_cons_of_mem _ (hs.known entry (hfilter entry he))⟩
    · rw [map_cons, nodup_cons]
      refine ⟨?_,hs.distinct.sublist ((filter_sublist ..).map _)⟩
      intro hmem
      obtain ⟨entry,he,heq⟩ := mem_map.mp hmem
      have hin := hs.known entry (hfilter entry he)
      rw [heq] at hin
      exact hknown hin
    · rw [forall_mem_cons]
      exact ⟨checkEventLayouts_fits h _ _ _,fun entry he => hs.fits entry (hfilter entry he)⟩

/-- The loop over the declarations: errors stay, and without them the index is
sound. -/
theorem foldl_sound {acc : StorageIndex × List Diagnostic} (hacc : acc.2 = [] → IndexSound acc.1)
    (h : (decls.foldl (fun (storage, errors) (moduleName, decl) =>
      let (storage, new) := recordStorageEvent storage moduleName decl
      (storage, errors++new)) acc).2 = []) :
    IndexSound (decls.foldl (fun (storage, errors) (moduleName, decl) =>
      let (storage, new) := recordStorageEvent storage moduleName decl
      (storage, errors++new)) acc).1 := by
  induction decls generalizing acc with
  | nil => exact hacc h
  | cons decl decls ih =>
    refine ih (fun hnew => ?_) h
    obtain ⟨herrors,hnew⟩ := append_eq_nil_iff.mp hnew
    exact recordStorageEvent_sound (hacc herrors) hnew

theorem checkStorageDecls_sound
    (h : (checkStorageDecls decls).2 = []) : IndexSound (checkStorageDecls decls).1 :=
  foldl_sound (fun _ => ⟨by simp,by simp,by simp,by simp⟩) h

section
variable {storage : StorageIndex} {layout layout' : EventLayout}

theorem mem_currentLayouts : layout ∈ currentLayouts storage ↔
    ∃ entry ∈ storage.eventsByKey, ∃ info ∈ entry.2.layouts.filter (·.current),
      lowerLayout entry.2 info = layout := by
  constructor
  · intro h
    obtain ⟨hl,hcurrent⟩ := mem_filter.mp h
    obtain ⟨event,he,hl⟩ := mem_flatMap.mp hl
    obtain ⟨info,hi,rfl⟩ := mem_map.mp hl
    obtain ⟨entry,hentry,rfl⟩ := mem_map.mp he
    exact ⟨entry,mem_mergeSort.mp hentry,info,mem_filter.mpr ⟨mem_mergeSort.mp hi,hcurrent⟩,rfl⟩
  · rintro ⟨entry,he,info,hi,rfl⟩
    obtain ⟨hinfo,hcurrent⟩ := mem_filter.mp hi
    refine mem_filter.mpr ⟨mem_flatMap.mpr ⟨entry.2,?_,?_⟩,hcurrent⟩
    · exact mem_map.mpr ⟨entry,mem_mergeSort.mpr he,rfl⟩
    · exact mem_map.mpr ⟨info,mem_mergeSort.mpr hinfo,rfl⟩

section
variable (hs : IndexSound storage) (h : layout ∈ currentLayouts storage)
include hs h

theorem currentLayouts_placed : PayloadPlaced 0 layout.payloadFields := by
  obtain ⟨entry,he,info,hi,rfl⟩ := mem_currentLayouts.mp h
  exact (hs.fits entry he).placed info (mem_filter.mp hi).1

theorem currentLayouts_distinct (h' : layout' ∈ currentLayouts storage)
    (heq : layout.eventTypeID = layout'.eventTypeID) : layout = layout' := by
  obtain ⟨entry,he,info,hi,rfl⟩ := mem_currentLayouts.mp h
  obtain ⟨entry',he',info',hi',rfl⟩ := mem_currentLayouts.mp h'
  obtain rfl : entry = entry' := inj_on_of_nodup_map hs.distinct he he' heq
  have hone := (hs.fits entry he).current
  obtain rfl : info = info' := by
    rcases hlist : entry.2.layouts.filter (·.current) with _ | ⟨x,_ | ⟨y,rest⟩⟩
    · rw [hlist] at hi
      cases hi
    · rw [hlist, mem_singleton] at hi hi'
      rw [hi, hi']
    · rw [hlist, length_cons, length_cons] at hone
      omega
  rfl

end

end

end Wrela.Sem

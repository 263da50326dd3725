import Wrela.Sem.Delegated
import Wrela.Sem.Impls
import Wrela.Sem.Storage

/-!
# Unpublished blobs in event payloads

The payload of an event must not refer to the bytes of a blob that is not published
yet. The checker refuses a payload field that is an unpublished reference itself, and
an encode expression that reads such a field of the event. Records and enums that
hold an unpublished reference, and expressions that get one in another way, pass.
-/

set_option autoImplicit false

namespace Wrela.Sem.Blobs
open Ir List
open Sem.Delegated (Field EnumVariant SemType TypeGraph partTypes)
open Sem.Impls (TypeRef)
open KeyedSearch

/-! ### Expressions and their types -/

inductive Expr where
  | name (name : String)
  | intLiteral (value : String)
  | stringLiteral (value : String)
  | boolLiteral (value : Bool)
  | sizeOf (type : TypeRef)
  | alignOf (type : TypeRef)
  | typeOperand (type : TypeRef)
  | constructor (type : TypeRef) (args : List (String × Expr))
  | variantConstructor (enum variant : String) (args : List (String × Expr))
  | call (receiver : Expr) (method : String) (args : List (String × Expr))
  | field (base : Expr) (field : String)
  | binary (op : String) (left right : Expr)

inductive Kind where
  | primitive | data | cls | enum | other
  deriving DecidableEq

/-- The types of a program, with what the checker looks up in a module: a type by its
name or reference, and the types of calls and of variants. -/
structure Program (ι : Type) where
  types : TypeGraph ι
  kind : ι → Kind
  key : ι → String
  mustType : String → Option ι
  lookupTypeRef : TypeRef → Option ι
  callType : Option ι → String → List (String × Option ι) → Option ι
  variantType : String → String → List (String × Option ι) → Option ι

variable {ι : Type} {program : Program ι}

section
variable (program : Program ι)

def typeName (t : ι) : String := (program.types t).name

def isAddressType (t : ι) : Bool := ["PhysicalAddress", "VirtualAddress"].contains (typeName program t)

def isIntegerType (t : ι) : Bool := ["U8", "U16", "U32", "U64", "I64"].contains (typeName program t)

def isComparisonOp (op : String) : Bool := ["==", "!=", "<", ">", "<=", ">=", "&&", "||"].contains op

def lookupField (t : ι) (field : String) : Option ι :=
  ((program.types t).fields.find? (·.name = field)).bind (·.type)

def binaryType (op : String) (left right : ι) : Option ι :=
  if isComparisonOp op then program.mustType "Bool"
  else if (op = "+" ∨ op = "-") ∧ isAddressType program left ∧ isIntegerType program right then
    some left
  else if op = "-" ∧ isAddressType program left ∧ isAddressType program right then
    program.mustType "U64"
  else some left

variable (self : ι)

mutual

def typeExpr : Expr → Option ι
  | .name name => if name = "self" then some self else program.mustType name
  | .intLiteral _ | .sizeOf _ | .alignOf _ => program.mustType "U64"
  | .stringLiteral _ => program.mustType "StringLiteral"
  | .boolLiteral _ => program.mustType "Bool"
  | .typeOperand _ => none
  | .constructor type _ => program.lookupTypeRef type
  | .variantConstructor enum variant args => program.variantType enum variant (typeArgs args)
  | .call receiver method args => program.callType (typeExpr receiver) method (typeArgs args)
  | .field base field => (typeExpr base).bind (lookupField program · field)
  | .binary op left right =>
    match typeExpr left, typeExpr right with
    | some left, some right => binaryType program op left right
    | _, _ => none

def typeArgs : List (String × Expr) → List (String × Option ι)
  | [] => []
  | (name, arg)::args => (name, typeExpr arg)::typeArgs args

end

end

/-! ### The check -/

section
variable (program : Program ι)

def qualifiedTypeName (t : ι) : String :=
  let type := program.types t
  if type.moduleName = "" ∨ type.moduleName = "builtin" then type.name
  else type.moduleName++"."++type.name

def isUnpublishedBlobRefType (t : Option ι) : Bool :=
  t.any (qualifiedTypeName program · = "storage.blob.UnpublishedBlobRef")

variable (self : ι)

def eventFieldTypes (field : String) : Option ι :=
  (((program.types self).fields.filter (·.type.isSome)).reverse.find? (·.name = field)).bind (·.type)

def selfFieldReferencesUnpublishedBlob (base : Expr) (field : String) : Bool :=
  match base with
  | .name name => name = "self" && isUnpublishedBlobRefType program (eventFieldTypes program self field)
  | _ => false

mutual

def eventEncodeReferencesUnpublishedBlob : Expr → Bool
  | .field base field =>
    selfFieldReferencesUnpublishedBlob program self base field ||
      eventEncodeReferencesUnpublishedBlob base
  | .call receiver _ args =>
    eventEncodeReferencesUnpublishedBlob receiver || anyReferencesUnpublishedBlob args
  | .constructor _ args | .variantConstructor _ _ args => anyReferencesUnpublishedBlob args
  | .binary _ left right =>
    eventEncodeReferencesUnpublishedBlob left || eventEncodeReferencesUnpublishedBlob right
  | _ => false

def anyReferencesUnpublishedBlob : List (String × Expr) → Bool
  | [] => false
  | (_, arg)::args => eventEncodeReferencesUnpublishedBlob arg || anyReferencesUnpublishedBlob args

end

def primitive? : String → Option Prim
  | "Bool" => some .bool
  | "U8" => some .u8
  | "U16" => some .u16
  | "U32" => some .u32
  | "U64" => some .u64
  | "I8" => some .i8
  | "I16" => some .i16
  | "I32" => some .i32
  | "I64" => some .i64
  | "PhysicalAddress" => some .physicalAddress
  | "VirtualAddress" => some .virtualAddress
  | _ => none

/-- The parts a type is laid out from; a type that holds itself has none, nor has one
of another kind. The depth of the recursion is bounded by `fuel`. -/
def payloadType : ℕ → List String → ι → Option Ty
  | 0, _, _ => none
  | fuel+1, visiting, t =>
    if program.kind t = .primitive then (primitive? (typeName program t)).map .prim
    else if program.key t ∈ visiting then none
    else
      let parts := fun fields : List (Delegated.Field ι) =>
        fields.mapM fun field => field.type.bind (payloadType fuel (program.key t::visiting))
      match program.kind t with
      | .enum => ((program.types t).enumVariants.mapM fun v => parts v.fields).map .enum
      | .data => (parts (program.types t).fields).map .data
      | .cls => (parts (program.types t).fields).map .cls
      | _ => none

structure LayoutField (ι : Type) where
  name : String
  type : Option ι
  encode : Option Expr
  encodeErrors : List Diagnostic

structure LayoutDecl (ι : Type) where
  id : String
  current : Bool
  fields : List (LayoutField ι)

structure BlobEvent (ι : Type) where
  name : String
  id : String
  self : ι
  layouts : List (LayoutDecl ι)

variable (fuel : ℕ)

/-- What the checker finds out about a field before it is placed. For a type that is not
laid out stands one without a payload layout. -/
def LayoutField.found (field : LayoutField ι) : EventLayoutField :=
  ⟨field.name,field.type.map fun t => (payloadType program fuel [] t).getD (.prim .i8),
    field.encodeErrors,isUnpublishedBlobRefType program field.type ||
      field.encode.any (eventEncodeReferencesUnpublishedBlob program self)⟩

def BlobEvent.found (event : BlobEvent ι) : EventDecl :=
  ⟨event.name,event.id,event.layouts.map fun layout =>
    ⟨layout.id,layout.current,layout.fields.map (LayoutField.found program event.self fuel)⟩⟩

def BlobEvent.Accepted (event : BlobEvent ι) : Prop :=
  (checkEventLayouts (event.found program fuel)).2 = []

end

/-! ### What must not become durable -/

inductive Within : Expr → Expr → Prop
  | refl (e : Expr) : Within e e
  | base {sub base : Expr} {field : String} (h : Within sub base) : Within sub (.field base field)
  | receiver {sub receiver : Expr} {method : String} {args : List (String × Expr)}
      (h : Within sub receiver) : Within sub (.call receiver method args)
  | callArg {sub receiver arg : Expr} {name method : String} {args : List (String × Expr)}
      (hmem : (name, arg) ∈ args) (h : Within sub arg) : Within sub (.call receiver method args)
  | constructorArg {sub arg : Expr} {name : String} {type : TypeRef} {args : List (String × Expr)}
      (hmem : (name, arg) ∈ args) (h : Within sub arg) : Within sub (.constructor type args)
  | variantArg {sub arg : Expr} {name enum variant : String} {args : List (String × Expr)}
      (hmem : (name, arg) ∈ args) (h : Within sub arg) :
      Within sub (.variantConstructor enum variant args)
  | left {sub left right : Expr} {op : String} (h : Within sub left) : Within sub (.binary op left right)
  | right {sub left right : Expr} {op : String} (h : Within sub right) : Within sub (.binary op left right)

section
variable (program : Program ι)

def Holds (t : ι) : Prop :=
  ∃ u, Reach (partTypes program.types) t u ∧ isUnpublishedBlobRefType program (some u)

def ProjectsFrom (self : ι) (e : Expr) : Prop :=
  ∃ sub, Within sub e ∧ isUnpublishedBlobRefType program (typeExpr program self sub)

def BlobEvent.fields (event : BlobEvent ι) : List (LayoutField ι) :=
  event.layouts.flatMap (·.fields)

/-- No payload field can hold an unpublished reference, and none is encoded from one. -/
def BlobEvent.NeverDurable (event : BlobEvent ι) : Prop :=
  ∀ field ∈ event.fields, (∀ t, field.type = some t → ¬ Holds program t) ∧
    ∀ e, field.encode = some e → ¬ ProjectsFrom program event.self e

def DeclaredOnce (self : ι) (field : String) : Prop :=
  ∃ f, (program.types self).fields.filter (·.name = field) = [f]

/-- The unpublished references in the encode expressions are fields of the event, and
payload types have none below their top. -/
def BlobEvent.Plain (event : BlobEvent ι) : Prop :=
  ∀ field ∈ event.fields,
    (∀ t, field.type = some t → ∀ u ∈ partTypes program.types t, ¬ Holds program u) ∧
    ∀ e, field.encode = some e → ∀ sub, Within sub e →
      isUnpublishedBlobRefType program (typeExpr program event.self sub) →
        ∃ f, sub = .field (.name "self") f ∧ DeclaredOnce program event.self f

end

/-! ### What acceptance says about a field -/

variable {field : EventLayoutField} {layout : EventLayoutDecl}

theorem not_unpublishedBlob_of_clean
    (h : (checkLayoutField field).1 = []) : field.unpublishedBlob = false := by
  rw [checkLayoutField] at h
  cases htype : field.type with
  | none => simp [htype] at h
  | some type =>
    by_contra hblob
    rw [Bool.not_eq_false] at hblob
    simp [htype, hblob] at h

theorem eventLayoutPayload_clean (h : (eventLayoutPayload layout).2 = [])
    (hfield : field ∈ layout.fields) : (checkLayoutField field).1 = [] := by
  rw [eventLayoutPayload] at h
  have herrors := (append_eq_nil_iff.mp h).1
  rw [flatten_eq_nil_iff] at herrors
  exact herrors _ (mem_map_of_mem (mem_map_of_mem hfield))

theorem checkLayouts_clean {layouts : List EventLayoutDecl} {seen : List UInt64}
    (h : (checkLayouts seen layouts).2 = []) (hlayout : layout ∈ layouts) :
    (eventLayoutPayload layout).2 = [] := by
  induction layouts generalizing seen with
  | nil => exact absurd hlayout not_mem_nil
  | cons first layouts ih =>
    rw [checkLayouts] at h
    dsimp only at h
    split_ifs at h
    obtain ⟨hfirst,hrest⟩ := append_eq_nil_iff.mp h
    obtain rfl|hlayout := mem_cons.mp hlayout
    · exact hfirst
    · exact ih hrest hlayout

section
variable {fuel : ℕ} {event : BlobEvent ι}

section
variable (h : event.Accepted program fuel)
include h

variable {field : LayoutField ι}

section
variable (hfield : field ∈ event.fields)
include hfield

theorem BlobEvent.Accepted.found :
    (field.found program event.self fuel).unpublishedBlob = false := by
  obtain ⟨layout,hlayout,hfield⟩ := mem_flatMap.mp hfield
  rw [BlobEvent.Accepted, checkEventLayouts] at h
  have hlayouts := (append_eq_nil_iff.mp h).1
  refine not_unpublishedBlob_of_clean (eventLayoutPayload_clean
    (checkLayouts_clean hlayouts (mem_map_of_mem hlayout)) ?_)
  exact mem_map_of_mem hfield

theorem BlobEvent.Accepted.type : isUnpublishedBlobRefType program field.type = false :=
  (Bool.or_eq_false_iff.mp (h.found hfield)).1

theorem BlobEvent.Accepted.encode {e : Expr} (he : field.encode = some e) :
    eventEncodeReferencesUnpublishedBlob program event.self e = false := by
  have hencode := (Bool.or_eq_false_iff.mp (h.found hfield)).2
  rwa [he] at hencode

end

end

end

/-! ### The fields of the event in an expression -/

section
variable {self : ι}

theorem anyReferences_of_mem {args : List (String × Expr)} {name : String} {arg : Expr}
    (hmem : (name, arg) ∈ args) (h : eventEncodeReferencesUnpublishedBlob program self arg) :
    anyReferencesUnpublishedBlob program self args := by
  induction args with
  | nil => exact absurd hmem not_mem_nil
  | cons first args ih =>
    rw [anyReferencesUnpublishedBlob, Bool.or_eq_true]
    obtain rfl|hmem := mem_cons.mp hmem
    · exact .inl h
    · exact .inr (ih hmem)

theorem references_of_within {sub e : Expr} (h : Within sub e)
    (hsub : eventEncodeReferencesUnpublishedBlob program self sub) :
    eventEncodeReferencesUnpublishedBlob program self e := by
  induction h with
  | refl => exact hsub
  | base _ ih | right _ ih =>
    rw [eventEncodeReferencesUnpublishedBlob, ih, Bool.or_true]
  | receiver _ ih | left _ ih =>
    rw [eventEncodeReferencesUnpublishedBlob, ih, Bool.true_or]
  | callArg hmem _ ih =>
    rw [eventEncodeReferencesUnpublishedBlob, anyReferences_of_mem hmem ih, Bool.or_true]
  | constructorArg hmem _ ih | variantArg hmem _ ih =>
    rw [eventEncodeReferencesUnpublishedBlob]
    exact anyReferences_of_mem hmem ih

/-- The first and the last field of a name are the same one if there is only one. -/
theorem DeclaredOnce.eventFieldTypes_eq {field : String} (h : DeclaredOnce program self field) :
    eventFieldTypes program self field = lookupField program self field := by
  obtain ⟨f,hf⟩ := h
  rw [eventFieldTypes, lookupField, ← head?_filter, ← head?_filter, filter_reverse, filter_comm, hf]
  cases htype : f.type with
  | none | some t => simp [htype]

theorem references_self_field {field : String} (h : DeclaredOnce program self field)
    (hblob : isUnpublishedBlobRefType program
      (typeExpr program self (.field (.name "self") field))) :
    eventEncodeReferencesUnpublishedBlob program self (.field (.name "self") field) := by
  have htype : typeExpr program self (.field (.name "self") field) =
      lookupField program self field := by
    simp [typeExpr]
  rw [htype, ← h.eventFieldTypes_eq] at hblob
  simp [eventEncodeReferencesUnpublishedBlob, selfFieldReferencesUnpublishedBlob, hblob]

end

theorem holds_iff {ι : Type} {program : Program ι} {t : ι} :
    Holds program t ↔ isUnpublishedBlobRefType program (some t) ∨
      ∃ u ∈ partTypes program.types t, Holds program u := by
  constructor
  · rintro ⟨u,hreach,hblob⟩
    obtain rfl|⟨v,hv,hreach⟩ := Relation.ReflTransGen.cases_head hreach
    · exact .inl hblob
    · exact .inr ⟨v,hv,u,hreach,hblob⟩
  · rintro (hblob|⟨v,hv,u,hreach,hblob⟩)
    · exact ⟨t,.refl,hblob⟩
    · exact ⟨u,.head hv hreach,hblob⟩

/-- The references of an accepted event to unpublished blobs are exactly those below the
top of a payload type and those an expression does not read from a field of the event. -/
theorem unpublished_never_durable_iff {ι : Type} (program : Program ι) (fuel : ℕ)
    (event : BlobEvent ι) (h : event.Accepted program fuel) :
    event.NeverDurable program ↔ event.Plain program := by
  constructor
  · intro hnever field hfield
    refine ⟨fun t ht u hu hholds => ?_,fun e he sub hsub hblob => ?_⟩
    · exact (hnever field hfield).1 t ht (holds_iff.mpr (.inr ⟨u,hu,hholds⟩))
    · exact absurd ⟨sub,hsub,hblob⟩ ((hnever field hfield).2 e he)
  · intro hplain field hfield
    refine ⟨fun t ht hholds => ?_,fun e he => ?_⟩
    · obtain hblob|⟨u,hu,hholds⟩ := holds_iff.mp hholds
      · have htop := h.type hfield
        rw [ht, hblob] at htop
        cases htop
      · exact (hplain field hfield).1 t ht u hu hholds
    · rintro ⟨sub,hsub,hblob⟩
      obtain ⟨f,rfl,honce⟩ := (hplain field hfield).2 e he sub hsub hblob
      have hreferences := references_of_within hsub (references_self_field honce hblob)
      rw [h.encode hfield he] at hreferences
      cases hreferences

inductive SampleType where
  | u64 | unpublished | upload | uploaded
  deriving DecidableEq

def sampleTypes : TypeGraph SampleType
  | .u64 => ⟨"builtin","U64",[],[]⟩
  | .unpublished => ⟨"storage.blob","UnpublishedBlobRef",[⟨"manifest_lba",some .u64⟩],[]⟩
  | .upload => ⟨"app","Upload",[⟨"blob",some .unpublished⟩],[]⟩
  | .uploaded => ⟨"app","Uploaded",[⟨"upload",some .upload⟩, ⟨"count",some .u64⟩],[]⟩

def sampleProgram : Program SampleType where
  types := sampleTypes
  kind
    | .u64 => .primitive
    | .unpublished | .upload => .data
    | .uploaded => .other
  key t := (sampleTypes t).moduleName++"."++(sampleTypes t).name
  mustType _ := none
  lookupTypeRef _ := none
  callType _ _ _ := none
  variantType _ _ _ := none

def uploaded (fields : List (LayoutField SampleType)) : BlobEvent SampleType :=
  ⟨"Uploaded","1",.uploaded,[⟨"1",true,fields⟩]⟩

def selfField (field : String) : Expr := .field (.name "self") field

def countField : LayoutField SampleType := ⟨"count",some .u64,some (selfField "count"),[]⟩

/-- The number of the event as its payload. -/
theorem unpublished_never_durable_count :
    (uploaded [countField]).Accepted sampleProgram 3 ∧
      (uploaded [countField]).NeverDurable sampleProgram := by
  have haccepted : (uploaded [countField]).Accepted sampleProgram 3 := by
    rw [BlobEvent.Accepted]
    decide
  refine ⟨haccepted,(unpublished_never_durable_iff sampleProgram 3 _ haccepted).mpr ?_⟩
  intro field hfield
  obtain rfl := mem_singleton.mp hfield
  refine ⟨fun t ht u hu => ?_,fun e he sub hsub hblob => ?_⟩
  · cases ht
    exact absurd hu not_mem_nil
  · cases he
    cases hsub with
    | refl => exact absurd hblob (by decide)
    | base h =>
      cases h
      exact absurd hblob (by decide)

def blobOfUpload : Expr := .field (selfField "upload") "blob"

def lbaField : LayoutField SampleType :=
  ⟨"lba",some .u64,some (.field blobOfUpload "manifest_lba"),[]⟩

def uploadField : LayoutField SampleType := ⟨"upload",some .upload,some (selfField "upload"),[]⟩

/-- The record around an unpublished reference is accepted as a payload, and so is the
manifest of the blob behind it. -/
theorem nested_unpublished_accepted :
    (uploaded [uploadField, lbaField]).Accepted sampleProgram 3 ∧ Holds sampleProgram .upload ∧
      ProjectsFrom sampleProgram .uploaded (.field blobOfUpload "manifest_lba") := by
  refine ⟨?_,?_,?_⟩
  · rw [BlobEvent.Accepted]
    decide
  · exact ⟨.unpublished,.single (by simp [partTypes, Delegated.fieldTypes, Field.types, sampleProgram,
      sampleTypes]),by decide⟩
  · exact ⟨blobOfUpload,.base (.refl _),by decide⟩

end Wrela.Sem.Blobs

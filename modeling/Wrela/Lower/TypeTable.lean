import Wrela.Ir.Layout

/-!
# The table of layouts

Lowering lays out every type once and keeps the layout under several names: the key of
the type, with its module and its arguments, and a short name. The generated code looks
layouts up by module and name in some places and by the short name in others. Types of
equal short names share that entry, and the last one laid out is found there. Assembly
code names a type without regard to case, and finds any type of that name.
-/

set_option autoImplicit false

namespace Wrela.TypeTable
open List
open Ir (alignUp)
open Option (map_eq_some_iff map_some some_inj)

inductive Kind where
  | primitive | data | cls | driver | driverPath | executor | image | enum | unknown
  deriving DecidableEq, Repr

def isHandleRecordKind : Kind → Bool
  | .data | .cls | .driver | .driverPath | .executor => true
  | _ => false

/-! ### Types and layouts -/

/-- A type of the program, other types named by their places `ι`. A generic declaration
has type parameters, its instances have arguments, given by their keys. -/
structure SemType (ι : Type) where
  moduleName : String
  name : String
  kind : Kind
  typeParams : ℕ
  typeArgs : List String
  fields : List (String × ι)
  enumVariants : List (String × List (String × ι))
  plainName : '.' ∉ name.toList ∧ '[' ∉ name.toList
  plainModule : '[' ∉ moduleName.toList
  primitiveArgs : kind = .primitive → typeArgs = []

structure IrType where
  name : String
  moduleName : String
  kind : Kind
  deriving DecidableEq

structure FieldInfo where
  name : String
  type : IrType
  offset : ℕ
  size : ℕ
  align : ℕ
  storageOffset : Option ℕ
  storageSize : ℕ
  deriving DecidableEq

structure LayoutInfo where
  kind : Kind
  size : ℕ
  align : ℕ
  storageSize : ℕ
  fields : List (String × FieldInfo)
  fieldOrder : List String
  enumVariants : List (String × List String)
  deriving DecidableEq

structure TypeInfo where
  name : String
  moduleName : String
  layout : LayoutInfo
  deriving DecidableEq

/-- The newest entry of a name counts. -/
abbrev Table := List (String × TypeInfo)

def primitiveInfo (name : String) (size align : ℕ) : String × TypeInfo :=
  (name, ⟨name,"",⟨.primitive,size,align,size,[],[],[]⟩⟩)

def stringLiteralFields : List (String × FieldInfo) :=
  [("address", ⟨"address",⟨"PhysicalAddress","",.primitive⟩,0,8,8,some 0,0⟩),
    ("length", ⟨"length",⟨"U64","",.primitive⟩,8,8,8,some 0,0⟩)]

def primitiveTypes : Table :=
  ("StringLiteral", ⟨"StringLiteral","",⟨.primitive,16,8,16,stringLiteralFields,
    ["address", "length"],[]⟩⟩)::
  [primitiveInfo "Bool" 1 1, primitiveInfo "U8" 1 1, primitiveInfo "U16" 2 2,
    primitiveInfo "U32" 4 4, primitiveInfo "U64" 8 8, primitiveInfo "I64" 8 8,
    primitiveInfo "PhysicalAddress" 8 8, primitiveInfo "VirtualAddress" 8 8,
    primitiveInfo "never" 0 1, primitiveInfo "void" 0 1]

def SemType.qualifiedName {ι : Type} (type : SemType ι) : String :=
  if type.moduleName = "" ∨ type.moduleName = "builtin" then type.name
  else type.moduleName++"."++type.name

def SemType.key {ι : Type} (type : SemType ι) : String :=
  if type.typeArgs = [] then type.qualifiedName
  else type.qualifiedName++("["++(",".intercalate type.typeArgs++"]"))

def SemType.irTypeName {ι : Type} (type : SemType ι) : String :=
  if type.typeArgs = [] then type.name else type.key

def SemType.typeInfoKey {ι : Type} (type : SemType ι) : String :=
  if type.kind = .primitive then type.name else type.key

def SemType.irType {ι : Type} (type : SemType ι) : IrType :=
  ⟨type.irTypeName,type.moduleName,type.kind⟩

def SemType.written {ι : Type} (type : SemType ι) : List String :=
  if type.typeArgs = [] then [type.name, type.typeInfoKey]
  else (if type.moduleName = "" then [] else [type.moduleName++"."++type.irTypeName])++
    [type.irTypeName, type.typeInfoKey]

/-! ### Laying out -/

/-- The table, and the types laid out so far, the last one first. -/
structure Laying (ι : Type) where
  types : Table
  laid : List (ι × TypeInfo)

section
variable {ι : Type} (types : ι → SemType ι)

def storeTypeInfo (t : ι) (info : TypeInfo) (s : Laying ι) : Laying ι :=
  ⟨(types t).written.map (·, info)++s.types,(t, info)::s.laid⟩

def typeInfoReady (info : TypeInfo) (name : String) : Bool :=
  info.layout.size ≠ 0 || info.layout.align ≠ 0 || info.layout.fields ≠ [] || name = "never" ||
    name = "void"

/-- A type that is met again inside of itself counts as a handle there. -/
def cutInfo (t : ι) : TypeInfo :=
  ⟨(types t).irTypeName,(types t).moduleName,⟨(types t).kind,8,8,8,[],[],[]⟩⟩

def setField (fields : List (String × FieldInfo)) (name : String) (field : FieldInfo) :
    List (String × FieldInfo) :=
  (name, field)::fields.filter (·.1 ≠ name)

structure Placed (ι : Type) where
  fields : List (String × FieldInfo)
  order : List String
  offset : ℕ
  align : ℕ
  state : Laying ι

variable (ensure : ι → Laying ι → TypeInfo × Laying ι)

def fieldAlign (kind : Kind) (info : TypeInfo) : ℕ :=
  let align := if isHandleRecordKind kind then 8 else info.layout.align
  if align = 0 then 8 else align

def placeField (p : Placed ι) (field : String × ι) : Placed ι :=
  let (info, state) := ensure field.2 p.state
  let type := (types field.2).irType
  let size := if isHandleRecordKind type.kind then 8 else info.layout.size
  let align := fieldAlign type.kind info
  let offset := alignUp p.offset align
  ⟨setField p.fields field.1 ⟨field.1,type,offset,size,align,none,0⟩,p.order++[field.1],
    offset+size,if align > p.align then align else p.align,state⟩

def placeStorage (p : Placed ι) (field : String × ι) : Placed ι :=
  match p.fields.lookup field.1 with
  | none => p
  | some placed =>
    if placed.type.kind ≠ .data then p
    else
      let (info, state) := ensure field.2 p.state
      let offset := alignUp p.offset (if info.layout.align = 0 then 8 else info.layout.align)
      let size := if info.layout.storageSize = 0 then info.layout.size else info.layout.storageSize
      ⟨setField p.fields field.1 {placed with storageOffset := some offset, storageSize := size},
        p.order,offset+size,p.align,state⟩

def recordSize (kind : Kind) (offset align : ℕ) : ℕ × ℕ :=
  let align := if align = 0 then 1 else align
  let size := alignUp offset align
  if kind ≠ .primitive ∧ size = 0 then (8, 8) else (size, align)

def recordLayout (kind : Kind) (fields : List (String × ι)) (s : Laying ι) :
    LayoutInfo × Laying ι :=
  let placed := fields.foldl (placeField types ensure) ⟨[],[],0,1,s⟩
  let sized := recordSize kind placed.offset placed.align
  let stored := fields.foldl (placeStorage ensure) {placed with offset := sized.1}
  let storageSize := alignUp stored.offset sized.2
  (⟨kind,sized.1,sized.2,if storageSize = 0 then sized.1 else storageSize,stored.fields,
    stored.order,[]⟩, stored.state)

/-- The loop over the payload of a variant, which stands at its storage. -/
def placePayload (p : Placed ι) (field : String × ι) : Placed ι :=
  let (info, state) := ensure field.2 p.state
  let type := (types field.2).irType
  let storageSize := if info.layout.storageSize = 0 then info.layout.size else info.layout.storageSize
  let size := if isHandleRecordKind type.kind then 8 else info.layout.size
  let align := fieldAlign type.kind info
  let offset := alignUp p.offset align
  ⟨setField p.fields field.1 ⟨field.1,type,offset,size,align,some offset,storageSize⟩,
    p.order++[field.1],offset+storageSize,if align > p.align then align else p.align,state⟩

structure Variants (ι : Type) where
  layout : LayoutInfo
  payloadSize : ℕ
  payloadAlign : ℕ
  state : Laying ι

def placeVariant (v : Variants ι) (variant : String × List (String × ι)) : Variants ι :=
  let placed := variant.2.foldl (placePayload types ensure) ⟨[],[],8,1,v.state⟩
  let payloadSize := alignUp (placed.offset-8) placed.align
  let named := placed.order.map fun name => (variant.1++"."++name, placed.fields.lookup name)
  let fields := named.foldl (fun fields (name, field) =>
    field.elim fields fun field => setField fields name {field with name := name}) v.layout.fields
  let layout : LayoutInfo := {v.layout with
    fields := fields
    fieldOrder := v.layout.fieldOrder++named.map (·.1)
    enumVariants := v.layout.enumVariants++[(variant.1, named.map (·.1))]}
  ⟨layout,
    if payloadSize > v.payloadSize then payloadSize else v.payloadSize,
    if placed.align > v.payloadAlign then placed.align else v.payloadAlign,placed.state⟩

/-- The tag is of the type that `U64` stands for in the enum's module. -/
def enumLayout (tag : IrType) (variants : List (String × List (String × ι))) (s : Laying ι) :
    LayoutInfo × Laying ι :=
  let start : LayoutInfo :=
    ⟨.enum,8,8,8,[("$tag", ⟨"$tag",tag,0,8,8,some 0,8⟩)],["$tag"],[]⟩
  let placed := variants.foldl (placeVariant types ensure) ⟨start,0,1,s⟩
  let align := if placed.payloadAlign > 8 then placed.payloadAlign else 8
  let size := alignUp (8+placed.payloadSize) align
  let size := if size = 0 then 8 else size
  ({placed.layout with size := size, align := align, storageSize := size}, placed.state)

variable (tag : ι → IrType)

def Laying.found (s : Laying ι) (t : ι) : Option TypeInfo :=
  let type := types t
  let ready := fun name => (s.types.lookup name).filter (typeInfoReady · type.name)
  if type.kind = .primitive ∧ (s.types.lookup type.name).isSome then s.types.lookup type.name
  else (ready type.typeInfoKey).or
    (if type.moduleName = "" ∧ type.typeArgs = [] then ready type.name else none)

/-- The layout of a type, which is stored unless it was found. Types inside of
themselves are cut, and the depth is bounded by `fuel`. -/
def ensureTypeInfo : ℕ → List String → ι → Laying ι → TypeInfo × Laying ι
  | 0, _, t, s => (cutInfo types t, s)
  | fuel+1, visiting, t, s =>
    match s.found types t with
    | some info => (info, s)
    | none =>
      let type := types t
      if type.typeInfoKey ∈ visiting then (cutInfo types t, s)
      else
        let ensure := ensureTypeInfo fuel (type.typeInfoKey::visiting)
        let (layout, s) :=
          if type.kind = .enum then enumLayout types ensure (tag t) type.enumVariants s
          else recordLayout types ensure type.kind type.fields s
        let info : TypeInfo := ⟨type.irTypeName,type.moduleName,layout⟩
        (info, storeTypeInfo types t info s)

def layOut (fuel : ℕ) (order : List ι) : Laying ι :=
  order.foldl (fun s t => (ensureTypeInfo types tag fuel [] t s).2) ⟨primitiveTypes,[]⟩

end

/-! ### Looking layouts up -/

section
variable (types : Table)

/-- By module and name: constructors, copies, storage sizes, record returns. -/
def typeInfo (type : IrType) : Option TypeInfo :=
  (if type.moduleName = "" then none else types.lookup (type.moduleName++"."++type.name)).or
    (types.lookup type.name)

/-- By name, then by module and name: interrupt events and contexts. -/
def typeInfoFor (type : IrType) : Option TypeInfo :=
  (types.lookup type.name).or
    (if type.moduleName = "" then none else types.lookup (type.moduleName++"."++type.name))

variable {ι : Type} (type : SemType ι)

def representationInfo : Option TypeInfo := types.lookup type.irTypeName

/-- By the key: offsets of fields. -/
def irFieldInfo : Option TypeInfo := (types.lookup type.typeInfoKey).or (types.lookup type.name)

/-- By the short name: the place and storage of a data field that is assigned. -/
def fieldStoreInfo : Option TypeInfo := types.lookup type.name

def consulted : List (Option TypeInfo) :=
  [typeInfo types type.irType, typeInfoFor types type.irType, representationInfo types type,
    irFieldInfo types type, fieldStoreInfo types type]

end

/-- The offsets of the fields by their names in lower case; of equal names the last counts. -/
def TypeInfo.asmOffset (info : TypeInfo) (field : String) : Option ℕ :=
  (info.layout.fieldOrder.reverse.find? fun f => f.toLower = field.toLower).bind fun f =>
    (info.layout.fields.lookup f).map (·.offset)

/-- The names of a layout in assembly code; one without fields is left out. -/
def TypeInfo.asmNames (info : TypeInfo) : List String :=
  if info.layout.fieldOrder = [] then []
  else info.name.toLower::if info.moduleName = "" then []
    else [(info.moduleName++"."++info.name).toLower]

/-- The names that assembly code has for a type, by itself and with its module. -/
def SemType.asmTexts {ι : Type} (type : SemType ι) : List String :=
  [type.name.toLower, (type.moduleName++"."++type.name).toLower]

/-- The offsets are collected from the whole table in no fixed order, so each entry with a
name of the type may be the one that is used. -/
def asmFound {ι : Type} (lookup : String → Option TypeInfo) (type : SemType ι)
    (info : TypeInfo) : Prop :=
  (∃ key, lookup key = some info) ∧ ∃ name ∈ info.asmNames, name ∈ type.asmTexts

section
variable {ι : Type} (types : ι → SemType ι) (s : Laying ι)

/-- Values are of types that are declared and not generic. -/
def HasValues (t : ι) : Prop :=
  (types t).typeParams = 0 ∧ (types t).kind ≠ .primitive ∧ (types t).kind ≠ .unknown

/-- Every layout consulted for a value is that of its own type. -/
structure Separate : Prop where
  declared : ∀ entry ∈ s.laid, HasValues types entry.1 →
    ∀ found ∈ consulted s.types (types entry.1), found.map (·.layout) = some entry.2.layout
  assembly : ∀ entry ∈ s.laid, HasValues types entry.1 →
    ∀ info, asmFound (fun key => s.types.lookup key) (types entry.1) info →
      info.asmOffset = entry.2.asmOffset
  primitive : ∀ entry ∈ primitiveTypes,
    (s.types.lookup entry.1).map (·.layout) = some entry.2.layout

/-- The last type without arguments that was laid out with a short name. -/
def lastNamed (name : String) : Option (ι × TypeInfo) :=
  s.laid.find? fun entry => (types entry.1).typeArgs = [] ∧ (types entry.1).name = name

def lastWritten (name : String) : Option (ι × TypeInfo) :=
  s.laid.find? fun entry => name ∈ (types entry.1).written

/-- No type has the name of a primitive one, the last type of a short name has the layout
of every other, and so has the last instance stored under a name of an instance. Types
whose names differ in case only have the same offsets. -/
structure ShortNamesAgree : Prop where
  primitives : ∀ entry ∈ s.laid, (types entry.1).typeArgs = [] →
    primitiveTypes.lookup (types entry.1).name = none
  named : ∀ entry ∈ s.laid, HasValues types entry.1 →
    (lastNamed types s (types entry.1).name).map (·.2.layout) = some entry.2.layout
  instances : ∀ entry ∈ s.laid, HasValues types entry.1 → (types entry.1).typeArgs ≠ [] →
    ∀ name ∈ (types entry.1).written,
      (lastWritten types s name).map (·.2.layout) = some entry.2.layout
  cases : ∀ entry ∈ s.laid, HasValues types entry.1 → ∀ info,
    asmFound (fun key => ((lastWritten types s key).map (·.2)).or (primitiveTypes.lookup key))
      (types entry.1) info → info.asmOffset = entry.2.asmOffset

end

/-! ### What laying out keeps -/

section
variable {ι : Type} (types : ι → SemType ι) {t : ι}

def Laying.keys (s : Laying ι) : List String := s.laid.map fun entry => (types entry.1).typeInfoKey

/-- Types are stored one after another, each one once, and none of those that are being
laid out. -/
inductive Grows (visiting : List String) : Laying ι → Laying ι → Prop
  | refl (s : Laying ι) : Grows visiting s s
  | store {s s' : Laying ι} {t : ι} {info : TypeInfo} (h : Grows visiting s s')
      (hvisiting : (types t).typeInfoKey ∉ visiting) (hkeys : (types t).typeInfoKey ∉ s'.keys types)
      (hkind : info.layout.kind = (types t).kind) (halign : info.layout.align ≠ 0)
      (hprimitive : (types t).kind = .primitive → primitiveTypes.lookup (types t).name = none) :
      Grows visiting s (storeTypeInfo types t info s')

/-- The table holds what the types laid out have written, the last one first, and the
primitive types behind it. -/
structure Kept (s : Laying ι) : Prop where
  table : s.types = (s.laid.flatMap fun entry => (types entry.1).written.map (·, entry.2))++
    primitiveTypes
  keys : (s.keys types).Nodup
  kind : ∀ entry ∈ s.laid, entry.2.layout.kind = (types entry.1).kind
  align : ∀ entry ∈ s.laid, entry.2.layout.align ≠ 0
  primitive : ∀ entry ∈ s.laid, (types entry.1).kind = .primitive →
    primitiveTypes.lookup (types entry.1).name = none

variable {types}
  {s : Laying ι} {visiting : List String} {key : String} {name : String} {info : TypeInfo}

theorem Grows.trans {s s' s'' : Laying ι} (h : Grows types visiting s s')
    (h' : Grows types visiting s' s'') : Grows types visiting s s'' := by
  induction h' with
  | refl => exact h
  | store _ hvisiting hkeys hkind halign hprimitive ih =>
    exact .store ih hvisiting hkeys hkind halign hprimitive

theorem Grows.leave {s s' : Laying ι}
    (h : Grows types (key::visiting) s s') : Grows types visiting s s' := by
  induction h with
  | refl => exact .refl _
  | store _ hvisiting hkeys hkind halign hprimitive ih =>
    exact .store ih (fun h => hvisiting (mem_cons_of_mem _ h)) hkeys hkind halign hprimitive

theorem Grows.not_mem_keys {s s' : Laying ι} (h : Grows types visiting s s')
    (hkey : key ∈ visiting) (hs : key ∉ s.keys types) : key ∉ s'.keys types := by
  induction h with
  | refl => exact hs
  | store _ hvisiting _ _ _ _ ih =>
    rw [Laying.keys, storeTypeInfo, map_cons, mem_cons, not_or]
    refine ⟨?_,ih⟩
    rintro rfl
    exact hvisiting hkey

theorem Kept.grows {s s' : Laying ι} (hs : Kept types s)
    (h : Grows types visiting s s') : Kept types s' := by
  induction h with
  | refl => exact hs
  | store _ _ hkeys hkind halign hprimitive ih =>
    constructor
    · rw [storeTypeInfo, ih.table, flatMap_cons, append_assoc]
    · exact nodup_cons.mpr ⟨hkeys,ih.keys⟩
    · exact forall_mem_cons.mpr ⟨hkind,ih.kind⟩
    · exact forall_mem_cons.mpr ⟨halign,ih.align⟩
    · exact forall_mem_cons.mpr ⟨hprimitive,ih.primitive⟩

theorem kept_start : Kept types ⟨primitiveTypes,[]⟩ := by
  constructor <;> simp [Laying.keys]

theorem mem_of_lookup {table : Table}
    (h : table.lookup name = some info) : (name, info) ∈ table := by
  obtain ⟨before,after,htable,-⟩ := lookup_eq_some_iff.mp h
  rw [htable]
  simp

theorem lookup_map_append (names : List String) (info : TypeInfo) (table : Table) (name : String) :
    (names.map (·, info)++table).lookup name =
      if name ∈ names then some info else table.lookup name := by
  induction names with
  | nil => rfl
  | cons first names ih =>
    rw [map_cons, cons_append, lookup_cons, ih]
    by_cases hfirst : name = first
    · simp [hfirst]
    · rw [beq_false_of_ne hfirst]
      simp [hfirst]

theorem Kept.lookup (hs : Kept types s) (name : String) :
    s.types.lookup name =
      ((lastWritten types s name).map (·.2)).or (primitiveTypes.lookup name) := by
  rw [hs.table, lastWritten]
  induction s.laid with
  | nil => rfl
  | cons entry laid ih =>
    rw [flatMap_cons, append_assoc, lookup_map_append, ih]
    by_cases hname : name ∈ (types entry.1).written
    · rw [if_pos hname, find?_cons_of_pos (by simpa using hname)]
      rfl
    · rw [if_neg hname, find?_cons_of_neg (by simpa using hname)]

theorem typeInfoKey_mem_written (type : SemType ι) : type.typeInfoKey ∈ type.written := by
  rw [SemType.written]
  split_ifs <;> simp

theorem Kept.not_written (hs : Kept types s) (h : s.types.lookup name = none) :
    (∀ entry ∈ s.laid, name ∉ (types entry.1).written) ∧ primitiveTypes.lookup name = none := by
  rw [hs.lookup, Option.or_eq_none_iff, Option.map_eq_none_iff, lastWritten, find?_eq_none] at h
  exact ⟨fun entry hentry => by simpa using h.1 entry hentry,h.2⟩

theorem Kept.not_mem_keys (hs : Kept types s)
    (h : s.types.lookup key = none) : key ∉ s.keys types := by
  intro hkey
  obtain ⟨entry,hentry,rfl⟩ := mem_map.mp hkey
  exact (hs.not_written h).1 entry hentry (typeInfoKey_mem_written _)

theorem align_primitiveTypes : ∀ entry ∈ primitiveTypes, entry.2.layout.align ≠ 0 := by
  decide

theorem Kept.align_lookup (hs : Kept types s)
    (h : s.types.lookup name = some info) : info.layout.align ≠ 0 := by
  rw [hs.lookup, Option.or_eq_some_iff] at h
  obtain h|⟨-,h⟩ := h
  · obtain ⟨entry,hentry,rfl⟩ := map_eq_some_iff.mp h
    exact hs.align entry (mem_of_find?_eq_some hentry)
  · exact align_primitiveTypes _ (mem_of_lookup h)

theorem Kept.lookup_of_not_found (hs : Kept types s)
    (h : s.found types t = none) : s.types.lookup (types t).typeInfoKey = none := by
  rw [Laying.found] at h
  dsimp only at h
  split_ifs at h with hprimitive
  · rw [h] at hprimitive
    cases hprimitive.2
  all_goals
    have hready := (Option.or_eq_none_iff.mp h).1
    cases hlookup : s.types.lookup (types t).typeInfoKey with
    | none => rfl
    | some info =>
      rw [hlookup] at hready
      simp [Option.filter, typeInfoReady, hs.align_lookup hlookup] at hready

section
variable {visiting : List String}

variable (types visiting) in
theorem foldl_grows {α β : Type} (state : α → Laying ι) {f : α → β → α}
    (hstep : ∀ a b, Kept types (state a) → Grows types visiting (state a) (state (f a b)))
    (bs : List β) {a : α} (ha : Kept types (state a)) :
    Grows types visiting (state a) (state (bs.foldl f a)) := by
  induction bs generalizing a with
  | nil => exact .refl _
  | cons b bs ih =>
    have hgrows := hstep a b ha
    exact hgrows.trans (ih (ha.grows hgrows))

variable {ensure : ι → Laying ι → TypeInfo × Laying ι}

section
variable {s : Laying ι} (hensure : ∀ t s, Kept types s → Grows types visiting s (ensure t s).2)
include hensure

theorem recordLayout_grows (kind : Kind) (fields : List (String × ι)) (hs : Kept types s) :
    Grows types visiting s (recordLayout types ensure kind fields s).2 := by
  have hfields := foldl_grows types visiting Placed.state (f := placeField types ensure)
    (fun p field hp => hensure field.2 p.state hp) fields (a := ⟨[],[],0,1,s⟩) hs
  have hstorage : ∀ (p : Placed ι) (field : String × ι), Kept types p.state →
      Grows types visiting p.state (placeStorage ensure p field).state := by
    intro p field hp
    rw [placeStorage]
    cases p.fields.lookup field.1 with
    | none => exact .refl _
    | some placed =>
      dsimp only
      by_cases hdata : placed.type.kind ≠ .data
      · rw [if_pos hdata]
        exact .refl _
      · rw [if_neg hdata]
        exact hensure field.2 p.state hp
  rw [recordLayout]
  refine hfields.trans ?_
  generalize fields.foldl (placeField types ensure) ⟨[],[],0,1,s⟩ = placed at hfields ⊢
  exact foldl_grows types visiting Placed.state hstorage fields
    (a := {placed with offset := (recordSize kind placed.offset placed.align).1}) (hs.grows hfields)

theorem enumLayout_grows (tag : IrType) (variants : List (String × List (String × ι)))
    (hs : Kept types s) : Grows types visiting s (enumLayout types ensure tag variants s).2 := by
  refine foldl_grows types visiting Variants.state (f := placeVariant types ensure)
    (fun v variant hv => ?_) variants (a := ⟨_,0,1,s⟩) hs
  exact foldl_grows types visiting Placed.state (f := placePayload types ensure)
    (fun p field hp => hensure field.2 p.state hp) variant.2 (a := ⟨[],[],8,1,v.state⟩) hv

end

variable (types ensure) in
theorem recordLayout_kind (kind : Kind) (fields : List (String × ι)) (s : Laying ι) :
    (recordLayout types ensure kind fields s).1.kind = kind ∧
      (recordLayout types ensure kind fields s).1.align ≠ 0 := by
  refine ⟨rfl,?_⟩
  rw [recordLayout]
  dsimp only [recordSize]
  split_ifs <;> simp_all

theorem placeVariants_kind (variants : List (String × List (String × ι))) (v : Variants ι) :
    (variants.foldl (placeVariant types ensure) v).layout.kind = v.layout.kind := by
  induction variants generalizing v with
  | nil => rfl
  | cons variant variants ih =>
    rw [foldl_cons, ih]
    rfl

variable (types ensure) in
theorem enumLayout_kind (tag : IrType) (variants : List (String × List (String × ι)))
    (s : Laying ι) : (enumLayout types ensure tag variants s).1.kind = .enum ∧
      (enumLayout types ensure tag variants s).1.align ≠ 0 := by
  refine ⟨placeVariants_kind variants _,?_⟩
  rw [enumLayout]
  dsimp only
  split_ifs <;> omega

end

theorem grows_store {s s' : Laying ι} (hs : Kept types s) (hfound : s.found types t = none)
    (hvisiting : (types t).typeInfoKey ∉ visiting)
    (h : Grows types ((types t).typeInfoKey::visiting) s s')
    (hkind : info.layout.kind = (types t).kind) (halign : info.layout.align ≠ 0) :
    Grows types visiting s (storeTypeInfo types t info s') := by
  have hlookup := hs.lookup_of_not_found hfound
  refine .store h.leave hvisiting (h.not_mem_keys mem_cons_self (hs.not_mem_keys hlookup)) hkind
    halign fun hprimitive => ?_
  rw [SemType.typeInfoKey, if_pos hprimitive] at hlookup
  exact (hs.not_written hlookup).2

/-- By induction on the depth: the types inside of a type are stored before it, while its
own key is marked. -/
theorem ensureTypeInfo_grows (tag : ι → IrType) (fuel : ℕ) (visiting : List String) (t : ι)
    (hs : Kept types s) :
    Grows types visiting s (ensureTypeInfo types tag fuel visiting t s).2 := by
  induction fuel generalizing visiting t s with
  | zero => exact .refl s
  | succ fuel ih =>
    rw [ensureTypeInfo]
    cases hfound : s.found types t with
    | some info => exact .refl s
    | none =>
      dsimp only
      by_cases hvisiting : (types t).typeInfoKey ∈ visiting
      · rw [if_pos hvisiting]
        exact .refl s
      · rw [if_neg hvisiting]
        let ensure := ensureTypeInfo types tag fuel ((types t).typeInfoKey::visiting)
        have hensure : ∀ u s, Kept types s →
            Grows types ((types t).typeInfoKey::visiting) s (ensure u s).2 :=
          fun u s hs => ih _ u hs
        by_cases henum : (types t).kind = .enum
        · rw [if_pos henum]
          have hlayout := enumLayout_kind types ensure (tag t) (types t).enumVariants s
          exact grows_store hs hfound hvisiting (enumLayout_grows hensure _ _ hs)
            (hlayout.1.trans henum.symm) hlayout.2
        · rw [if_neg henum]
          have hlayout := recordLayout_kind types ensure (types t).kind (types t).fields s
          exact grows_store hs hfound hvisiting (recordLayout_grows hensure _ _ hs) hlayout.1 hlayout.2

theorem layOut_kept (tag : ι → IrType) (fuel : ℕ) (order : List ι) :
    Kept types (layOut types tag fuel order) := by
  have hgrows := foldl_grows types [] id
    (fun s t hs => ensureTypeInfo_grows tag fuel [] t hs) order kept_start
  exact kept_start.grows hgrows

end

/-! ### Names -/

section
variable {ι : Type}

theorem eq_of_append_cons_eq {α : Type} {x : α} {xs ys us vs : List α} (hu : x ∉ us)
    (hv : x ∉ vs) (h : xs++x::us = ys++x::vs) : us = vs := by
  obtain ⟨zs,hy,hz⟩ | ⟨zs,hx,hz⟩ := append_eq_append_iff.mp h
  · cases zs with
    | nil => exact (List.cons.inj hz).2
    | cons z zs =>
      rw [cons_append] at hz
      exact absurd ((List.cons.inj hz).2 ▸ mem_append_right zs mem_cons_self) hu
  · cases zs with
    | nil => exact (List.cons.inj hz).2.symm
    | cons z zs =>
      rw [cons_append] at hz
      exact absurd ((List.cons.inj hz).2 ▸ mem_append_right zs mem_cons_self) hv

theorem toList_qualified (m n : String) : (m++"."++n).toList = m.toList ++ '.'::n.toList := by
  simp

theorem dot_mem_qualified (m n : String) : '.' ∈ (m++"."++n).toList := by
  simp

theorem qualified_injective {m m' n n' : String} (hn : '.' ∉ n.toList) (hn' : '.' ∉ n'.toList)
    (h : m++"."++n = m'++"."++n') : m = m' := by
  have hlist := congrArg String.toList h
  rw [toList_qualified, toList_qualified] at hlist
  have hname := eq_of_append_cons_eq hn hn' hlist
  rw [hname] at hlist
  exact String.ext (append_cancel_right hlist)

variable {type other : SemType ι} {name : String}

theorem bracket_mem_key (h : type.typeArgs ≠ []) : '[' ∈ type.key.toList := by
  rw [SemType.key, if_neg h]
  simp

/-- The names of an instance have a bracket, those of other types have none. -/
theorem bracket_of_written (h : type.typeArgs ≠ []) (hname : name ∈ type.written) :
    '[' ∈ name.toList := by
  have hkind : type.kind ≠ .primitive := fun hkind => h (type.primitiveArgs hkind)
  rw [SemType.written, if_neg h, SemType.irTypeName, if_neg h, SemType.typeInfoKey, if_neg hkind] at hname
  have hkey := bracket_mem_key h
  split_ifs at hname with hmodule
  · simp only [nil_append, mem_cons, not_mem_nil, or_false, or_self] at hname
    rwa [hname]
  · simp only [mem_append, mem_cons, not_mem_nil, or_false, or_self] at hname
    obtain rfl|rfl := hname
    · rw [toList_qualified]
      exact mem_append_right _ (mem_cons_of_mem _ hkey)
    · exact hkey

theorem qualifiedName_eq (type : SemType ι) :
    (type.moduleName = "" ∨ type.moduleName = "builtin") ∧ type.qualifiedName = type.name ∨
      ¬ (type.moduleName = "" ∨ type.moduleName = "builtin") ∧
        type.qualifiedName = type.moduleName++"."++type.name := by
  by_cases h : type.moduleName = "" ∨ type.moduleName = "builtin"
  · exact .inl ⟨h,if_pos h⟩
  · exact .inr ⟨h,if_neg h⟩

theorem mem_written_short (hdot : '.' ∉ name.toList) (hbracket : '[' ∉ name.toList) :
    name ∈ other.written ↔ other.typeArgs = [] ∧ other.name = name := by
  constructor
  · intro h
    by_cases hargs : other.typeArgs = []
    · refine ⟨hargs,?_⟩
      rw [SemType.written, if_pos hargs, mem_pair] at h
      obtain rfl|rfl := h
      · rfl
      · rw [SemType.typeInfoKey, SemType.key, if_pos hargs] at hdot ⊢
        split_ifs at hdot ⊢ with hkind
        · rfl
        · obtain ⟨-,hname⟩|⟨-,hname⟩ := qualifiedName_eq other
          · exact hname.symm
          · rw [hname] at hdot
            exact absurd (dot_mem_qualified _ _) hdot
    · exact absurd (bracket_of_written hargs h) hbracket
  · rintro ⟨hargs,rfl⟩
    rw [SemType.written, if_pos hargs]
    exact mem_cons_self

theorem typeInfoKey_of_written (h : type.moduleName++"."++type.name ∈ other.written) :
    other.typeInfoKey = type.moduleName++"."++type.name := by
  have hbracket : '[' ∉ (type.moduleName++"."++type.name).toList := by
    simp [type.plainModule, type.plainName.2]
  by_cases hargs : other.typeArgs = []
  · rw [SemType.written, if_pos hargs, mem_pair] at h
    obtain h|h := h
    · have hdot := dot_mem_qualified type.moduleName type.name
      rw [h] at hdot
      exact absurd hdot other.plainName.1
    · exact h.symm
  · exact absurd (bracket_of_written hargs h) hbracket

theorem not_written_builtin (hmodule : type.moduleName = "builtin") :
    type.moduleName++"."++type.name ∉ other.written := by
  intro h
  have hkey := typeInfoKey_of_written h
  have hdot := dot_mem_qualified type.moduleName type.name
  have hbracket : '[' ∉ (type.moduleName++"."++type.name).toList := by
    simp [type.plainModule, type.plainName.2]
  by_cases hargs : other.typeArgs = []
  · rw [← hkey, SemType.typeInfoKey, SemType.key, if_pos hargs] at hdot
    rw [SemType.typeInfoKey, SemType.key, if_pos hargs] at hkey
    split_ifs at hdot hkey with hkind
    · exact other.plainName.1 hdot
    · obtain ⟨-,hname⟩|⟨hother,hname⟩ := qualifiedName_eq other
      · rw [hname] at hdot
        exact other.plainName.1 hdot
      · rw [hname] at hkey
        have hsame := qualified_injective other.plainName.1 type.plainName.1 hkey
        exact hother (.inr (hsame.trans hmodule))
  · exact hbracket (bracket_of_written hargs h)

end

/-! ### What is found under a name -/

theorem primitive_names : ∀ entry ∈ primitiveTypes, '.' ∉ entry.1.toList ∧ '[' ∉ entry.1.toList ∧
    primitiveTypes.lookup entry.1 = some entry.2 ∧ entry.2.layout.kind = .primitive := by
  decide

section
variable {ι : Type} {types : ι → SemType ι} {s : Laying ι}

section
variable (hs : Kept types s)
include hs

theorem Kept.lookup_short (type : SemType ι) :
    s.types.lookup type.name =
      ((lastNamed types s type.name).map (·.2)).or (primitiveTypes.lookup type.name) := by
  rw [hs.lookup, lastWritten, lastNamed]
  simp [mem_written_short type.plainName.1 type.plainName.2]

theorem Kept.lookup_written {entry : ι × TypeInfo} (hentry : entry ∈ s.laid)
    {name : String} (hname : name ∈ (types entry.1).written) :
    ∃ last ∈ s.laid, lastWritten types s name = some last ∧ name ∈ (types last.1).written ∧
      s.types.lookup name = some last.2 := by
  cases hlast : lastWritten types s name with
  | none =>
    rw [lastWritten, find?_eq_none] at hlast
    exact absurd hname (by simpa using hlast entry hentry)
  | some last =>
    refine ⟨last,mem_of_find?_eq_some hlast,rfl,?_,?_⟩
    · simpa using find?_some hlast
    · rw [hs.lookup, hlast]
      rfl

theorem Kept.lookup_qualified {entry : ι × TypeInfo} (hentry : entry ∈ s.laid)
    (hargs : (types entry.1).typeArgs = []) (hkind : (types entry.1).kind ≠ .primitive)
    (hmodule : ¬ ((types entry.1).moduleName = "" ∨ (types entry.1).moduleName = "builtin")) :
    s.types.lookup ((types entry.1).moduleName++"."++(types entry.1).name) = some entry.2 := by
  have hkey : (types entry.1).typeInfoKey = (types entry.1).moduleName++"."++(types entry.1).name := by
    rw [SemType.typeInfoKey, if_neg hkind, SemType.key, if_pos hargs, SemType.qualifiedName,
      if_neg hmodule]
  have hwritten := typeInfoKey_mem_written (types entry.1)
  rw [hkey] at hwritten
  obtain ⟨last,hlast,-,hname,hlookup⟩ := hs.lookup_written hentry hwritten
  have hsame := (typeInfoKey_of_written hname).trans hkey.symm
  rw [hlookup, inj_on_of_nodup_map hs.keys hlast hentry hsame]

theorem Kept.lookup_builtin {type : SemType ι} (hmodule : type.moduleName = "builtin") :
    s.types.lookup (type.moduleName++"."++type.name) = none := by
  rw [hs.lookup, Option.or_eq_none_iff, Option.map_eq_none_iff, lastWritten, find?_eq_none]
  refine ⟨fun entry _ => by simpa using not_written_builtin hmodule,?_⟩
  cases hlookup : primitiveTypes.lookup (type.moduleName++"."++type.name) with
  | none => rfl
  | some info =>
    have hdot := (primitive_names _ (mem_of_lookup hlookup)).1
    exact absurd (dot_mem_qualified _ _) hdot

end

end

section
variable {ι : Type} {types : ι → SemType ι} {s : Laying ι}

theorem ShortNamesAgree.of_separate (hs : Kept types s) (h : Separate types s) :
    ShortNamesAgree types s := by
  refine ⟨fun entry hentry hargs => ?_,fun entry hentry hvalues => ?_,
    fun entry hentry hvalues hargs name hname => ?_,by simpa only [hs.lookup] using h.assembly⟩
  · -- the last type of a primitive's name would have to be primitive itself
    cases hprimitive : primitiveTypes.lookup (types entry.1).name with
    | none => rfl
    | some info =>
      have hplain := (types entry.1).plainName
      have hmem := mem_of_lookup hprimitive
      obtain ⟨last,hlast,-,hname,hlookup⟩ := hs.lookup_written hentry
        ((mem_written_short hplain.1 hplain.2).mpr ⟨hargs,rfl⟩)
      have hlayout := h.primitive _ hmem
      rw [hlookup, map_some, some_inj] at hlayout
      have hkind := hs.kind last hlast
      rw [hlayout, (primitive_names _ hmem).2.2.2] at hkind
      have hnone := hs.primitive last hlast hkind.symm
      rw [((mem_written_short hplain.1 hplain.2).mp hname).2, hprimitive] at hnone
      cases hnone
  · have hstore := h.declared entry hentry hvalues (fieldStoreInfo s.types (types entry.1))
      (by simp [consulted])
    rw [fieldStoreInfo, hs.lookup_short] at hstore
    cases hlast : lastNamed types s (types entry.1).name with
    | some last =>
      rw [hlast] at hstore
      exact hstore
    | none =>
      rw [hlast, Option.map_none, Option.none_or] at hstore
      obtain ⟨info,hinfo,hlayout⟩ := map_eq_some_iff.mp hstore
      have hkind := hs.kind entry hentry
      rw [← hlayout, (primitive_names _ (mem_of_lookup hinfo)).2.2.2] at hkind
      exact absurd hkind.symm hvalues.2.1
  · obtain ⟨last,-,hlast,-,hlookup⟩ := hs.lookup_written hentry hname
    rw [hlast, map_some]
    have hkey : (types entry.1).typeInfoKey = (types entry.1).irTypeName := by
      rw [SemType.typeInfoKey, if_neg hvalues.2.1, SemType.irTypeName, if_neg hargs]
    have hmodule : name = (types entry.1).moduleName++"."++(types entry.1).irTypeName ∧
        (types entry.1).moduleName ≠ "" ∨ name = (types entry.1).irTypeName := by
      rw [SemType.written, if_neg hargs, hkey] at hname
      split_ifs at hname with hempty
      · exact .inr (by simpa using hname)
      · simpa [hempty] using hname
    obtain ⟨rfl,hempty⟩|rfl := hmodule
    · have hfound := h.declared entry hentry hvalues (typeInfo s.types (types entry.1).irType)
        (by simp [consulted])
      rw [typeInfo, SemType.irType, if_neg hempty, hlookup, Option.some_or] at hfound
      exact hfound
    · have hfound := h.declared entry hentry hvalues (representationInfo s.types (types entry.1))
        (by simp [consulted])
      rw [representationInfo, hlookup] at hfound
      exact hfound

theorem or_layout {found other : Option TypeInfo} {layout : LayoutInfo}
    (hfound : ∀ info, found = some info → info.layout = layout)
    (hother : other.map (·.layout) = some layout) : (found.or other).map (·.layout) = some layout := by
  cases found with
  | none => exact hother
  | some info => exact congrArg some (hfound info rfl)

/-- The lookups by module, by name, by key and by short name cover all that is consulted. -/
theorem consulted_layout {table : Table} {type : SemType ι} {layout : LayoutInfo}
    (hmodule : type.moduleName ≠ "" → ∀ info,
      table.lookup (type.moduleName++"."++type.irTypeName) = some info → info.layout = layout)
    (hname : (table.lookup type.irTypeName).map (·.layout) = some layout)
    (hkey : ∀ info, table.lookup type.typeInfoKey = some info → info.layout = layout)
    (hshort : (table.lookup type.name).map (·.layout) = some layout) :
    ∀ found ∈ consulted table type, found.map (·.layout) = some layout := by
  have hinfo : (typeInfo table type.irType).map (·.layout) = some layout := by
    refine or_layout (fun info hlookup => ?_) hname
    split_ifs at hlookup with hempty
    exact hmodule hempty info hlookup
  have hfor : (typeInfoFor table type.irType).map (·.layout) = some layout := by
    obtain ⟨info,hlookup,hlayout⟩ := map_eq_some_iff.mp hname
    rw [typeInfoFor, SemType.irType, hlookup, Option.some_or, map_some, hlayout]
  simp only [consulted, forall_mem_cons]
  exact ⟨hinfo,hfor,hname,or_layout hkey hshort,hshort,fun _ h => absurd h not_mem_nil⟩

theorem Separate.of_agree (hs : Kept types s) (h : ShortNamesAgree types s) : Separate types s := by
  refine ⟨fun entry hentry hvalues => ?_,by simpa only [hs.lookup] using h.cases,
    fun entry hentry => ?_⟩
  · have hshort : (s.types.lookup (types entry.1).name).map (·.layout) = some entry.2.layout := by
      obtain ⟨last,hlast,hlayout⟩ := map_eq_some_iff.mp (h.named entry hentry hvalues)
      rw [hs.lookup_short, hlast]
      exact congrArg some hlayout
    by_cases hargs : (types entry.1).typeArgs = []
    · -- without arguments the key is the qualified name, or the name if it has no module
      have hname : (types entry.1).irTypeName = (types entry.1).name := if_pos hargs
      have hkey : (types entry.1).typeInfoKey = (types entry.1).qualifiedName := by
        rw [SemType.typeInfoKey, if_neg hvalues.2.1, SemType.key, if_pos hargs]
      obtain ⟨hmodule,hqualified⟩|⟨hmodule,hqualified⟩ := qualifiedName_eq (types entry.1)
      · refine consulted_layout (fun hempty info hlookup => ?_) (hname ▸ hshort)
          (fun info hlookup => ?_) hshort
        · have hbuiltin := hmodule.resolve_left hempty
          rw [hname, hs.lookup_builtin hbuiltin] at hlookup
          cases hlookup
        · rw [hkey, hqualified] at hlookup
          rw [hlookup] at hshort
          exact some_inj.mp hshort
      · have hown := hs.lookup_qualified hentry hargs hvalues.2.1 hmodule
        refine consulted_layout (fun _ info hlookup => ?_) (hname ▸ hshort)
          (fun info hlookup => ?_) hshort
        · rw [hname, hown] at hlookup
          exact some_inj.mp hlookup ▸ rfl
        · rw [hkey, hqualified, hown] at hlookup
          exact some_inj.mp hlookup ▸ rfl
    · have hinstance : ∀ name ∈ (types entry.1).written, ∀ info,
          s.types.lookup name = some info → info.layout = entry.2.layout := by
        intro name hname info hlookup
        obtain ⟨last,-,hlast,-,hlast'⟩ := hs.lookup_written hentry hname
        have hlayout := h.instances entry hentry hvalues hargs name hname
        rw [hlast, map_some, some_inj] at hlayout
        rw [hlast', some_inj] at hlookup
        rw [← hlookup, hlayout]
      have hwritten : (types entry.1).irTypeName ∈ (types entry.1).written := by
        rw [SemType.written, if_neg hargs]
        simp
      refine consulted_layout (fun hempty => hinstance _ ?_) ?_
        (hinstance _ (typeInfoKey_mem_written _)) hshort
      · rw [SemType.written, if_neg hargs, if_neg hempty]
        simp
      · obtain ⟨last,-,-,-,hlookup⟩ := hs.lookup_written hentry hwritten
        rw [hlookup, map_some, hinstance _ hwritten _ hlookup]
  · obtain ⟨hdot,hbracket,hlookup,-⟩ := primitive_names entry hentry
    have hlast : lastWritten types s entry.1 = none := by
      rw [lastWritten, find?_eq_none]
      intro last hlast hname
      obtain ⟨hargs,hname⟩ := (mem_written_short hdot hbracket).mp (by simpa using hname)
      have hnone := h.primitives last hlast hargs
      rw [hname, hlookup] at hnone
      cases hnone
    rw [hs.lookup, hlast, hlookup]
    rfl

end

inductive SampleType where
  | u64 | point | leftBox | rightBox
  deriving DecidableEq

/-- Records `Box` of the modules `left` and `right`; only the first has a count. -/
def sampleTypes : SampleType → SemType SampleType
  | .u64 => ⟨"builtin","U64",.primitive,0,[],[],[],by decide,by decide,by decide⟩
  | .point => ⟨"app","Point",.data,0,[],[("x", .u64)],[],by decide,by decide,by decide⟩
  | .leftBox => ⟨"left","Box",.data,0,[],[("count", .u64), ("point", .point)],[],by decide,
      by decide,by decide⟩
  | .rightBox => ⟨"right","Box",.data,0,[],[("point", .point)],[],by decide,by decide,by decide⟩

def sampleLaying : Laying SampleType :=
  layOut sampleTypes (fun _ => ⟨"U64","builtin",.primitive⟩) 3 [.u64, .point, .leftBox, .rightBox]

def fieldOffset (info : Option TypeInfo) (field : String) : Option ℕ :=
  (info.bind fun info => info.layout.fields.lookup field).map (·.offset)

end Wrela.TypeTable

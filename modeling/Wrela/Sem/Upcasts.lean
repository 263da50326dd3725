import Wrela.Sem.Storage

/-!
# Upcasts of durable events

An upcast takes a stored payload of one layout of an event to another one. The checker
looks up both layouts, but of a mapping only the field it assigns.
-/

set_option autoImplicit false

namespace Wrela.Sem.Upcasts
open List

structure LayoutUpcastMapping where
  fromField : String
  toField : String

structure LayoutUpcastDecl where
  fromID : String
  toID : String
  mappings : List LayoutUpcastMapping

structure UpcastEventDecl extends EventDecl where
  upcasts : List LayoutUpcastDecl

def layoutFields (seen : List UInt64) : List EventLayoutDecl → List (UInt64 × List String)
  | [] => []
  | layout::layouts =>
    let id := (parseUint layout.id).getD 0
    if id = 0 ∨ id ∈ seen then layoutFields seen layouts
    else (id, layout.fields.map (·.name))::layoutFields (id::seen) layouts

def endpoint (decl : EventDecl) (id : String) : Option (List String) :=
  (parseUint id).bind fun id => (layoutFields [] decl.layouts).lookup id

def checkUpcast (decl : EventDecl) (upcast : LayoutUpcastDecl) : List Diagnostic :=
  match endpoint decl upcast.fromID, endpoint decl upcast.toID with
  | some _, some targetFields => upcast.mappings.flatMap fun mapping =>
    if mapping.toField ∈ targetFields then []
    else [⟨.SEM0105,"missing event upcast field mapping"⟩]
  | _, _ => [⟨.SEM0104,"invalid event upcast endpoint"⟩]

def checkEventUpcasts (decl : UpcastEventDecl) : List Diagnostic :=
  decl.upcasts.flatMap (checkUpcast decl.toEventDecl)

/-- No error of the event, in whatever module and after whatever other events. -/
def Accepted (storage : StorageIndex) (moduleName : String) (decl : UpcastEventDecl) : Prop :=
  (recordStorageEvent storage moduleName decl.toEventDecl).2 = [] ∧ checkEventUpcasts decl = []

/-- The value an upcast gives to a field of the target layout, if one mapping
assigns the field and its source is stored. -/
def upcastField {V : Type} (mappings : List LayoutUpcastMapping) (stored : String → Option V)
    (field : String) : Option V :=
  match mappings.filter (·.toField = field) with
  | [mapping] => stored mapping.fromField
  | _ => none

/-- What the upcast of stored payloads needs: one mapping for every target field,
stored fields as sources, and so a value for every target field. -/
structure Total (source target : List String) (mappings : List LayoutUpcastMapping) : Prop where
  one : ∀ field ∈ target, (mappings.filter (·.toField = field)).length = 1
  stored : ∀ mapping ∈ mappings, mapping.fromField ∈ source
  defined : ∀ (V : Type) (payload : String → Option V),
    (∀ field ∈ source, (payload field).isSome) →
      ∀ field ∈ target, (upcastField mappings payload field).isSome

/-- The mappings assign different fields, as many as the target layout has, each from the
field of the same name, and the source layout has these names. -/
structure Carried (source target : List String) (mappings : List LayoutUpcastMapping) : Prop where
  distinct : (mappings.map (·.toField)).Nodup
  count : mappings.length = target.dedup.length
  kept : ∀ mapping ∈ mappings, mapping.fromField = mapping.toField
  declared : target ⊆ source

section
variable {source target : List String} {mappings : List LayoutUpcastMapping}

theorem length_filter_toField (field : String) :
    (mappings.filter (·.toField = field)).length = (mappings.map (·.toField)).count field := by
  rw [count_eq_countP, countP_map, countP_eq_length_filter]
  rfl

theorem Total.of_one (hone : ∀ field ∈ target, (mappings.filter (·.toField = field)).length = 1)
    (hstored : ∀ mapping ∈ mappings, mapping.fromField ∈ source) :
    Total source target mappings := by
  refine ⟨hone,hstored,fun V payload hpayload field hfield => ?_⟩
  obtain ⟨mapping,hmapping⟩ := length_eq_one_iff.mp (hone field hfield)
  have hmem : mapping ∈ mappings.filter (·.toField = field) := hmapping ▸ mem_singleton_self mapping
  rw [upcastField, hmapping]
  exact hpayload _ (hstored mapping (mem_of_mem_filter hmem))

/-- Different fields of the target layout that are as many as it has are all of them. -/
theorem Carried.total (h : Carried source target mappings)
    (hto : ∀ mapping ∈ mappings, mapping.toField ∈ target) : Total source target mappings := by
  have hsub : mappings.map (·.toField) ⊆ target.dedup := by
    intro field hfield
    obtain ⟨mapping,hmapping,rfl⟩ := mem_map.mp hfield
    exact mem_dedup.mpr (hto mapping hmapping)
  have hperm : mappings.map (·.toField) ~ target.dedup := by
    refine (h.distinct.subperm hsub).perm_of_length_le ?_
    rw [length_map, h.count]
  refine .of_one (fun field hfield => ?_) fun mapping hmapping => ?_
  · rw [length_filter_toField, hperm.count_eq,
      count_eq_one_of_mem target.nodup_dedup (mem_dedup.mpr hfield)]
  · rw [h.kept mapping hmapping]
    exact h.declared (hto mapping hmapping)

end

/-- An upcast without errors has two layouts and assigns fields of the second. -/
theorem endpoints_of_accepted {decl : EventDecl} {upcast : LayoutUpcastDecl}
    (h : checkUpcast decl upcast = []) :
    ∃ source target, endpoint decl upcast.fromID = some source ∧
      endpoint decl upcast.toID = some target ∧
      ∀ mapping ∈ upcast.mappings, mapping.toField ∈ target := by
  rw [checkUpcast] at h
  split at h
  case h_1 source target hsource htarget =>
    refine ⟨source,target,hsource,htarget,fun mapping hmapping => ?_⟩
    by_contra hno
    have hnil := flatMap_eq_nil_iff.mp h mapping hmapping
    rw [if_neg hno] at hnil
    cases hnil
  case h_2 => cases h

/-- Both layouts of the upcast exist, and `P` holds of their fields and the mappings. -/
def Between (P : List String → List String → List LayoutUpcastMapping → Prop) (decl : EventDecl)
    (upcast : LayoutUpcastDecl) : Prop :=
  ∃ source target, endpoint decl upcast.fromID = some source ∧
    endpoint decl upcast.toID = some target ∧ P source target upcast.mappings

/-- Layout 1 has three fields, layout 2 two of them. -/
def narrowed (mappings : List LayoutUpcastMapping) : UpcastEventDecl where
  name := "Narrowed"
  id := "1"
  layouts := [⟨"1",false,[⟨"old",some (.prim .u64),[],false⟩, ⟨"name",some (.prim .u64),[],false⟩,
      ⟨"size",some (.prim .u32),[],false⟩]⟩,
    ⟨"2",true,[⟨"size",some (.prim .u32),[],false⟩, ⟨"name",some (.prim .u64),[],false⟩]⟩]
  upcasts := [⟨"1","2",mappings⟩]

end Wrela.Sem.Upcasts

import Mathlib.Data.Fintype.Fin
import Wrela.KeyedSearch

/-!
# Delegated-only types

Values of some platform types must not leave the delegated phase, nor values that
hold one of them. The checker searches the fields of a type, and their fields, for
such a type. It marks what it has met by module and name, and it does not look into
the payloads of enums.
-/

set_option autoImplicit false

namespace Wrela.Sem.Delegated
open KeyedSearch List Option

/-! ### Types in memory -/

structure Field (ι : Type) where
  name : String
  type : Option ι

structure EnumVariant (ι : Type) where
  name : String
  fields : List (Field ι)

/-- A type of the program; other types are named by their places `ι` in memory. The
instances of a generic type have its module and name and differ in their fields. -/
structure SemType (ι : Type) where
  moduleName : String
  name : String
  fields : List (Field ι)
  enumVariants : List (EnumVariant ι)

abbrev TypeGraph (ι : Type) := ι → SemType ι

def explicitDelegatedOnly : List String :=
  ["DelegatedHardware", "UefiBootServices", "DelegatedMemory", "DelegatedBytes",
    "DelegatedMutableBytes", "UefiMemoryMap", "UefiMemoryMapResult"]

def Field.types {ι : Type} (fields : List (Field ι)) : List ι := fields.filterMap (·.type)

section
variable {ι : Type} (types : TypeGraph ι)

def key (t : ι) : String := (types t).moduleName++"."++(types t).name

def explicit (t : ι) : Bool := explicitDelegatedOnly.contains (types t).name

def fieldTypes (t : ι) : List ι := Field.types (types t).fields

/-- The search from a type, with the types met before; a missing type has nothing
in it. The depth of the recursion is bounded by `fuel`. -/
def isDelegatedOnly (fuel : ℕ) : Option ι → List ι → Option (Bool × List ι)
  | none, seen => some (false, seen)
  | some t, seen => visit (fieldTypes types) (key types) (explicit types) fuel t seen

end

/-! ### What a value can hold -/

section
variable {ι : Type} (types : TypeGraph ι)

def partTypes (t : ι) : List ι :=
  fieldTypes types t++(types t).enumVariants.flatMap fun v => Field.types v.fields

def Contains (t : ι) : Prop := ∃ u, Reach (partTypes types) t u ∧ explicit types u

/-- No two types that are reached through fields of records have one module and name: no
two instances of one generic type. -/
def SingleInstances (t : ι) : Prop :=
  ∀ u v, Reach (fieldTypes types) t u → Reach (fieldTypes types) t v → key types u = key types v →
    u = v

/-- A delegated-only type that a value can hold stands in fields of records, not only in
payloads of enums. -/
def InFields (t : ι) : Prop :=
  Contains types t → ∃ u, Reach (fieldTypes types) t u ∧ explicit types u

structure Reordered (types types' : TypeGraph ι) : Prop where
  moduleName : ∀ t, (types' t).moduleName = (types t).moduleName
  name : ∀ t, (types' t).name = (types t).name
  fields : ∀ t, (types' t).fields.Perm (types t).fields
  enumVariants : ∀ t, List.Forall₂ (fun v v' => v'.fields.Perm v.fields)
    (types t).enumVariants (types' t).enumVariants

variable {types} {types' : TypeGraph ι}

theorem Reordered.refl (types : TypeGraph ι) : Reordered types types :=
  ⟨fun _ => rfl,fun _ => rfl,fun _ => .refl _,fun _ => forall₂_same.mpr fun _ _ => .refl _⟩

theorem Reordered.explicit_eq (h : Reordered types types') (t : ι) :
    explicit types' t = explicit types t := by
  rw [explicit, explicit, h.name]

theorem Reordered.key_eq (h : Reordered types types') (t : ι) : key types' t = key types t := by
  rw [key, key, h.moduleName, h.name]

theorem Reordered.mem_fieldTypes (h : Reordered types types') {t u : ι} :
    u ∈ fieldTypes types' t ↔ u ∈ fieldTypes types t :=
  ((h.fields t).filterMap _).mem_iff

theorem Reordered.reach_fieldTypes (h : Reordered types types') {t u : ι} :
    Reach (fieldTypes types') t u ↔ Reach (fieldTypes types) t u := by
  simp [Reach, h.mem_fieldTypes]

theorem Reordered.singleInstances (h : Reordered types types') {t : ι}
    (ht : SingleInstances types t) : SingleInstances types' t := by
  simpa only [SingleInstances, h.reach_fieldTypes, h.key_eq] using ht

end

/-! ### The search -/

section
variable {ι : Type} {types : TypeGraph ι}

theorem contains_of_inFields {t : ι} (h : ∃ u, Reach (fieldTypes types) t u ∧ explicit types u) :
    Contains types t := by
  obtain ⟨u,hr,hu⟩ := h
  exact ⟨u,Relation.ReflTransGen.mono (fun _ _ hc => mem_append_left _ hc) t u hr,hu⟩

variable [Fintype ι]

def Answers (types : TypeGraph ι) (t : ι) (b : Bool) : Prop :=
  ∀ fuel > Fintype.card ι, (isDelegatedOnly types fuel (some t) []).map (·.1) = some b

theorem answers_of_visit {t : ι} {r : Bool × List ι}
    (h : isDelegatedOnly types (Fintype.card ι+1) (some t) [] = some r) : Answers types t r.1 := by
  intro fuel hfuel
  rw [isDelegatedOnly] at h ⊢
  rw [visit_mono hfuel h, map_some]

theorem Answers.unique {t : ι} {b b' : Bool} (h : Answers types t b) (h' : Answers types t b') :
    b = b' :=
  Option.some.inj ((h _ (Nat.lt_succ_self _)).symm.trans (h' _ (Nat.lt_succ_self _)))

/-- With single instances the answer is whether a delegated-only type is reached through
fields of records. -/
theorem answers_of_single {t : ι} (hsingle : SingleInstances types t) :
    ∃ b, Answers types t b ∧ (b ↔ ∃ u, Reach (fieldTypes types) t u ∧ explicit types u) := by
  have htotal : ∃ r, visit (fieldTypes types) (key types) (explicit types) (Fintype.card ι+1) t [] =
      some r ∧ [] ⊆ r.2 := by
    refine visit_total (Finset.univ.image (key types))
      (fun u => Finset.mem_image_of_mem _ (Finset.mem_univ u)) _ t [] ?_
    simpa using Nat.lt_succ_of_le (Finset.card_image_le (s := Finset.univ) (f := key types))
  obtain ⟨r,hr,-⟩ := htotal
  exact ⟨r.1,answers_of_visit hr,visit_found_iff hsingle hr⟩

end

/-- A chain of `Node`s, each with a `Box<DelegatedMemory>` and a `Choice` that holds one. -/
def chainTypes : TypeGraph (Fin 4)
  | 0 => ⟨"app","Node",[⟨"next",some 0⟩, ⟨"state",some 3⟩, ⟨"box",some 1⟩],[]⟩
  | 1 => ⟨"app","Box",[⟨"value",some 2⟩],[]⟩
  | 2 => ⟨"platform.uefi","DelegatedMemory",[],[]⟩
  | 3 => ⟨"app","Choice",[],[⟨"none",[]⟩, ⟨"some",[⟨"memory",some 2⟩]⟩]⟩

/-- `Holder` has the fields given; `Box` has two instances, of `U64` and of
`DelegatedMemory`; `Choice` is an enum with a payload of type `DelegatedMemory`. -/
def sampleTypes (fields : List (Field (Fin 6))) : TypeGraph (Fin 6)
  | 0 => ⟨"app","Holder",fields,[]⟩
  | 1 => ⟨"app","Box",[⟨"value",some 3⟩],[]⟩
  | 2 => ⟨"app","Box",[⟨"value",some 4⟩],[]⟩
  | 3 => ⟨"builtin","U64",[],[]⟩
  | 4 => ⟨"platform.uefi","DelegatedMemory",[],[]⟩
  | 5 => ⟨"app","Choice",[],[⟨"some",[⟨"memory",some 4⟩]⟩]⟩

def numberFirst : TypeGraph (Fin 6) := sampleTypes [⟨"number",some 1⟩, ⟨"memory",some 2⟩]

def memoryFirst : TypeGraph (Fin 6) := sampleTypes [⟨"memory",some 2⟩, ⟨"number",some 1⟩]

end Wrela.Sem.Delegated

import Wrela.Sem.Impls

/-!
# Methods of generic types

An instance of a generic type has the methods of its origin with the type arguments
substituted by name.
-/

set_option autoImplicit false

namespace Wrela.Sem.Generics
open Unification Impls List

abbrev Substitution := String → Option Ty

def substitutionFor : List String → List Ty → Substitution
  | param::params, arg::args => fun x =>
    (substitutionFor params args x).or (if x = param then some arg else none)
  | _, _ => fun _ => none

variable (subst : Substitution)

def image (x : String) : Ty := (subst x).getD (.var x)

/-- Instances with the same key are one type, so a type none of whose arguments change
is the type that its origin with these arguments gives. -/
def substituteType (t : Ty) : Ty := t.subst (image subst)

structure TraitBound where
  param : String
  trait : Option Ty

/-- A signature. Types that could not be resolved are `none`, as is that of `self`. -/
structure Method where
  name : String
  typeParams : List String
  bounds : List TraitBound
  params : List (String × Option Ty)
  result : Option Ty

def substituteBounds (bounds : List TraitBound) : List TraitBound :=
  bounds.map fun b => ⟨b.param,b.trait.map (substituteType subst)⟩

def substituteMethod (m : Method) : Method where
  name := m.name
  typeParams := m.typeParams
  bounds := substituteBounds subst m.bounds
  params := m.params.map fun p => (p.1,p.2.map (substituteType subst))
  result := m.result.map (substituteType subst)

def substituteMethods (methods : List Method) : List Method :=
  methods.map (substituteMethod subst)

def Method.types (m : Method) : List Ty :=
  m.bounds.filterMap (·.trait)++m.params.filterMap (·.2)++m.result.toList

theorem types_substituteMethod (m : Method) :
    (substituteMethod subst m).types = m.types.map (substituteType subst) := by
  simp [Method.types, substituteMethod, substituteBounds, filterMap_map, map_filterMap]
  cases m.result <;> rfl

/-! ### Scopes -/

/-- The parameters of a method are told from those around it. -/
abbrev Param := String ⊕ String

variable (own : List String)

def resolve (x : String) : Param := if x ∈ own then .inl x else .inr x

def inScope (t : Ty) : Term TypeName Param := t.subst (.var ∘ resolve own)

/-- The parameters of the type replaced where they are in scope; the arguments come from
outside of the method. -/
def instantiate (t : Term TypeName Param) : Term TypeName Param :=
  t.subst fun
    | .inl x => .var (.inl x)
    | .inr x => (image subst x).subst (.var ∘ .inr)

theorem subst_eq_iff {η ν μ : Type} {σ τ : ν → Term η μ} (t : Term η ν) :
    t.subst σ = t.subst τ ↔ ∀ x ∈ t.vars, σ x = τ x := by
  refine ⟨fun h => ?_,subst_congr t⟩
  induction t using Term.induction with
  | var x =>
    intro y hy
    rwa [mem_singleton.mp hy]
  | app head args ih =>
    intro x hx
    obtain ⟨a,ha,hx⟩ := mem_varsOf.mp hx
    rw [subst_app, subst_app, Term.app.injEq] at h
    exact ih a ha (map_inj_left.mp h.2 a ha) x hx

/-- A parameter keeps its meaning: one of the method's own stays, and what replaces
another has no name that the method declares. -/
def Hygienic (x : String) : Prop :=
  if x ∈ own then image subst x = .var x else ∀ y ∈ (image subst x).vars, y ∉ own

theorem inScope_image_iff (x : String) :
    inScope own (image subst x) = instantiate subst (.var (resolve own x)) ↔
      Hygienic subst own x := by
  unfold Hygienic inScope instantiate resolve
  split_ifs with hx
  · cases image subst x with
    | var y =>
      by_cases hy : y ∈ own
      · simp [hy]
      · simp [hy]
        exact fun h => hy (h ▸ hx)
    | app head args => simp [subst_app]
  · rw [subst_var, subst_eq_iff]
    refine forall₂_congr fun y _ => ?_
    simp

theorem inScope_substituteType_iff (t : Ty) :
    inScope own (substituteType subst t) = instantiate subst (inScope own t) ↔
      ∀ x ∈ t.vars, Hygienic subst own x := by
  have h1 : inScope own (substituteType subst t) = t.subst fun x => inScope own (image subst x) :=
    subst_subst _ _ t
  have h2 : instantiate subst (inScope own t) =
      t.subst fun x => instantiate subst (.var (resolve own x)) := subst_subst _ _ t
  rw [h1, h2, subst_eq_iff]
  exact forall₂_congr fun x _ => inScope_image_iff subst own x

def Substitution.andThen (first second : Substitution) : Substitution := fun x =>
  match first x with
  | some t => some (substituteType second t)
  | none => second x

/-- Instantiation gives every method of the type its signature at the arguments, and two
substitutions are one, exactly when every parameter in the signatures is hygienic. -/
theorem instantiation_hygienic_iff (typeParams : List String) (args : List Ty)
    (methods : List Method) :
    ((substituteMethods (substitutionFor typeParams args) methods).map
        (fun m => m.types.map (inScope m.typeParams)) =
      methods.map (fun m => (m.types.map (inScope m.typeParams)).map
        (instantiate (substitutionFor typeParams args))) ∧
      ∀ (first second : Substitution) (t : Ty),
        substituteType second (substituteType first t) =
          substituteType (first.andThen second) t) ↔
    ∀ m ∈ methods, ∀ t ∈ m.types, ∀ x ∈ t.vars,
      Hygienic (substitutionFor typeParams args) m.typeParams x := by
  rw [and_iff_left fun first second t => ?_]
  · rw [substituteMethods, map_map, map_inj_left]
    refine forall₂_congr fun m _ => ?_
    rw [Function.comp_apply, types_substituteMethod, map_map, map_map, map_inj_left]
    exact forall₂_congr fun t _ => inScope_substituteType_iff _ m.typeParams t
  · refine (subst_subst _ _ t).trans (subst_congr t fun x _ => ?_)
    unfold image Substitution.andThen
    cases first x with
    | none => rfl
    | some u => rfl

theorem shadowed_parameter_replaced :
    (substituteMethods (substitutionFor ["T"] [.app ⟨"builtin","U64"⟩ []])
      [⟨"map",["T"],[],[("x",some (.var "T"))],none⟩]).map (·.types) =
      [[.app ⟨"builtin","U64"⟩ []]] ∧
    instantiate (substitutionFor ["T"] [.app ⟨"builtin","U64"⟩ []]) (inScope ["T"] (.var "T")) =
      .var (.inl "T") := by decide

end Wrela.Sem.Generics

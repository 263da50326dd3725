import Wrela.Diag
import Wrela.Unification

/-!
# Impl declarations

An impl gives the methods of a trait for a type; both may have type parameters,
the unknown names that begin with a capital letter. The index collects the impls of
a program and reports one that overlaps an earlier one. It compares two impls by
matching each of them as a pattern against the other.
-/

set_option autoImplicit false

namespace Wrela.Sem.Impls
open Unification List Option

inductive TypeRef where
  | mk (name : String) (args : List TypeRef)

structure TypeName where
  moduleName : String
  name : String
  deriving DecidableEq

/-- Types are the same when their keys are: the qualified name with the arguments.
A type parameter is a variable. -/
abbrev Ty := Term TypeName String

structure TypeDecl where
  moduleName : String
  name : String
  isTrait : Bool
  typeParams : ℕ

/-- What the names in a module stand for; `resolve` also knows names with a module
in front. -/
structure Scope where
  lookup : String → Option TypeDecl
  resolve : String → Option TypeDecl

def Scope.lookupBaseType (scope : Scope) (name : String) : Option TypeDecl :=
  (scope.lookup name).or (scope.resolve name)

section
variable (scope : Scope)

def startsUpper (name : String) : Bool :=
  match name.toList with
  | [] => false
  | c::_ => 'A' ≤ c && c ≤ 'Z'

mutual

def freeNames : TypeRef → List String
  | .mk name args =>
    if args.isEmpty && startsUpper name then
      if (scope.lookup name).isSome then [] else [name]
    else freeNamesOf args

def freeNamesOf : List TypeRef → List String
  | [] => []
  | ref::refs => freeNames ref++freeNamesOf refs

end

def freeImplTypeParams (refs : List TypeRef) : List String :=
  (freeNamesOf scope refs).eraseDups.mergeSort

variable (params : List String)

mutual

/-- The type of a reference; an unknown name outside of type arguments has none. -/
def lookupTypeRef (inTypeArg allowTrait : Bool) : TypeRef → Except Diagnostic (Option Ty)
  | .mk name args =>
    if name ∈ params then
      if args.isEmpty then .ok (some (.var name))
      else .error ⟨.SEM0077,"type parameter "++name++" does not take type arguments"⟩
    else
      match scope.lookupBaseType name with
      | none => if inTypeArg then .error ⟨.SEM0078,"unknown type "++name⟩ else .ok none
      | some base =>
        if base.isTrait && !allowTrait then
          .error ⟨.SEM0097,
            "trait "++name++" is compile-time-only and cannot be used as a value type"⟩
        else if base.typeParams ≠ args.length then
          .error ⟨.SEM0077,base.name++" expects "++toString base.typeParams++" type arguments"⟩
        else do
          let types ← lookupTypeArgs args
          return some (.app ⟨base.moduleName,base.name⟩ types)

def lookupTypeArgs : List TypeRef → Except Diagnostic (List Ty)
  | [] => .ok []
  | ref::refs => do
    let type ← lookupTypeRef true false ref
    let types ← lookupTypeArgs refs
    return type.toList++types

end

end

/-! ### Matching -/

structure Impl where
  trait : Ty
  forType : Ty
  typeParams : List String
  deriving DecidableEq

abbrev Bindings := List (String × Ty)

section
variable (typeParams : List String)

mutual

def matchImplPattern : Ty → Ty → Bindings → Option Bindings
  | .var x, concrete, bound =>
    if x ∈ typeParams then
      match bound.lookup x with
      | some existing => if existing = concrete then some bound else none
      | none => some ((x, concrete)::bound)
    else if concrete = .var x then some bound else none
  | .app head args, .app head' args', bound =>
    if head = head' ∧ args.length = args'.length then matchImplPatterns args args' bound else none
  | .app _ _, .var _, _ => none

def matchImplPatterns : List Ty → List Ty → Bindings → Option Bindings
  | pattern::patterns, concrete::concretes, bound =>
    (matchImplPattern pattern concrete bound).bind (matchImplPatterns patterns concretes)
  | _, _, bound => some bound

end

end

def Impl.matches (impl : Impl) (trait forType : Ty) : Bool :=
  ((matchImplPattern impl.typeParams impl.trait trait []).bind
    (matchImplPattern impl.typeParams impl.forType forType)).isSome

def implsOverlap (left right : Impl) : Bool :=
  left.matches right.trait right.forType || right.matches left.trait left.forType

/-! ### Collecting the impls -/

structure ImplDecl where
  trait : TypeRef
  forType : TypeRef

/-- The errors of a declaration's references and, if both are known, its impl. -/
def resolveImpl (scope : Scope) (decl : ImplDecl) : List Diagnostic × Option Impl :=
  let paramNames := freeImplTypeParams scope [decl.trait, decl.forType]
  match lookupTypeRef scope paramNames false true decl.trait,
      lookupTypeRef scope paramNames false false decl.forType with
  | .ok (some trait), .ok (some forType) => ([], some ⟨trait,forType,paramNames⟩)
  | .ok _, .ok _ => ([], none)
  | .error e, .ok _ => ([e], none)
  | .ok _, .error e => ([e], none)
  | .error e, .error e' => ([e, e'], none)

def processImpl (state : List Impl × List Diagnostic) (scope : Scope) (decl : ImplDecl) :
    List Impl × List Diagnostic :=
  match resolveImpl scope decl with
  | (errors, none) => (state.1, state.2++errors)
  | (errors, some impl) =>
    (state.1++[impl], state.2++errors++
      if state.1.any (implsOverlap · impl) then [⟨.SEM0083,"overlapping impl"⟩] else [])

/-- The impls of a program in the order of their declarations, each with the scope
of its module, and what is reported about them. -/
def buildImpls (decls : List (Scope × ImplDecl)) : List Impl × List Diagnostic :=
  decls.foldl (fun state decl => processImpl state decl.1 decl.2) ([], [])

/-! ### The type parameters of an impl -/

variable {impl : Impl} {μ : Type}

section
variable {scope : Scope} {params : List String}

mutual

theorem lookupTypeRef_vars (ref : TypeRef) {inTypeArg allowTrait : Bool} {t : Ty}
    (h : lookupTypeRef scope params inTypeArg allowTrait ref = .ok (some t)) :
    ∀ x ∈ t.vars, x ∈ params := by
  obtain ⟨name,args⟩ := ref
  rw [lookupTypeRef] at h
  by_cases hname : name ∈ params
  · rw [if_pos hname] at h
    split_ifs at h
    cases h
    intro x hx
    rwa [mem_singleton.mp hx]
  · rw [if_neg hname] at h
    cases hbase : scope.lookupBaseType name with
    | none =>
      rw [hbase] at h
      dsimp only at h
      split_ifs at h
      cases h
    | some base =>
      rw [hbase] at h
      dsimp only at h
      split_ifs at h
      obtain ⟨types,htypes,h⟩ := bind_eq_ok h
      cases h
      exact lookupTypeArgs_vars args htypes

theorem lookupTypeArgs_vars (refs : List TypeRef) {ts : List Ty}
    (h : lookupTypeArgs scope params refs = .ok ts) : ∀ x ∈ varsOf ts, x ∈ params := by
  cases refs with
  | nil =>
    cases h
    intro x hx
    cases hx
  | cons ref refs =>
    rw [lookupTypeArgs] at h
    obtain ⟨type,htype,h⟩ := bind_eq_ok h
    obtain ⟨types,htypes,h⟩ := bind_eq_ok h
    cases h
    have hrest := lookupTypeArgs_vars refs htypes
    cases type with
    | none => exact hrest
    | some t =>
      intro x hx
      rcases mem_append.mp hx with hx | hx
      · exact lookupTypeRef_vars ref htype x hx
      · exact hrest x hx

end

def Impl.Closed (impl : Impl) : Prop :=
  (∀ x ∈ impl.trait.vars, x ∈ impl.typeParams) ∧ ∀ x ∈ impl.forType.vars, x ∈ impl.typeParams

theorem resolveImpl_closed {decl : ImplDecl} {errors : List Diagnostic}
    (h : resolveImpl scope decl = (errors, some impl)) : impl.Closed := by
  rw [resolveImpl] at h
  split at h
  · rename_i trait forType htrait hfor
    cases h
    exact ⟨lookupTypeRef_vars decl.trait htrait,lookupTypeRef_vars decl.forType hfor⟩
  all_goals cases h

end

/-! ### What is accepted -/

structure Accepted (state : List Impl × List Diagnostic) : Prop where
  closed : ∀ impl ∈ state.1, impl.Closed
  apart : (∀ d ∈ state.2, d.code ≠ .SEM0083) →
    state.1.Pairwise fun left right => implsOverlap left right = false

theorem processImpl_accepted {state : List Impl × List Diagnostic} (h : Accepted state)
    (scope : Scope) (decl : ImplDecl) : Accepted (processImpl state scope decl) := by
  rw [processImpl]
  split
  · refine ⟨h.closed,fun hd => h.apart fun d hm => hd d (mem_append_left _ hm)⟩
  · rename_i errors impl hresolve
    refine ⟨fun i hi => ?_,fun hd => ?_⟩
    · rcases mem_append.mp hi with hi | hi
      · exact h.closed i hi
      · rw [mem_singleton.mp hi]
        exact resolveImpl_closed hresolve
    · have hbefore := h.apart fun d hm =>
        hd d (mem_append_left _ (mem_append_left _ hm))
      have hany : state.1.any (implsOverlap · impl) = false := by
        by_contra hany
        rw [Bool.not_eq_false] at hany
        refine hd ⟨.SEM0083,"overlapping impl"⟩ (mem_append_right _ ?_) rfl
        rw [if_pos hany]
        exact mem_singleton_self _
      rw [pairwise_append]
      refine ⟨hbefore,pairwise_singleton _ _,fun left hleft right hright => ?_⟩
      rw [mem_singleton.mp hright]
      exact Bool.eq_false_iff.mpr fun ho => (List.any_eq_false.mp hany) left hleft ho

theorem buildImpls_accepted (decls : List (Scope × ImplDecl)) : Accepted (buildImpls decls) := by
  have hfold (state : List Impl × List Diagnostic) (h : Accepted state) :
      Accepted (decls.foldl (fun state decl => processImpl state decl.1 decl.2) state) := by
    induction decls generalizing state with
    | nil => exact h
    | cons decl decls ih => exact ih _ (processImpl_accepted h decl.1 decl.2)
  exact hfold ([], []) ⟨fun _ hi => absurd hi not_mem_nil,fun _ => .nil⟩

/-! ### Matching and instances -/

section
variable {typeParams : List String} {x : String}

def Agrees (σ : String → Ty) (bound : Bindings) : Prop :=
  ∀ x t, bound.lookup x = some t → σ x = t

theorem Agrees.cons_iff {σ : String → Ty} {bound : Bindings} {t : Ty}
    (hx : bound.lookup x = none) : Agrees σ ((x, t)::bound) ↔ σ x = t ∧ Agrees σ bound := by
  constructor
  · intro h
    refine ⟨h x t (by rw [lookup_cons, beq_self_eq_true]),fun y u hy => h y u ?_⟩
    have hne : (y == x) = false := beq_eq_false_iff_ne.mpr fun he => by
      rw [he, hx] at hy
      cases hy
    rw [lookup_cons, hne]
    exact hy
  · rintro ⟨hxt,h⟩ y u hy
    rw [lookup_cons] at hy
    cases he : y == x with
    | true =>
      rw [he] at hy
      rw [beq_iff_eq.mp he, hxt]
      exact Option.some.inj hy
    | false =>
      rw [he] at hy
      exact h y u hy

/-- The match succeeds for the bindings of a substitution exactly when the
substitution makes the pattern the type. -/
def MatchesExactly (run : Bindings → Option Bindings) (equal : (String → Ty) → Prop) : Prop :=
  ∀ bound, (∀ σ, Agrees σ bound → equal σ → (run bound).isSome) ∧
    ∀ bound', run bound = some bound' → ∀ σ, Agrees σ bound' ↔ Agrees σ bound ∧ equal σ

theorem MatchesExactly.bind {run run' : Bindings → Option Bindings}
    {equal equal' : (String → Ty) → Prop} (h : MatchesExactly run equal)
    (h' : MatchesExactly run' equal') :
    MatchesExactly (fun bound => (run bound).bind run') fun σ => equal σ ∧ equal' σ := by
  intro bound
  refine ⟨fun σ hσ he => ?_,fun bound' hrun σ => ?_⟩
  · obtain ⟨mid,hmid⟩ := isSome_iff_exists.mp ((h bound).1 σ hσ he.1)
    dsimp only
    rw [hmid, bind_some]
    exact (h' mid).1 σ (((h bound).2 mid hmid σ).mpr ⟨hσ,he.1⟩) he.2
  · obtain ⟨mid,hmid,hrun⟩ := bind_eq_some_iff.mp hrun
    rw [(h' mid).2 bound' hrun σ, (h bound).2 mid hmid σ, and_assoc]

theorem MatchesExactly.var (hx : x ∈ typeParams) (concrete : Ty) :
    MatchesExactly (matchImplPattern typeParams (.var x) concrete) fun σ => σ x = concrete := by
  intro bound
  rw [matchImplPattern, if_pos hx]
  cases hlookup : bound.lookup x with
  | none =>
    refine ⟨fun _ _ _ => rfl,fun bound' hrun σ => ?_⟩
    cases hrun
    rw [Agrees.cons_iff hlookup, and_comm]
  | some existing =>
    refine ⟨fun σ hσ he => ?_,fun bound' hrun σ => ?_⟩
    · have hexisting := hσ x existing hlookup
      simp only [if_pos (hexisting.symm.trans he), isSome_some]
    · dsimp only at hrun
      split_ifs at hrun with he
      cases hrun
      refine ⟨fun hσ => ⟨hσ,(hσ x existing hlookup).trans he⟩,And.left⟩

mutual

theorem matchImplPattern_exactly (pattern concrete : Ty) (hvars : ∀ x ∈ pattern.vars, x ∈ typeParams) :
    MatchesExactly (matchImplPattern typeParams pattern concrete)
      fun σ => pattern.subst σ = concrete := by
  match pattern, concrete with
  | .var x, concrete => exact .var (hvars x (mem_singleton_self x)) concrete
  | .app head args, .var y =>
    intro bound
    rw [matchImplPattern]
    refine ⟨fun σ _ he => ?_,fun _ hrun => by cases hrun⟩
    have he : (Term.app head args).subst σ = .var y := he
    rw [subst_app] at he
    cases he
  | .app head args, .app head' args' =>
    intro bound
    rw [matchImplPattern]
    split_ifs with hhead
    · obtain ⟨rfl,hlen⟩ := hhead
      have hargs := matchImplPatterns_exactly args args' hlen hvars bound
      simp only [subst_app, Term.app.injEq, true_and]
      exact hargs
    · refine ⟨fun σ _ he => ?_,fun _ hrun => by cases hrun⟩
      have he : (Term.app head args).subst σ = .app head' args' := he
      rw [subst_app, Term.app.injEq] at he
      refine absurd ⟨he.1,?_⟩ hhead
      rw [← he.2, length_map]

theorem matchImplPatterns_exactly (patterns concretes : List Ty)
    (hlen : patterns.length = concretes.length) (hvars : ∀ x ∈ varsOf patterns, x ∈ typeParams) :
    MatchesExactly (matchImplPatterns typeParams patterns concretes)
      fun σ => patterns.map (Term.subst σ) = concretes := by
  match patterns, concretes with
  | [], [] =>
    intro bound
    rw [matchImplPatterns]
    · refine ⟨fun _ _ _ => rfl,fun bound' hrun σ => ?_⟩
      cases hrun
      simp
    · simp
  | [], _::_ => cases hlen
  | _::_, [] => cases hlen
  | pattern::patterns, concrete::concretes =>
    have hfirst := matchImplPattern_exactly pattern concrete fun x hx =>
      hvars x (mem_append_left _ hx)
    have hrest := matchImplPatterns_exactly patterns concretes (Nat.succ.inj hlen) fun x hx =>
      hvars x (mem_append_right _ hx)
    intro bound
    rw [matchImplPatterns]
    simp only [map_cons, List.cons.injEq]
    exact hfirst.bind hrest bound

end

theorem matches_iff (hclosed : impl.Closed) (trait forType : Ty) :
    impl.matches trait forType ↔
      ∃ σ : String → Ty, impl.trait.subst σ = trait ∧ impl.forType.subst σ = forType := by
  have hboth := (matchImplPattern_exactly impl.trait trait hclosed.1).bind
    (matchImplPattern_exactly impl.forType forType hclosed.2) []
  constructor
  · intro h
    obtain ⟨bound,hbound⟩ := isSome_iff_exists.mp h
    -- any substitution with these bindings
    have hagrees : Agrees (fun x => (bound.lookup x).getD (.var x)) bound := by
      intro x t hx
      dsimp only
      rw [hx, getD_some]
    exact ⟨_,((hboth.2 bound hbound _).mp hagrees).2⟩
  · rintro ⟨σ,hσ⟩
    exact hboth.1 σ (fun x t hx => by cases hx) hσ

end

/-! ### Coherence -/

def Concrete (t : Ty) : Prop := t.vars = []

/-- No trait instance and type without type parameters is matched by two impls. -/
def Coherent (impls : List Impl) : Prop :=
  impls.Pairwise fun left right => ∀ trait forType, Concrete trait → Concrete forType →
    ¬ (left.matches trait forType ∧ right.matches trait forType)

def Impl.equations (left right : Impl) : Equations TypeName (String ⊕ String) :=
  [(left.trait.subst fun x => .var (.inl x), right.trait.subst fun x => .var (.inr x)),
    (left.forType.subst fun x => .var (.inl x), right.forType.subst fun x => .var (.inr x))]

theorem unifies_equations {left right : Impl} {ρ : String ⊕ String → Term TypeName μ} :
    Unifies ρ (left.equations right) ↔
      left.trait.subst (ρ ∘ .inl) = right.trait.subst (ρ ∘ .inr) ∧
        left.forType.subst (ρ ∘ .inl) = right.forType.subst (ρ ∘ .inr) := by
  rw [Impl.equations, unifies_cons, unifies_cons, subst_subst, subst_subst, subst_subst, subst_subst]
  exact and_congr_right fun _ => and_iff_left fun _ h => absurd h not_mem_nil

def ground {μ : Type} (_ : μ) : Ty := .app ⟨"builtin","U64"⟩ []

theorem concrete_ground (t : Term TypeName μ) : Concrete (t.subst ground) := by
  rw [Concrete, eq_nil_iff_forall_not_mem]
  intro y hy
  obtain ⟨x,-,hy⟩ := mem_vars_subst.mp hy
  cases hy

theorem common_instance_iff {left right : Impl} (hleft : left.Closed) (hright : right.Closed) :
    (∃ trait forType, Concrete trait ∧ Concrete forType ∧ left.matches trait forType ∧
      right.matches trait forType) ↔ unifiable (left.equations right) := by
  constructor
  · rintro ⟨trait,forType,-,-,hl,hr⟩
    obtain ⟨σ,hσtrait,hσfor⟩ := (matches_iff hleft trait forType).mp hl
    obtain ⟨τ,hτtrait,hτfor⟩ := (matches_iff hright trait forType).mp hr
    refine unifiable_of_unifies (σ := Sum.elim σ τ) (unifies_equations.mpr ?_)
    exact ⟨hσtrait.trans hτtrait.symm,hσfor.trans hτfor.symm⟩
  · intro h
    obtain ⟨ρ,hρ⟩ := exists_unifies h
    obtain ⟨htrait,hfor⟩ := unifies_equations.mp hρ
    refine ⟨(left.trait.subst (ρ ∘ .inl)).subst ground,(left.forType.subst (ρ ∘ .inl)).subst ground,
      concrete_ground _,concrete_ground _,?_,?_⟩
    · exact (matches_iff hleft _ _).mpr ⟨_,(subst_subst _ _ _).symm,(subst_subst _ _ _).symm⟩
    · rw [htrait, hfor]
      exact (matches_iff hright _ _).mpr ⟨_,(subst_subst _ _ _).symm,(subst_subst _ _ _).symm⟩

/-- The impls of a program for which no overlap is reported are coherent exactly when
two of them that unify also match one another. -/
theorem impl_coherence_iff (decls : List (Scope × ImplDecl))
    (h : ∀ d ∈ (buildImpls decls).2, d.code ≠ .SEM0083) :
    Coherent (buildImpls decls).1 ↔ (buildImpls decls).1.Pairwise fun left right =>
      unifiable (left.equations right) → implsOverlap left right := by
  have haccepted := buildImpls_accepted decls
  have hapart := haccepted.apart h
  have hpair : ∀ {left right}, left ∈ (buildImpls decls).1 → right ∈ (buildImpls decls).1 →
      ((∀ trait forType, Concrete trait → Concrete forType →
          ¬ (left.matches trait forType ∧ right.matches trait forType)) ∧
        implsOverlap left right = false ↔
      (unifiable (left.equations right) → implsOverlap left right) ∧
        implsOverlap left right = false) := by
    intro left right hl hr
    have hcommon := common_instance_iff (haccepted.closed left hl) (haccepted.closed right hr)
    refine and_congr_left fun hno => ?_
    rw [hno, ← hcommon]
    constructor
    · rintro hcoherent ⟨trait,forType,hc,hd,hboth⟩
      exact absurd hboth (hcoherent trait forType hc hd)
    · intro hun trait forType hc hd hboth
      exact absurd (hun ⟨trait,forType,hc,hd,hboth⟩) Bool.false_ne_true
  have hand := List.Pairwise.iff_of_mem hpair
  rw [pairwise_and_iff, pairwise_and_iff] at hand
  simp only [hapart, and_true] at hand
  exact hand

def sampleScope : Scope where
  lookup
    | "Pair" => some ⟨"app","Pair",true,2⟩
    | "U64" => some ⟨"builtin","U64",false,0⟩
    | "Left" => some ⟨"app","Left",false,0⟩
    | "Right" => some ⟨"app","Right",false,0⟩
    | _ => none
  resolve _ := none

def pairRef (first second : String) : TypeRef := .mk "Pair" [.mk first [], .mk second []]

def pairImpl (first second forType : String) : ImplDecl := ⟨pairRef first second,.mk forType []⟩

def u64 : Ty := .app ⟨"builtin","U64"⟩ []

def pairOf (first second : Ty) : Ty := .app ⟨"app","Pair"⟩ [first, second]

def forLeft : Ty := .app ⟨"app","Left"⟩ []

def firstFixed : Impl := ⟨pairOf u64 (.var "T"),forLeft,["T"]⟩

def secondFixed (forType : String) : Impl :=
  ⟨pairOf (.var "T") u64,.app ⟨"app",forType⟩ [],["T"]⟩

/-- `impl Pair<U64, T> for Left` and `impl Pair<T, U64> for Right` are coherent. -/
theorem impl_coherence_apart :
    let program := [(sampleScope, pairImpl "U64" "T" "Left"),
      (sampleScope, pairImpl "T" "U64" "Right")]
    (∀ e ∈ (buildImpls program).2, e.code ≠ .SEM0083) ∧ Coherent (buildImpls program).1 := by
  have hbuild : buildImpls [(sampleScope, pairImpl "U64" "T" "Left"),
      (sampleScope, pairImpl "T" "U64" "Right")] = ([firstFixed, secondFixed "Right"], []) := by
    decide +kernel
  have hreports : ∀ e ∈ (buildImpls [(sampleScope, pairImpl "U64" "T" "Left"),
      (sampleScope, pairImpl "T" "U64" "Right")]).2, e.code ≠ .SEM0083 := by
    simp [hbuild]
  refine ⟨hreports,(impl_coherence_iff _ hreports).mpr ?_⟩
  rw [hbuild, pairwise_pair]
  intro hun
  obtain ⟨ρ,hρ⟩ := exists_unifies hun
  have hfor := (unifies_equations.mp hρ).2
  simp [firstFixed, secondFixed, forLeft, subst_app] at hfor

/-- `impl Pair<U64, T> for Left` and `impl Pair<T, U64> for Left` are accepted, and
both match `Pair<U64, U64>` for `Left`. -/
theorem incomparable_impls_accepted :
    buildImpls [(sampleScope, pairImpl "U64" "T" "Left"),
      (sampleScope, pairImpl "T" "U64" "Left")] = ([firstFixed, secondFixed "Left"], []) ∧
    firstFixed.matches (pairOf u64 u64) forLeft ∧
    (secondFixed "Left").matches (pairOf u64 u64) forLeft :=
  ⟨by decide +kernel,by decide,by decide⟩

end Wrela.Sem.Impls

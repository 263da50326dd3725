import Mathlib.Data.List.Perm.Subperm
import Mathlib.Data.List.Nodup

/-!
# Methods return

The checker's analysis of which statement lists return on every path, the
registration of the methods whose bodies it analyses, and what an execution of a
body can do. Expressions come with the type the checker gives them.
-/

set_option autoImplicit false

namespace Wrela.MethodReturns
open List

structure EnumVariant where
  name : String
  fields : List String

/-- A type as far as return analysis and patterns look at it: `origin` has the name
and the qualified name of the generic type it is an instance of, `variants` those of
an enum. -/
structure StaticType where
  name : String
  display : String
  qualified : String
  origin : Option (String × String)
  variants : Option (List EnumVariant)

def isNeverType (t : Option StaticType) : Bool := t.any (·.name == "never")

structure Expr where
  type : Option StaticType
  literal : Option Bool

def Expr.never (e : Expr) : Bool := isNeverType e.type

def isTrueLiteral (e : Expr) : Bool := e.literal == some true

inductive Pattern where
  | wildcard
  | variant (enum variant : String) (bindings : List (String × String))

mutual
inductive Stmt where
  | letS (value : Expr)
  | assign (target value : Expr)
  | ifS (cond : Expr) (body : Block)
  | ifElse (cond : Expr) (body other : Block)
  | ifLet (value : Expr) (pattern : Pattern) (body : Block)
  | matchS (value : Expr) (arms : Arms)
  | whileS (cond : Expr) (body : Block)
  | forS (inExpr : Expr) (body : Block)
  | withS (frame : Expr) (body : Block)
  | returnS (value : Option Expr)
  | exprS (value : Expr)

inductive Block where
  | nil
  | cons (stmt : Stmt) (rest : Block)

inductive Arms where
  | nil
  | cons (pattern : Pattern) (body : Block) (rest : Arms)
end

/-! ### The checker -/

structure Checked where
  terminates : Bool
  reported : Bool

def sameEnumPatternName (t : StaticType) (pattern : String) : Bool :=
  t.name == pattern || (t.display.splitOn "<").head? == some pattern ||
    t.origin.any (·.1 == pattern) || t.qualified.endsWith ("." ++ pattern) ||
    t.origin.any (·.2.endsWith ("." ++ pattern))

/-- The bindings name each field of the variant once, by names of their own. -/
def bindPatternFieldsFailed (v : EnumVariant) (bindings : List (String × String)) : Bool :=
  let failed := bindings.foldl (fun (s : List String × List String × Bool) b =>
    if b.1 ∉ v.fields then (s.1, s.2.1, true)
    else
      let failed := s.2.2 || decide (b.1 ∈ s.1)
      if b.2 = "" ∨ b.2 = "_" then (s.1, s.2.1, true)
      else (b.1::s.1, b.2::s.2.1, failed || decide (b.2 ∈ s.2.1))) ([], [], false)
  failed.2.2 || v.fields.any (· ∉ failed.1)

/-- What a match has seen: the variants, a wildcard, whether all arms so far
terminate, and whether an error was reported. -/
structure Seen where
  variants : List String
  wildcard : Bool
  allArms : Bool
  reported : Bool

def Seen.reject (s : Seen) : Seen := {s with allArms := false, reported := true}

def Seen.arm (s : Seen) (body : Checked) : Seen :=
  {s with allArms := s.allArms && body.terminates, reported := s.reported || body.reported}

mutual
def checkStmt : Stmt → Checked
  | .letS value => ⟨value.never,false⟩
  | .assign _ value => ⟨value.never,false⟩
  | .ifS _ body => ⟨false,(checkStmtList body).reported⟩
  | .ifElse _ body other =>
    let t := checkStmtList body
    let e := checkStmtList other
    ⟨t.terminates && e.terminates,t.reported || e.reported⟩
  | .ifLet value pattern body =>
    match value.type, pattern with
    | some t, .variant enum name bindings =>
      match (t.variants.getD []).find? (·.name == name) with
      | some v =>
        if sameEnumPatternName t enum = false ∨ bindPatternFieldsFailed v bindings then ⟨false,true⟩
        else ⟨false,(checkStmtList body).reported⟩
      | none => ⟨false,true⟩
    | _, _ => ⟨false,true⟩
  | .matchS value arms =>
    match value.type with
    | none => ⟨false,true⟩
    | some t => match t.variants with
      | none => ⟨false,true⟩
      | some variants =>
        let s := checkArms t variants arms ⟨[],false,true,false⟩
        let exhaustive := s.wildcard || s.variants.length == variants.length
        let anyArm := match arms with
          | .nil => false
          | .cons .. => true
        ⟨exhaustive && (anyArm && s.allArms),s.reported || !exhaustive⟩
  | .whileS cond body => ⟨isTrueLiteral cond,(checkStmtList body).reported⟩
  | .forS _ body => ⟨false,(checkStmtList body).reported⟩
  | .withS frame body =>
    match frame.type with
    | none => ⟨false,(checkStmtList body).reported⟩
    | some _ => checkStmtList body
  | .returnS _ => ⟨true,false⟩
  | .exprS value => ⟨value.never,false⟩

/-- All statements are checked, also those behind one that returns. -/
def checkStmtList : Block → Checked
  | .nil => ⟨false,false⟩
  | .cons stmt rest =>
    let s := checkStmt stmt
    let r := checkStmtList rest
    ⟨s.terminates || r.terminates,s.reported || r.reported⟩

def checkArms (t : StaticType) (variants : List EnumVariant) : Arms → Seen → Seen
  | .nil, s => s
  | .cons .wildcard body rest, s =>
    checkArms t variants rest
      (if s.wildcard then s.reject else {s with wildcard := true}.arm (checkStmtList body))
  | .cons (.variant enum name bindings) body rest, s =>
    checkArms t variants rest <|
      match variants.find? (·.name == name) with
      | none => s.reject
      | some v =>
        if sameEnumPatternName t enum = false then s.reject
        else if v.name ∈ s.variants then s.reject
        else
          let s := {s with variants := v.name::s.variants}
          if bindPatternFieldsFailed v bindings then s.reject else s.arm (checkStmtList body)
end

/-! ### Which bodies are analysed -/

inductive OwnerKind where
  | data | classK | driver | driverPath | executor
  deriving DecidableEq

/-- Parameters are given by name and type name; `returns` is the declared return
type. -/
structure Method where
  name : String
  isAsm : Bool
  typeParams : List String
  params : List (String × String)
  returns : Option StaticType
  body : Block

structure Decl where
  moduleName : String
  name : String
  kind : OwnerKind
  typeParams : List String
  methods : List Method

variable (ds : List Decl) (d : Decl) (m : Method)

def isCanonicalFrameIntrinsic : Bool :=
  if d.moduleName ≠ "machine.x86_64.executor_memory" ∨ m.name ≠ "frame" then false
  else if d.name ≠ "ExecutorMemory" ∧ d.name ≠ "ArenaFrame" then false
  else
    let params := match m.params with
      | ("self", _)::rest => rest
      | params => params
    params == [("length", "U64")]

def hasGenericMethodDecl (methods : List Method) : Bool := methods.any (!·.typeParams.isEmpty)

/-- The methods of a declaration are skipped for data without type parameters and
without generic methods. -/
def registers : Bool :=
  match d.kind with
  | .data => !d.typeParams.isEmpty || hasGenericMethodDecl d.methods
  | _ => true

def methodLifetimeKey : String × String × String :=
  (d.moduleName, d.name, m.name)

def declTargets : List ((String × String × String) × Method) :=
  if registers d then
    (d.methods.filter fun m => !m.isAsm && !isCanonicalFrameIntrinsic d m).map fun m =>
      (methodLifetimeKey d m, m)
  else []

/-- A map by key: what is registered later replaces what was there. -/
def registerMethodLifetimeTargets (key : String × String × String) : Option Method :=
  ((ds.flatMap declTargets).reverse.find? (·.1 == key)).map (·.2)

def ensureMethodLifetimeSummary (key : String × String × String) : Checked :=
  match registerMethodLifetimeTargets ds key with
  | none => ⟨true,false⟩
  | some m => checkStmtList m.body

def checkMethod : Bool :=
  if isCanonicalFrameIntrinsic d m || m.isAsm then false
  else
    let summary := ensureMethodLifetimeSummary ds (methodLifetimeKey d m)
    summary.reported || m.returns.isSome && !summary.terminates

def Accepted : Prop := ∀ d ∈ ds, ∀ m ∈ d.methods, checkMethod ds d m = false

instance (ds : List Decl) : Decidable (Accepted ds) :=
  inferInstanceAs (Decidable (∀ d ∈ ds, ∀ m ∈ d.methods, checkMethod ds d m = false))

/-! ### Executions -/

inductive Outcome where
  | ends
  | stops
  deriving DecidableEq

def Expr.Can (e : Expr) (b : Bool) : Prop := e.never = false ∧ ∀ l ∈ e.literal, l = b

def Pattern.Matches (name : String) : Pattern → Prop
  | .wildcard => True
  | .variant _ v _ => v = name

inductive Code where
  | stmt (s : Stmt)
  | block (b : Block)
  | arms (variant : String) (a : Arms)

open Outcome in
inductive Exec : Code → Outcome → Prop
  | letS {e : Expr} (h : e.never = false) : Exec (.stmt (.letS e)) ends
  | letStops {e : Expr} (h : e.never) : Exec (.stmt (.letS e)) stops
  | assign {t e : Expr} (h : e.never = false) : Exec (.stmt (.assign t e)) ends
  | assignStops {t e : Expr} (h : e.never) : Exec (.stmt (.assign t e)) stops
  | exprS {e : Expr} (h : e.never = false) : Exec (.stmt (.exprS e)) ends
  | exprStops {e : Expr} (h : e.never) : Exec (.stmt (.exprS e)) stops
  | returnS {v : Option Expr} : Exec (.stmt (.returnS v)) stops
  | ifTrue {c : Expr} {b : Block} {o : Outcome} (hc : c.Can true) (h : Exec (.block b) o) :
      Exec (.stmt (.ifS c b)) o
  | ifFalse {c : Expr} {b : Block} (hc : c.Can false) : Exec (.stmt (.ifS c b)) ends
  | elseTrue {c : Expr} {b b' : Block} {o : Outcome} (hc : c.Can true) (h : Exec (.block b) o) :
      Exec (.stmt (.ifElse c b b')) o
  | elseFalse {c : Expr} {b b' : Block} {o : Outcome} (hc : c.Can false) (h : Exec (.block b') o) :
      Exec (.stmt (.ifElse c b b')) o
  | ifLetMatch {e : Expr} {p : Pattern} {b : Block} {o : Outcome} (h : Exec (.block b) o) :
      Exec (.stmt (.ifLet e p b)) o
  | ifLetOther {e : Expr} {p : Pattern} {b : Block} : Exec (.stmt (.ifLet e p b)) ends
  | matchS {e : Expr} {t : StaticType} {vs : List EnumVariant} {v : EnumVariant} {a : Arms}
      {o : Outcome} (ht : e.type = some t) (hvs : t.variants = some vs) (hv : v ∈ vs)
      (h : Exec (.arms v.name a) o) : Exec (.stmt (.matchS e a)) o
  | whileDone {c : Expr} {b : Block} (hc : c.Can false) : Exec (.stmt (.whileS c b)) ends
  | whileTurn {c : Expr} {b : Block} {o : Outcome} (hc : c.Can true) (hb : Exec (.block b) ends)
      (h : Exec (.stmt (.whileS c b)) o) : Exec (.stmt (.whileS c b)) o
  | whileStops {c : Expr} {b : Block} (hc : c.Can true) (hb : Exec (.block b) stops) :
      Exec (.stmt (.whileS c b)) stops
  | forDone {e : Expr} {b : Block} : Exec (.stmt (.forS e b)) ends
  | forTurn {e : Expr} {b : Block} {o : Outcome} (hb : Exec (.block b) ends)
      (h : Exec (.stmt (.forS e b)) o) : Exec (.stmt (.forS e b)) o
  | forStops {e : Expr} {b : Block} (hb : Exec (.block b) stops) : Exec (.stmt (.forS e b)) stops
  | withS {e : Expr} {b : Block} {o : Outcome} (h : Exec (.block b) o) :
      Exec (.stmt (.withS e b)) o
  | nil : Exec (.block .nil) ends
  | cons {s : Stmt} {b : Block} {o : Outcome} (hs : Exec (.stmt s) ends) (h : Exec (.block b) o) :
      Exec (.block (.cons s b)) o
  | consStops {s : Stmt} {b : Block} (hs : Exec (.stmt s) stops) : Exec (.block (.cons s b)) stops
  | noArm {v : String} : Exec (.arms v .nil) ends
  | arm {v : String} {p : Pattern} {b : Block} {a : Arms} {o : Outcome} (hp : p.Matches v)
      (h : Exec (.block b) o) : Exec (.arms v (.cons p b a)) o
  | otherArm {v : String} {p : Pattern} {b : Block} {a : Arms} {o : Outcome} (hp : ¬ p.Matches v)
      (h : Exec (.arms v a) o) : Exec (.arms v (.cons p b a)) o

def Method.AlwaysReturns : Prop := ¬ Exec (.block m.body) .ends

/-! ### Soundness of the analysis -/

def Arms.Return : Arms → Prop
  | .nil => True
  | .cons _ body rest => (checkStmtList body).terminates ∧ rest.Return

def Arms.Covers (v : String) : Arms → Prop
  | .nil => False
  | .cons p _ rest => p.Matches v ∨ rest.Covers v

/-- What follows for the arms when no arm has been rejected and all return. -/
structure ArmsSeen (vs : List EnumVariant) (a : Arms) (s s' : Seen) : Prop where
  before : s.allArms
  arms : a.Return
  wildcard : s'.wildcard → s.wildcard ∨ ∀ v, a.Covers v
  covers : ∀ n ∈ s'.variants, n ∈ s.variants ∨ a.Covers n
  nodup : s.variants.Nodup → s'.variants.Nodup
  named : (∀ n ∈ s.variants, n ∈ vs.map (·.name)) → ∀ n ∈ s'.variants, n ∈ vs.map (·.name)

theorem checkArms_seen (t : StaticType) (vs : List EnumVariant) :
    ∀ (a : Arms) (s : Seen), (checkArms t vs a s).allArms →
      ArmsSeen vs a s (checkArms t vs a s)
  | .nil, s, h => by
    exact ⟨h,trivial,.inl,fun _ hn => .inl hn,id,id⟩
  | .cons .wildcard body rest, s, h => by
    rw [checkArms] at h ⊢
    have ih := checkArms_seen t vs rest _ h
    have hbefore := ih.before
    split at hbefore
    · cases hbefore
    next hw =>
    rw [if_neg hw] at ih ⊢
    obtain ⟨hs,hbody⟩ := Bool.and_eq_true_iff.mp hbefore
    exact ⟨hs,⟨hbody,ih.arms⟩,fun _ => .inr fun v => .inl trivial,
      fun n hn => (ih.covers n hn).imp_right .inr,ih.nodup,ih.named⟩
  | .cons (.variant enum name bindings) body rest, s, h => by
    rw [checkArms] at h ⊢
    have ih := checkArms_seen t vs rest _ h
    have hbefore := ih.before
    -- a rejected arm is never forgotten
    split at hbefore
    · cases hbefore
    next v hv =>
    split at hbefore
    · cases hbefore
    next hsame =>
    split at hbefore
    · cases hbefore
    next hnew =>
    split at hbefore
    · cases hbefore
    next hbind =>
    simp only [hv, hsame, hnew, hbind, if_false] at ih ⊢
    obtain ⟨hs,hbody⟩ := Bool.and_eq_true_iff.mp hbefore
    have hname : v.name = name := by simpa using find?_some hv
    refine ⟨hs,⟨hbody,ih.arms⟩,fun hw => ?_,fun n hn => ?_,fun hnd => ih.nodup ?_,fun hall => ih.named ?_⟩
    · exact (ih.wildcard hw).imp_right fun hc v => .inr (hc v)
    · rcases ih.covers n hn with hmem | hc
      · rcases mem_cons.mp hmem with rfl | hmem
        · exact .inr (.inl hname.symm)
        · exact .inl hmem
      · exact .inr (.inr hc)
    · exact nodup_cons.mpr ⟨hnew,hnd⟩
    · intro n hn
      rcases mem_cons.mp hn with rfl | hn
      · exact mem_map_of_mem (mem_of_find?_eq_some hv)
      · exact hall n hn

/-- A match that returns has an arm for each variant, and all its arms return. -/
theorem checkStmt_match {e : Expr} {t : StaticType} {vs : List EnumVariant} {a : Arms}
    (ht : e.type = some t) (hvs : t.variants = some vs)
    (h : (checkStmt (.matchS e a)).terminates) : a.Return ∧ ∀ v ∈ vs, a.Covers v.name := by
  simp only [checkStmt, ht, hvs, Bool.and_eq_true] at h
  obtain ⟨hex,-,hall⟩ := h
  have hseen := checkArms_seen t vs a _ hall
  refine ⟨hseen.arms,fun v hv => ?_⟩
  rcases (Bool.or_eq_true _ _).mp hex with hw | hlen
  · exact (hseen.wildcard hw).resolve_left (by simp) v.name
  · -- as many variants seen as there are, each once
    have hnodup := hseen.nodup nodup_nil
    have hsub : (checkArms t vs a ⟨[],false,true,false⟩).variants ⊆ vs.map (·.name) :=
      hseen.named (by simp)
    have hperm := (hnodup.subperm hsub).perm_of_length_le
      (by rw [length_map]; exact Nat.le_of_eq (beq_iff_eq.mp hlen).symm)
    have hmem := hperm.mem_iff.mpr (mem_map_of_mem hv)
    exact (hseen.covers _ hmem).resolve_left (by simp)

def Code.Return : Code → Prop
  | .stmt s => (checkStmt s).terminates
  | .block b => (checkStmtList b).terminates
  | .arms v a => a.Return ∧ a.Covers v

theorem ifLet_terminates (e : Expr) (p : Pattern) (b : Block) :
    (checkStmt (.ifLet e p b)).terminates = false := by
  unfold checkStmt
  split
  · split
    · split <;> rfl
    · rfl
  · rfl

theorem Exec.stops {code : Code} {o : Outcome} (h : Exec code o) (hr : code.Return) :
    o = .stops := by
  induction h with
  | letS hn | assign hn | exprS hn => exact absurd hr (by simp [Code.Return, checkStmt, hn])
  | letStops | assignStops | exprStops | returnS | whileStops | forStops | consStops => rfl
  | ifTrue | ifFalse | forDone | forTurn => exact absurd hr (by simp [Code.Return, checkStmt])
  | ifLetMatch | ifLetOther =>
    simp only [Code.Return, ifLet_terminates] at hr
    cases hr
  | elseTrue _ _ ih =>
    simp only [Code.Return, checkStmt, Bool.and_eq_true] at hr
    exact ih hr.1
  | elseFalse _ _ ih =>
    simp only [Code.Return, checkStmt, Bool.and_eq_true] at hr
    exact ih hr.2
  | matchS ht hvs hv _ ih =>
    obtain ⟨hret,hcov⟩ := checkStmt_match ht hvs hr
    exact ih ⟨hret,hcov _ hv⟩
  | whileDone hc =>
    -- the condition is the literal true
    simp only [Code.Return, checkStmt, isTrueLiteral, beq_iff_eq] at hr
    exact absurd (hc.2 true (by rw [hr]; rfl)) (by decide)
  | whileTurn _ _ _ _ ih => exact ih hr
  | withS _ ih =>
    simp only [Code.Return, checkStmt] at hr
    split at hr
    · cases hr
    · exact ih hr
  | nil => cases hr
  | cons _ _ ihs ih =>
    simp only [Code.Return, checkStmtList, Bool.or_eq_true] at hr
    rcases hr with hr | hr
    · cases ihs hr
    · exact ih hr
  | noArm => exact absurd hr.2 id
  | arm _ _ ih => exact ih hr.1.1
  | otherArm hp _ ih => exact ih ⟨hr.1.2,hr.2.resolve_left hp⟩

/-! ### Accepted programs -/

/-- The body that is analysed for the method is its own. -/
def Analysed : Prop :=
  registerMethodLifetimeTargets ds (methodLifetimeKey d m) = some m

variable {ds : List Decl} {d : Decl} {m : Method}

theorem Analysed.alwaysReturns (haccepted : Accepted ds) (hd : d ∈ ds)
    (hm : m ∈ d.methods) (hasm : m.isAsm = false) (hret : m.returns.isSome)
    (hframe : isCanonicalFrameIntrinsic d m = false) (h : Analysed ds d m) : m.AlwaysReturns := by
  intro hexec
  have hcheck := haccepted d hd m hm
  simp only [checkMethod, hasm, hframe, ensureMethodLifetimeSummary, show
    registerMethodLifetimeTargets ds (methodLifetimeKey d m) = some m from h, hret] at hcheck
  have hterm : (checkStmtList m.body).terminates := by
    cases hr : (checkStmtList m.body).terminates with
    | true => rfl
    | false => simp [hr] at hcheck
  cases hexec.stops hterm

/-- A method of a declaration that is registered, the only one of its key, is
analysed. -/
theorem analysed_of_unique (hd : d ∈ ds)
    (hm : m ∈ d.methods) (hreg : registers d) (hasm : m.isAsm = false)
    (hframe : isCanonicalFrameIntrinsic d m = false)
    (hunique : ∀ d' ∈ ds, ∀ m' ∈ d'.methods, methodLifetimeKey d' m' = methodLifetimeKey d m → m' = m) :
    Analysed ds d m := by
  have hmem : (methodLifetimeKey d m, m) ∈ ds.flatMap declTargets := by
    refine mem_flatMap.mpr ⟨d,hd,?_⟩
    rw [declTargets, if_pos hreg]
    exact mem_map.mpr ⟨m,mem_filter.mpr ⟨hm,by simp [hasm, hframe]⟩,rfl⟩
  have hsome : ((ds.flatMap declTargets).reverse.find?
      (·.1 == methodLifetimeKey d m)).isSome := by
    rw [find?_isSome]
    exact ⟨_,mem_reverse.mpr hmem,by simp⟩
  obtain ⟨⟨key,m'⟩,hfind⟩ := Option.isSome_iff_exists.mp hsome
  have hkey : key = methodLifetimeKey d m := by simpa using find?_some hfind
  obtain ⟨d',hd',hin⟩ := mem_flatMap.mp (mem_reverse.mp (mem_of_find?_eq_some hfind))
  rw [declTargets] at hin
  split at hin
  · obtain ⟨m2,hm2,he⟩ := mem_map.mp hin
    obtain ⟨he1,rfl⟩ := Prod.mk.inj he
    rw [Analysed, registerMethodLifetimeTargets, hfind, Option.map_some,
      hunique d' hd' m2 (mem_filter.mp hm2).1 (he1.trans hkey)]
  · cases hin

/-- The body of the method is not analysed, or not for certain: it belongs to data
that is skipped, it is a frame intrinsic, or another method has its key. -/
def Unchecked (ds : List Decl) (d : Decl) (m : Method) : Prop :=
  registers d = false ∨ isCanonicalFrameIntrinsic d m ∨
    ∃ d' ∈ ds, ∃ m' ∈ d'.methods, methodLifetimeKey d' m' = methodLifetimeKey d m ∧ m' ≠ m

/-- In an accepted program the methods with a return type always return exactly
when those do whose bodies are not checked. -/
theorem methods_return_iff (ds : List Decl) (haccepted : Accepted ds) :
    (∀ d ∈ ds, ∀ m ∈ d.methods, m.isAsm = false → m.returns.isSome → m.AlwaysReturns) ↔
    ∀ d ∈ ds, ∀ m ∈ d.methods, m.isAsm = false → m.returns.isSome →
      Unchecked ds d m → m.AlwaysReturns := by
  constructor
  · exact fun h d hd m hm hasm hret _ => h d hd m hm hasm hret
  · intro h d hd m hm hasm hret
    by_cases hun : Unchecked ds d m
    · exact h d hd m hm hasm hret hun
    · simp only [Unchecked, not_or, Bool.not_eq_false, Bool.not_eq_true] at hun
      obtain ⟨hreg,hframe,hother⟩ := hun
      have hana : Analysed ds d m := analysed_of_unique hd hm hreg hasm hframe
        fun d' hd' m' hm' hkey => Classical.by_contradiction fun hne =>
          hother ⟨d',hd',m',hm',hkey,hne⟩
      exact hana.alwaysReturns haccepted hd hm hasm hret hframe

def u8Type : StaticType := ⟨"U8","U8","U8",none,none⟩

/-- A value of type `U8`. -/
def u8Value : Expr := ⟨some u8Type,none⟩

/-- `class Good { fn value(self, a: U8) -> U8 { while a < 9 { a = a + 1 }
if a == 9 { return a } else { let b = 1 return b } } }` -/
def returningClass : Decl where
  moduleName := "m"
  name := "Good"
  kind := .classK
  typeParams := []
  methods := [⟨"value",false,[],[("self", ""), ("a", "U8")],some u8Type,
    .cons (.whileS ⟨none,none⟩ (.cons (.assign u8Value u8Value) .nil))
      (.cons (.ifElse ⟨none,none⟩ (.cons (.returnS (some u8Value)) .nil)
        (.cons (.letS u8Value) (.cons (.returnS (some u8Value)) .nil))) .nil)⟩]

theorem methods_return_class : Accepted [returningClass] ∧
    ∀ d ∈ [returningClass], ∀ m ∈ d.methods, m.isAsm = false → m.returns.isSome →
      m.AlwaysReturns := by
  have haccepted : Accepted [returningClass] := by decide
  refine ⟨haccepted,(methods_return_iff [returningClass] haccepted).mpr ?_⟩
  intro d hd m hm _ _ hun
  obtain rfl := mem_singleton.mp hd
  obtain rfl := mem_singleton.mp hm
  -- a class is registered, its method is no intrinsic and the only one
  rcases hun with hreg | hframe | ⟨d',hd',m',hm',-,hne⟩
  · exact absurd hreg (by decide)
  · exact absurd hframe (by decide)
  · obtain rfl := mem_singleton.mp hd'
    exact absurd (mem_singleton.mp hm') hne

/-- `data Bad { fn value(self) -> U8 { let x = 1 } }` -/
def endingData : Decl where
  moduleName := "m"
  name := "Bad"
  kind := .data
  typeParams := []
  methods := [⟨"value",false,[],[("self", "")],some u8Type,
    .cons (.letS u8Value) .nil⟩]

/-- The method of plain data comes to its end; the same method of a class is
rejected. -/
theorem data_method_ends :
    (Accepted [endingData] ∧ ∃ m ∈ endingData.methods, m.isAsm = false ∧ m.returns.isSome ∧
      ¬ m.AlwaysReturns) ∧
    ¬ Accepted [{endingData with kind := .classK}] := by
  refine ⟨⟨by decide,_,mem_singleton_self _,rfl,rfl,fun h => h ?_⟩,by decide⟩
  exact .cons (.letS rfl) .nil

end Wrela.MethodReturns

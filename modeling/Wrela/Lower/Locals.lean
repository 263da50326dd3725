import Wrela.Traced
import Wrela.X86.Memory

/-!
# Method bodies over integer and Bool locals

The statements let, assignment, if, while and match, their meaning with a fresh
variable for each let, and their lowering. Lowering decides by name, over the
whole body, whether a let gets storage of its own or stands for the value that
defines it. A copy stores as many bits as its source has, wherever they go.
-/

set_option autoImplicit false

namespace Wrela.Locals
open X86

/-- The sizes of Bool and of the integer types. -/
inductive Width where
  | w8
  | w16
  | w32
  | w64
deriving DecidableEq

def Width.bits : Width → ℕ
  | w8 => 8
  | w16 => 16
  | w32 => 32
  | w64 => 64

def Width.truncate (w : Width) (v : Word) : Word := (v.setWidth w.bits).setWidth 64

inductive Expr (β : Type) where
  | name (n : String)
  | intLiteral (value : Word)
  | boolLiteral (value : Bool)
  | binary (op : β) (left right : Expr β)

inductive Scrutinee (β : Type) where
  | param (n : String)
  | construct (variant : String) (args : List (String × Expr β))

inductive Pattern where
  | wildcard
  | variant (variant : String) (bindings : List (String × String))

mutual

inductive Stmt (β : Type) where
  | letStmt (name : String) (expr : Expr β)
  | assign (target : String) (value : Expr β)
  | ifStmt (cond : Expr β) (thenBody elseBody : List (Stmt β))
  | whileStmt (cond : Expr β) (body : List (Stmt β))
  | matchStmt (value : Scrutinee β) (arms : List (Arm β))
  | returnStmt (value : Option (Expr β))

inductive Arm (β : Type) where
  | mk (pattern : Pattern) (body : List (Stmt β))

end

structure EnumValue where
  variant : String
  fields : List (String × Word)

def EnumValue.field (value : EnumValue) (name : String) : Word := (value.fields.lookup name).getD 0

/-- Why a body stops early: a return, an operator without a result, or the bound
on the turns of a loop. -/
inductive Stop where
  | returned (value : Option Word)
  | trapped
  | exhausted

/-- The operators, and the types of the fields of enum variants. -/
structure Signature (β : Type) where
  eval : β → Word → Word → Option Word
  isComparison : β → Bool
  fieldType : String → String → Width

abbrev Types := String → Width

/-- Names in scope, the innermost one first, each with a number and its type. -/
abbrev Scope := List (String × ℕ × Width)

/-- An unknown name is reported and taken for a U64. -/
def Scope.types (scope : Scope) : Types := fun n => ((scope.lookup n).map (·.2)).getD .w64

abbrev Run (α : Type) := Traced Word Stop α

section
variable {β : Type} (sig : Signature β)

def Expr.type (types : Types) : Expr β → Width
  | name n => types n
  | intLiteral _ => .w64
  | boolLiteral _ => .w8
  | binary op left _ => if sig.isComparison op then .w8 else left.type types

/-- An operator reads its operands; the result is kept to the width of its type. -/
def operate (op : β) (type : Width) (a b : Word) : Run Word :=
  (Traced.record [a, b] (sig.eval op a b)).bind fun
    | some v => .pure (type.truncate v)
    | none => .stop .trapped

end

def boolWord (b : Bool) : Word := if b then 1 else 0

/-! ### Source -/

/-- Variables are numbered as they are introduced. -/
structure Vars where
  names : Scope
  store : ℕ → Word
  next : ℕ

namespace Vars
variable (vars : Vars)

def introduce (n : String) (type : Width) (v : Word) : Vars where
  names := (n, vars.next, type)::vars.names
  store := Function.update vars.store vars.next v
  next := vars.next+1

def assign (x : ℕ) (v : Word) : Vars := {vars with store := Function.update vars.store x v}

def leave (outer : Vars) : Vars := {vars with names := outer.names}

end Vars

section
variable {β : Type} (sig : Signature β) (enums : List (String × EnumValue)) (fuel : ℕ)

def evaluate (vars : Vars) : Expr β → Run Word
  | .name n => match vars.names.lookup n with
    | some (x, _) => .pure (vars.store x)
    | none => .stop .trapped
  | .intLiteral v => .pure v
  | .boolLiteral b => .pure (boolWord b)
  | .binary op left right => (evaluate vars left).bind fun a => (evaluate vars right).bind fun b =>
    operate sig op ((Expr.binary op left right).type sig vars.names.types) a b

def evaluateArgs (vars : Vars) : List (String × Expr β) → Run (List (String × Word))
  | [] => .pure []
  | (field, e)::args => (evaluate sig vars e).bind fun v =>
    (evaluateArgs vars args).bind fun rest => .pure ((field, v)::rest)

def scrutinize (vars : Vars) : Scrutinee β → Run EnumValue
  | .param n => match vars.names.lookup n, enums.lookup n with
    | none, some value => .pure value
    | _, _ => .stop .trapped
  | .construct variant args => (evaluateArgs sig vars args).bind fun fields =>
    .record (fields.map (·.2)) ⟨variant,fields⟩

def Vars.bindPattern (value : EnumValue) (variant : String) :
    List (String × String) → Vars → Vars
  | [], vars => vars
  | (field, n)::bindings, vars => Vars.bindPattern value variant bindings
    (vars.introduce n (sig.fieldType variant field) (value.field field))

mutual

def execStmt : Stmt β → Vars → Run Vars
  | .letStmt n e, vars => (evaluate sig vars e).bind fun v =>
    .pure (vars.introduce n (e.type sig vars.names.types) v)
  | .assign n e, vars => match vars.names.lookup n with
    | none => .stop .trapped
    | some (x, _) => (evaluate sig vars e).bind fun v => .pure (vars.assign x v)
  | .ifStmt cond thenBody elseBody, vars => (evaluate sig vars cond).bind fun v =>
    (Traced.record [v] v).bind fun v =>
      (if v ≠ 0 then execStmts thenBody vars else execStmts elseBody vars).bind fun t =>
        .pure (t.leave vars)
  | .whileStmt cond body, vars => .iterate .exhausted (fun vars =>
    (evaluate sig vars cond).bind fun v => (Traced.record [v] v).bind fun v =>
      if v ≠ 0 then (execStmts body vars).bind fun t => .pure (.inr (t.leave vars))
      else .pure (.inl vars)) fuel vars
  | .matchStmt value arms, vars => (scrutinize sig enums vars value).bind fun v =>
    execArms v arms vars
  | .returnStmt none, _ => .stop (.returned none)
  | .returnStmt (some e), vars => (evaluate sig vars e).bind fun v => .stop (.returned (some v))

def execStmts : List (Stmt β) → Vars → Run Vars
  | [], vars => .pure vars
  | s::ss, vars => (execStmt s vars).bind fun t => execStmts ss t

def execArms (value : EnumValue) : List (Arm β) → Vars → Run Vars
  | [], vars => .pure vars
  | .mk .wildcard body::_, vars => (execStmts body vars).bind fun t => .pure (t.leave vars)
  | .mk (.variant variant bindings) body::arms, vars =>
    (Traced.record [boolWord (value.variant = variant)] vars).bind fun vars =>
      if value.variant = variant then
        (execStmts body (Vars.bindPattern sig value variant bindings vars)).bind fun t =>
          .pure (t.leave vars)
      else execArms value arms vars

end

def enterParams : List (String × Width × Word) → Vars → Vars
  | [], vars => vars
  | (n, type, v)::params, vars => enterParams params (vars.introduce n type v)

def execMethod (params : List (String × Width × Word)) (body : List (Stmt β)) : Run Vars :=
  execStmts sig enums fuel body (enterParams params ⟨[],fun _ => 0,0⟩)

end

section
variable {β : Type}

mutual

def assignedInStmt : Stmt β → List String
  | .assign n _ => [n]
  | .ifStmt _ thenBody elseBody => assignedNames thenBody++assignedNames elseBody
  | .whileStmt _ body => assignedNames body
  | .matchStmt _ arms => assignedInArms arms
  | .letStmt _ _ => []
  | .returnStmt _ => []

def assignedNames : List (Stmt β) → List String
  | [] => []
  | s::ss => assignedInStmt s++assignedNames ss

def assignedInArms : List (Arm β) → List String
  | [] => []
  | .mk _ body::arms => assignedNames body++assignedInArms arms

end

end

/-! ### IR -/

/-- Operations name the value they define by a number. A copy has the type of its
target and that of its source, a field of a construction that of its value. -/
inductive Op (β : Type) where
  | constInt (id : ℕ) (value : Word)
  | binary (id : ℕ) (op : β) (type : Width) (left right : ℕ)
  | copy (target source : ℕ) (type sourceType : Width)
  | enumConstruct (id : ℕ) (variant : String) (fields : List (String × ℕ × Width))
  | enumVariantTest (id value : ℕ) (variant : String)
  | enumPayloadExtract (id value : ℕ) (field : String)
  | ifOp (conditionOps : List (Op β)) (condition : ℕ) (thenOps elseOps : List (Op β))
  | whileOp (conditionOps : List (Op β)) (condition : ℕ) (body : List (Op β))
  | returnOp (value : Option ℕ)

structure Slots where
  words : ℕ → Word
  enums : ℕ → EnumValue

def Slots.setWord (s : Slots) (id : ℕ) (v : Word) : Slots :=
  {s with words := Function.update s.words id v}

def Slots.setEnum (s : Slots) (id : ℕ) (v : EnumValue) : Slots :=
  {s with enums := Function.update s.enums id v}

section
variable {β : Type} (sig : Signature β) (spill : Op β → Slots → Run Slots) (fuel : ℕ)

mutual

/-- The slots of a frame are packed by size. What an operation leaves of the frame
if it stores a value that is wider than its place is `spill`. -/
def execOp : Op β → Slots → Run Slots
  | .constInt id v, s => .pure (s.setWord id v)
  | .binary id op type left right, s =>
    (operate sig op type (s.words left) (s.words right)).bind fun v => .pure (s.setWord id v)
  | .copy target source type sourceType, s =>
    if sourceType = type then .pure (s.setWord target (s.words source))
    -- a narrower source leaves the upper bytes of the target
    else if sourceType.bits < type.bits then .pure (s.setWord target
      (s.words target >>> sourceType.bits <<< sourceType.bits ||| s.words source))
    else spill (.copy target source type sourceType) s
  | .enumConstruct id variant fields, s =>
    -- the object is zeroed first, so that a narrower value is extended
    if ∀ f ∈ fields, f.2.2.bits ≤ (sig.fieldType variant f.1).bits then
      .record (fields.map fun f => s.words f.2.1)
        (s.setEnum id ⟨variant,fields.map fun f => (f.1, s.words f.2.1)⟩)
    else spill (.enumConstruct id variant fields) s
  | .enumVariantTest id value variant, s =>
    .pure (s.setWord id (boolWord ((s.enums value).variant = variant)))
  | .enumPayloadExtract id value field, s => .pure (s.setWord id ((s.enums value).field field))
  | .ifOp conditionOps condition thenOps elseOps, s => (execOps conditionOps s).bind fun t =>
    (Traced.record [t.words condition] t).bind fun t =>
      if t.words condition ≠ 0 then execOps thenOps t else execOps elseOps t
  | .whileOp conditionOps condition body, s => .iterate .exhausted (fun s =>
    (execOps conditionOps s).bind fun t => (Traced.record [t.words condition] t).bind fun t =>
      if t.words condition ≠ 0 then (execOps body t).bind fun u => .pure (.inr u)
      else .pure (.inl t)) fuel s
  | .returnOp value, s => .stop (.returned (value.map s.words))

def execOps : List (Op β) → Slots → Run Slots
  | [], s => .pure s
  | op::ops, s => (execOp op s).bind fun t => execOps ops t

end

end

/-! ### Lowering -/

section
variable {β : Type} (sig : Signature β) (enumScope : List (String × ℕ)) (assigned : List String)

/-- The value of an expression, its operations and the next free number. A name
has no operations: its value is that of its binding. -/
def lowerExpr (scope : Scope) : Expr β → ℕ → Option (ℕ × List (Op β) × ℕ)
  | .name n, k => do
    let (value, _) ← scope.lookup n
    some (value, [], k)
  | .intLiteral v, k => some (k, [.constInt k v], k+1)
  | .boolLiteral b, k => some (k, [.constInt k (boolWord b)], k+1)
  | .binary op left right, k => do
    let (a, leftOps, k) ← lowerExpr scope left k
    let (b, rightOps, k) ← lowerExpr scope right k
    let type := (Expr.binary op left right).type sig scope.types
    some (k, leftOps++rightOps++[.binary k op type a b], k+1)

def lowerArgs (scope : Scope) :
    List (String × Expr β) → ℕ → Option (List (String × ℕ × Width) × List (Op β) × ℕ)
  | [], k => some ([], [], k)
  | (field, e)::args, k => do
    let (value, valueOps, k) ← lowerExpr sig scope e k
    let (fields, ops, k) ← lowerArgs scope args k
    some ((field, value, e.type sig scope.types)::fields, valueOps++ops, k)

def lowerScrutinee (scope : Scope) : Scrutinee β → ℕ → Option (ℕ × List (Op β) × ℕ)
  | .param n, k => match scope.lookup n with
    | none => do
      let value ← enumScope.lookup n
      some (value, [], k)
    | some _ => none
  | .construct variant args, k => do
    let (fields, ops, k) ← lowerArgs sig scope args k
    some (k, ops++[.enumConstruct k variant fields], k+1)

def lowerPatternBindings (value : ℕ) (variant : String) :
    List (String × String) → Scope → ℕ → Scope × List (Op β) × ℕ
  | [], scope, k => (scope, [], k)
  | (field, n)::bindings, scope, k =>
    let (scope, ops, next) := lowerPatternBindings value variant bindings
      ((n, k, sig.fieldType variant field)::scope) (k+1)
    (scope, .enumPayloadExtract k value field::ops, next)

mutual

def lowerStmt : Stmt β → Scope → ℕ → Option (Scope × List (Op β) × ℕ)
  | .letStmt n e, scope, k => do
    let (value, valueOps, k) ← lowerExpr sig scope e k
    let type := e.type sig scope.types
    if n ∈ assigned then some ((n, k, type)::scope, valueOps++[.copy k value type type], k+1)
    else some ((n, value, type)::scope, valueOps, k)
  | .assign n e, scope, k => do
    let (target, type) ← scope.lookup n
    let (value, valueOps, k) ← lowerExpr sig scope e k
    some (scope, valueOps++[.copy target value type (e.type sig scope.types)], k)
  | .ifStmt cond thenBody elseBody, scope, k => do
    let (condition, conditionOps, k) ← lowerExpr sig scope cond k
    let (_, thenOps, k) ← lowerStmtList thenBody scope k
    let (_, elseOps, k) ← lowerStmtList elseBody scope k
    some (scope, [.ifOp conditionOps condition thenOps elseOps], k)
  | .whileStmt cond body, scope, k => do
    let (condition, conditionOps, k) ← lowerExpr sig scope cond k
    let (_, bodyOps, k) ← lowerStmtList body scope k
    some (scope, [.whileOp conditionOps condition bodyOps], k)
  | .matchStmt value arms, scope, k => do
    let (value, valueOps, k) ← lowerScrutinee sig enumScope scope value k
    let (ops, k) ← lowerMatchArms value arms scope k
    some (scope, valueOps++ops, k)
  | .returnStmt none, scope, k => some (scope, [.returnOp none], k)
  | .returnStmt (some e), scope, k => do
    let (value, valueOps, k) ← lowerExpr sig scope e k
    some (scope, valueOps++[.returnOp (some value)], k)

def lowerStmtList : List (Stmt β) → Scope → ℕ → Option (Scope × List (Op β) × ℕ)
  | [], scope, k => some (scope, [], k)
  | s::ss, scope, k => do
    let (scope, ops, k) ← lowerStmt s scope k
    let (scope, rest, k) ← lowerStmtList ss scope k
    some (scope, ops++rest, k)

def lowerMatchArms (value : ℕ) : List (Arm β) → Scope → ℕ → Option (List (Op β) × ℕ)
  | [], _, k => some ([], k)
  | .mk .wildcard body::_, scope, k => do
    let (_, ops, k) ← lowerStmtList body scope k
    some (ops, k)
  | .mk (.variant variant bindings) body::arms, scope, k => do
    let (armScope, extracts, next) := lowerPatternBindings sig value variant bindings scope (k+1)
    let (_, bodyOps, next) ← lowerStmtList body armScope next
    let (elseOps, next) ← lowerMatchArms value arms scope next
    some ([.ifOp [.enumVariantTest k value variant] k (extracts++bodyOps) elseOps], next)

end

def paramScope : List (String × Width) → Scope → ℕ → Scope
  | [], scope, _ => scope
  | (n, type)::params, scope, k => paramScope params ((n, k, type)::scope) (k+1)

/-- The operations of a method: its integer and Bool parameters are numbered
before its enum parameters, and these before every other value. -/
def lowerMethod (params : List (String × Width)) (enumParams : List String)
    (body : List (Stmt β)) : Option (List (Op β)) :=
  (lowerStmtList sig (enumParams.zipIdx params.length) (assignedNames body) body
    (paramScope params [] 0) (params.length+enumParams.length)).map fun r => r.2.1

end

/-- The slots of a called method: the parameters hold what was passed, the rest
is left from before. -/
def callSlots (params : List (String × Width × Word)) (enums : List (String × EnumValue))
    (stale : Slots) : Slots where
  words i := (params[i]?.map (·.2.2)).getD (stale.words i)
  enums i := if i < params.length then stale.enums i
    else (enums[i-params.length]?.map (·.2)).getD (stale.enums i)

/-! ### Bodies that lowering keeps -/

section
variable {β : Type} (sig : Signature β) (assigned : List String)

def Scrutinee.fits (types : Types) : Scrutinee β → Bool
  | .param _ => true
  | .construct variant args => args.all fun a =>
    (a.2.type sig types).bits ≤ (sig.fieldType variant a.1).bits

def typesAfter (types : Types) : Stmt β → Types
  | .letStmt n e => Function.update types n (e.type sig types)
  | _ => types

def patternTypes (variant : String) : List (String × String) → Types → Types
  | [], types => types
  | (field, n)::bindings, types =>
    patternTypes variant bindings (Function.update types n (sig.fieldType variant field))

mutual

/-- No name that is never assigned is bound by a name that is, an assigned value has
the width of its variable, and a constructed field that of its declaration at most. -/
def keepsStmt : Types → Stmt β → Bool
  | _, .letStmt n (.name m) => n ∈ assigned || m ∉ assigned
  | _, .letStmt _ _ => true
  | types, .assign n e => e.type sig types = types n
  | types, .ifStmt _ thenBody elseBody => keeps types thenBody && keeps types elseBody
  | types, .whileStmt _ body => keeps types body
  | types, .matchStmt value arms => value.fits sig types && keepsArms types arms
  | _, .returnStmt _ => true

def keeps : Types → List (Stmt β) → Bool
  | _, [] => true
  | types, s::ss => keepsStmt types s && keeps (typesAfter sig types s) ss

def keepsArms : Types → List (Arm β) → Bool
  | _, [] => true
  | types, .mk .wildcard body::_ => keeps types body
  | types, .mk (.variant variant bindings) body::arms =>
    keeps (patternTypes sig variant bindings types) body && keepsArms types arms

end

end

end Wrela.Locals

import Mathlib.Data.Nat.Bitwise
import Wrela.Diag
import Wrela.X86.Memory

/-!
# Constant expressions

The values that the checker records for the constants of a program and tests in its
static assertions, and what the expressions mean over the integers. A name stands for a
constant recorded before: one of the module itself, or an imported one.
-/

set_option autoImplicit false

namespace Wrela.Constants
open X86 BitVec List

inductive BinaryOp where
  | add | sub | mul | shl | shr | and | or | eq | ne | lt | le | gt | ge
  | other (op : String)

inductive Query where
  | sizeof | alignof

def Query.keyword : Query → String
  | .sizeof => "sizeof"
  | .alignof => "alignof"

inductive Expr (τ : Type) where
  | intLiteral (value : ℕ)
  | name (n : String)
  | layout (q : Query) (type : τ)
  | binary (op : BinaryOp) (left right : Expr τ)
  | other

/-- A constant has what the lookup of its type gives: an error, no type, or its bits. -/
inductive Decl (τ : Type) where
  | const (name : String) (type : Except Diagnostic (Option ℕ)) (value : Expr τ)
  | staticAssert (value : Expr τ) (message : String)

structure Module (τ : Type) where
  name : String
  imports : List (String × List String)
  decls : List (Decl τ)

variable {τ : Type} {V : Type}

/-- The size and alignment of types in a module; a type without a layout has none, and
a reference to an unknown type is reported. -/
abbrev Layouts (τ : Type) := String → τ → Except Diagnostic (Option (Query → Word))

abbrev Consts (V : Type) := List ((String × String) × V)

def Module.declares (m : Module τ) (n : String) : Bool := m.decls.any fun
  | .const name _ _ => name = n
  | .staticAssert _ _ => false

def declared (modules : List (Module τ)) (module n : String) : Bool :=
  (modules.find? (·.name = module)).any (·.declares n)

/-- A constant that the module declares hides an imported one; of the imports of a name
the last one counts. -/
def lookupConst (modules : List (Module τ)) (m : Module τ) (consts : Consts V) (n : String) :
    Option V :=
  if m.declares n then consts.lookup (m.name, n)
  else (m.imports.reverse.find? fun imp => n ∈ imp.2 ∧ declared modules imp.1 n).bind
    fun imp => consts.lookup (imp.1, n)

def overflow : Except Diagnostic Word := .error ⟨.SEM0086,"const expression overflows U64"⟩

def truth (p : Prop) [Decidable p] : Except Diagnostic Word := .ok (if p then 1 else 0)

def evalBinary (left right : Word) : BinaryOp → Except Diagnostic Word
  | .add => if 2^64 ≤ left.toNat+right.toNat then overflow else .ok (left+right)
  | .sub => if left < right then overflow else .ok (left-right)
  | .mul => if 2^64 ≤ left.toNat*right.toNat then overflow else .ok (left*right)
  | .shl => if 64 ≤ right.toNat then overflow else .ok (left <<< right.toNat)
  | .shr => if 64 ≤ right.toNat then overflow else .ok (left >>> right.toNat)
  | .and => .ok (left &&& right)
  | .or => .ok (left ||| right)
  | .eq => truth (left = right)
  | .ne => truth (left ≠ right)
  | .lt => truth (left < right)
  | .le => truth (left ≤ right)
  | .gt => truth (right < left)
  | .ge => truth (right ≤ left)
  | .other op => .error ⟨.SEM0087,"operator "++op++" is not allowed in const expressions"⟩

section
variable (layouts : Layouts τ) (modules : List (Module τ))

def evalConstExpr (m : Module τ) (consts : Consts Word) : Expr τ → Except Diagnostic Word
  | .intLiteral n =>
    if n < 2^64 then .ok (.ofNat 64 n) else .error ⟨.SEM0086,"const integer overflows U64"⟩
  | .name n => match lookupConst modules m consts n with
    | some v => .ok v
    | none => .error ⟨.SEM0087,"non-const operand "++n⟩
  | .layout q t => do match ← layouts m.name t with
    | some words => .ok (words q)
    | none => .error ⟨.SEM0088,q.keyword++" requires a sized type"⟩
  | .binary op l r => do
    let left ← evalConstExpr m consts l
    let right ← evalConstExpr m consts r
    evalBinary left right op
  | .other => .error ⟨.SEM0087,"expression is not constant"⟩

end

/-! ### Programs -/

structure Record (τ : Type) where
  module : Module τ
  name : String
  bits : ℕ
  expr : Expr τ
  value : Word

def recorded (records : List (Record τ)) : Consts Word :=
  records.map fun r => ((r.module.name, r.name), r.value)

/-- The latest record comes first. A module that is done has the records that its own
names and the imported ones were last refreshed from. -/
structure State (τ : Type) where
  done : List (String × List (Record τ))
  active : List String
  records : List (Record τ)
  diags : List Diagnostic

section
variable (layouts : Layouts τ) (modules : List (Module τ))

def checkConst (m : Module τ) (s : State τ) : Decl τ → State τ
  | .staticAssert _ _ => s
  | .const name type value =>
    if ((recorded s.records).lookup (m.name, name)).isSome then s
    else match type with
      | .error d => {s with diags := s.diags++[d]}
      | .ok none => s
      | .ok (some bits) => match evalConstExpr layouts modules m (recorded s.records) value with
        | .error d => {s with diags := s.diags++[d]}
        | .ok v => {s with records := ⟨m,name,bits,value,v⟩::s.records}

/-- The imports of a module come first. No chain of active modules is longer than the
number of modules, so the depth does not run out. -/
def checkModuleConstDecls : ℕ → State τ → String → State τ
  | 0, s, _ => s
  | depth+1, s, name =>
    if (s.done.lookup name).isSome then s
    else match modules.find? (·.name = name) with
      | none => s
      | some m =>
        if name ∈ s.active then {s with diags := s.diags++[⟨.SEM0087,"cyclic const import"⟩]}
        else
          let s := (m.imports.map Prod.fst).foldl (checkModuleConstDecls depth)
            {s with active := name::s.active}
          let s := m.decls.foldl (checkConst layouts modules m)
            {s with active := s.active.erase name}
          {s with done := (name, s.records)::s.done}

def checkConstDecls : State τ :=
  (modules.map Module.name).foldl
    (checkModuleConstDecls layouts modules (modules.length+1)) ⟨[],[],[],[]⟩

def State.scope (s : State τ) (m : Module τ) : List (Record τ) := (s.done.lookup m.name).getD []

def checkStaticAssert (s : State τ) (m : Module τ) (e : Expr τ) (message : String) :
    Except Diagnostic Word := do
  let value ← evalConstExpr layouts modules m (recorded (s.scope m)) e
  if value = 0 then .error ⟨.SEM0089,"static assertion failed: "++message⟩ else .ok value

end

/-! ### Integers -/

def BinaryOp.meaning (a b : ℤ) : BinaryOp → ℤ
  | .add => a+b
  | .sub => a-b
  | .mul => a*b
  | .shl => a*2^b.toNat
  | .shr => a/2^b.toNat
  | .and => (a.toNat &&& b.toNat : ℕ)
  | .or => (a.toNat ||| b.toNat : ℕ)
  | .eq => if a = b then 1 else 0
  | .ne => if a ≠ b then 1 else 0
  | .lt => if a < b then 1 else 0
  | .le => if a ≤ b then 1 else 0
  | .gt => if b < a then 1 else 0
  | .ge => if b ≤ a then 1 else 0
  | .other _ => 0

section
variable (layouts : Layouts τ) (modules : List (Module τ))

def Expr.meaning (m : Module τ) (consts : Consts ℤ) : Expr τ → ℤ
  | .binary op l r => op.meaning (l.meaning m consts) (r.meaning m consts)
  | .intLiteral n => n
  | .name n => (lookupConst modules m consts n).getD 0
  | .layout q t => match layouts m.name t with
    | .ok (some words) => (words q).toNat
    | _ => 0
  | .other => 0

/-- The constants with their values over the integers, each from those before it. -/
def exactValues : List (Record τ) → Consts ℤ
  | [] => []
  | r::rs => ((r.module.name, r.name), r.expr.meaning layouts modules r.module (exactValues rs))::
    exactValues rs

/-- Every constant has its value over the integers, and fits its type. -/
def Exact : List (Record τ) → Prop
  | [] => True
  | r::rs =>
    (r.value.toNat = r.expr.meaning layouts modules r.module (exactValues layouts modules rs) ∧
      r.value.toNat < 2^r.bits) ∧ Exact rs

end

/-! ### A bound from the literals -/

def BinaryOp.bound (a b : ℕ) : BinaryOp → ℕ
  | .add => a+b
  | .sub => a
  | .mul => a*b
  | .shl => if b < 64 then a*2^b else 2^64
  | .shr => a
  | .and => min a b
  | .or => 2^((max a b).log2+1)-1
  | _ => 1

/-- No value of the expression is larger, whatever its names stand for. -/
def Expr.bound : Expr τ → ℕ
  | .intLiteral n => n
  | .binary op l r => op.bound l.bound r.bound
  | _ => 2^64-1

/-- The bound of each shift to the left is a word. -/
def Expr.shiftsFit : Expr τ → Bool
  | .binary .shl l r => l.shiftsFit && r.shiftsFit && (Expr.binary .shl l r).bound < 2^64
  | .binary _ l r => l.shiftsFit && r.shiftsFit
  | _ => true

def Decl.fits : Decl τ → Bool
  | .const _ (.ok (some bits)) e => e.shiftsFit && (bits = 64 || e.bound < 2^bits)
  | .const _ _ e => e.shiftsFit
  | .staticAssert e _ => e.shiftsFit

/-! ### Exact evaluation -/

theorem truth_eq_ok {p q : Prop} [Decidable p] [Decidable q] {v : Word} (h : truth p = .ok v)
    (hpq : p ↔ q) : (v.toNat : ℤ) = (if q then 1 else 0) ∧ v.toNat ≤ 1 := by
  cases h
  by_cases hp : p
  · simp [hp, hpq.mp hp]
  · simp [hp, hpq.not.mp hp]

theorem evalBinary_exact {op : BinaryOp} {a b v : Word} {i j : ℕ} (ha : a.toNat ≤ i)
    (hb : b.toNat ≤ j) (hfit : op = .shl → op.bound i j < 2^64) (h : evalBinary a b op = .ok v) :
    (v.toNat : ℤ) = op.meaning a.toNat b.toNat ∧ v.toNat ≤ op.bound i j := by
  cases op with
  | add =>
    simp only [evalBinary] at h
    split at h
    · cases h
    next hlt =>
    cases h
    rw [toNat_add, Nat.mod_eq_of_lt (not_le.mp hlt)]
    exact ⟨rfl,Nat.add_le_add ha hb⟩
  | mul =>
    simp only [evalBinary] at h
    split at h
    · cases h
    next hlt =>
    cases h
    rw [toNat_mul, Nat.mod_eq_of_lt (not_le.mp hlt)]
    exact ⟨rfl,Nat.mul_le_mul ha hb⟩
  | sub =>
    simp only [evalBinary] at h
    split at h
    · cases h
    next hle =>
    cases h
    have hle : b ≤ a := BitVec.not_lt.mp hle
    rw [toNat_sub_of_le hle, Nat.cast_sub hle]
    exact ⟨rfl,Nat.le_trans (Nat.sub_le _ _) ha⟩
  | shl =>
    simp only [evalBinary] at h
    split at h
    · cases h
    cases h
    have hfit := hfit rfl
    simp only [BinaryOp.bound] at hfit ⊢
    split at hfit
    · next hj =>
      have hle : a.toNat*2^b.toNat ≤ i*2^j :=
        Nat.mul_le_mul ha (Nat.pow_le_pow_right (by decide) hb)
      rw [toNat_shiftLeft, Nat.shiftLeft_eq, Nat.mod_eq_of_lt (Nat.lt_of_le_of_lt hle hfit),
        if_pos hj]
      exact ⟨by simp [BinaryOp.meaning],hle⟩
    · exact absurd hfit (Nat.lt_irrefl _)
  | shr =>
    simp only [evalBinary] at h
    split at h
    · cases h
    cases h
    rw [toNat_ushiftRight, Nat.shiftRight_eq_div_pow]
    exact ⟨by simp [BinaryOp.meaning],Nat.le_trans (Nat.div_le_self _ _) ha⟩
  | and =>
    cases h
    rw [toNat_and]
    exact ⟨by simp [BinaryOp.meaning],
      le_min (Nat.le_trans Nat.and_le_left ha) (Nat.le_trans Nat.and_le_right hb)⟩
  | or =>
    cases h
    rw [toNat_or]
    refine ⟨by simp [BinaryOp.meaning],Nat.le_sub_one_of_lt ?_⟩
    have hmax : max i j < 2^((max i j).log2+1) := Nat.lt_log2_self
    exact Nat.or_lt_two_pow (by omega) (by omega)
  | eq | ne => exact truth_eq_ok h (by simp [toNat_inj])
  | lt | le | gt | ge => exact truth_eq_ok h (by simp [lt_def, le_def])
  | other => cases h

/-- Recorded values as integers. -/
def asIntegers (consts : Consts Word) : Consts ℤ := consts.map fun p => (p.1, (p.2.toNat : ℤ))

theorem lookup_asIntegers (consts : Consts Word) (k : String × String) :
    (asIntegers consts).lookup k = (consts.lookup k).map fun v => (v.toNat : ℤ) := by
  induction consts with
  | nil => rfl
  | cons c consts ih =>
    rw [asIntegers, map_cons, lookup_cons, lookup_cons]
    cases k == c.1 with
    | true => rfl
    | false => exact ih

variable {layouts : Layouts τ} {modules : List (Module τ)} {m : Module τ}

theorem lookupConst_asIntegers (consts : Consts Word) (n : String) :
    lookupConst modules m (asIntegers consts) n =
      (lookupConst modules m consts n).map fun v => (v.toNat : ℤ) := by
  rw [lookupConst, lookupConst]
  split
  · exact lookup_asIntegers consts _
  · cases m.imports.reverse.find? _ with
    | none => rfl
    | some imp => exact lookup_asIntegers consts _

theorem shiftsFit_binary {op : BinaryOp} {l r : Expr τ} (h : (Expr.binary op l r).shiftsFit) :
    (l.shiftsFit ∧ r.shiftsFit) ∧ (op = .shl → op.bound l.bound r.bound < 2^64) := by
  cases op with
  | shl =>
    simp only [Expr.shiftsFit, Expr.bound, Bool.and_eq_true] at h
    exact ⟨h.1,fun _ => of_decide_eq_true h.2⟩
  | _ =>
    simp only [Expr.shiftsFit, Bool.and_eq_true] at h
    exact ⟨h,nofun⟩

theorem evalConstExpr_exact {consts : Consts Word} {e : Expr τ} {v : Word} (hfit : e.shiftsFit)
    (h : evalConstExpr layouts modules m consts e = .ok v) :
    (v.toNat : ℤ) = e.meaning layouts modules m (asIntegers consts) ∧ v.toNat ≤ e.bound := by
  have hword (v : Word) : v.toNat ≤ 2^64-1 := Nat.le_sub_one_of_lt v.isLt
  induction e generalizing v with
  | intLiteral n =>
    simp only [evalConstExpr] at h
    split at h
    · next hn =>
      cases h
      rw [toNat_ofNat, Nat.mod_eq_of_lt hn]
      exact ⟨rfl,Nat.le_refl n⟩
    · cases h
  | name n =>
    simp only [evalConstExpr] at h
    split at h
    · next hv =>
      cases h
      rw [Expr.meaning, lookupConst_asIntegers, hv]
      exact ⟨rfl,hword _⟩
    · cases h
  | layout q t =>
    obtain ⟨words,hw,h⟩ := bind_eq_ok h
    cases words with
    | none => cases h
    | some words =>
      cases h
      rw [Expr.meaning, hw]
      exact ⟨rfl,hword _⟩
  | binary op l r ihl ihr =>
    obtain ⟨a,ha,h⟩ := bind_eq_ok h
    obtain ⟨b,hb,h⟩ := bind_eq_ok h
    obtain ⟨hfits,hshl⟩ := shiftsFit_binary hfit
    obtain ⟨hl,hla⟩ := ihl hfits.1 ha
    obtain ⟨hr,hrb⟩ := ihr hfits.2 hb
    rw [Expr.meaning, ← hl, ← hr]
    exact evalBinary_exact hla hrb hshl h
  | other => cases h

/-! ### Exact programs -/

theorem Exact.values {rs : List (Record τ)} (h : Exact layouts modules rs) :
    exactValues layouts modules rs = asIntegers (recorded rs) := by
  induction rs with
  | nil => rfl
  | cons r rs ih =>
    rw [exactValues, ← h.1.1, ih h.2]
    rfl

structure State.Good (layouts : Layouts τ) (modules : List (Module τ)) (s : State τ) : Prop where
  records : Exact layouts modules s.records
  done : ∀ p ∈ s.done, Exact layouts modules p.2

theorem State.Good.withActive {s : State τ} (h : s.Good layouts modules) (active : List String) :
    State.Good layouts modules {s with active := active} := ⟨h.records,h.done⟩

theorem State.Good.finish {s : State τ} (h : s.Good layouts modules) (name : String) :
    State.Good layouts modules {s with done := (name, s.records)::s.done} :=
  ⟨h.records,forall_mem_cons.mpr ⟨h.records,h.done⟩⟩

theorem checkConst_good {s : State τ} {d : Decl τ} (hs : s.Good layouts modules) (hd : d.fits) :
    (checkConst layouts modules m s d).Good layouts modules := by
  cases d with
  | staticAssert e message => exact hs
  | const name type e =>
    unfold checkConst
    dsimp only
    split
    · exact hs
    · match type with
      | .error d => exact ⟨hs.records,hs.done⟩
      | .ok none => exact hs
      | .ok (some bits) =>
        simp only [Decl.fits, Bool.and_eq_true, Bool.or_eq_true, decide_eq_true_eq] at hd
        dsimp only
        split
        · exact ⟨hs.records,hs.done⟩
        · next v hv =>
          obtain ⟨hval,hbound⟩ := evalConstExpr_exact hd.1 hv
          rw [← hs.records.values] at hval
          refine ⟨⟨⟨hval,?_⟩,hs.records⟩,hs.done⟩
          rcases hd.2 with rfl | hbits
          · exact v.isLt
          · exact Nat.lt_of_le_of_lt hbound hbits

theorem foldl_good {α : Type} {step : State τ → α → State τ} {xs : List α} {s : State τ}
    (hs : s.Good layouts modules)
    (hstep : ∀ x ∈ xs, ∀ s : State τ, s.Good layouts modules → (step s x).Good layouts modules) :
    (xs.foldl step s).Good layouts modules :=
  foldlRecOn xs step hs fun s hs x hx => hstep x hx s hs

theorem checkModuleConstDecls_good (hfits : ∀ m ∈ modules, ∀ d ∈ m.decls, d.fits) (depth : ℕ)
    (name : String) (s : State τ) (hs : s.Good layouts modules) :
    (checkModuleConstDecls layouts modules depth s name).Good layouts modules := by
  induction depth generalizing name s with
  | zero => exact hs
  | succ depth ih =>
    rw [checkModuleConstDecls]
    split
    · exact hs
    split
    · exact hs
    next m hm =>
    split
    · exact ⟨hs.records,hs.done⟩
    have himports (names : List String) (t : State τ) (ht : t.Good layouts modules) :
        (names.foldl (checkModuleConstDecls layouts modules depth) t).Good layouts modules :=
      foldl_good ht fun n _ s => ih n s
    have hdecls (t : State τ) (ht : t.Good layouts modules) :
        (m.decls.foldl (checkConst layouts modules m) t).Good layouts modules :=
      foldl_good ht fun d hd s hs => checkConst_good hs (hfits m (mem_of_find?_eq_some hm) d hd)
    exact (hdecls _ ((himports _ _ (hs.withActive _)).withActive _)).finish name

/-- A module without types of its own. -/
def noLayouts : Layouts Empty := fun _ => Empty.elim

def pages : Module Empty where
  name := "pages"
  imports := []
  decls := [.const "Size" (.ok (some 64)) (.binary .shl (.intLiteral 1) (.intLiteral 12)),
    .const "Count" (.ok (some 8)) (.intLiteral 200)]

def rings : Module Empty where
  name := "rings"
  imports := [("pages", ["Size", "Count"])]
  decls := [.const "Bytes" (.ok (some 64)) (.binary .mul (.name "Size") (.name "Count")),
    .staticAssert (.binary .le (.name "Bytes") (.intLiteral 0x100000)) "rings fit"]

def shifted : Module Empty where
  name := "shifted"
  imports := []
  decls := [.const "X" (.ok (some 64))
      (.binary .shl (.intLiteral 0x8000000000000000) (.intLiteral 1)),
    .const "Y" (.ok (some 64)) (.binary .add (.name "X") (.intLiteral 1)),
    .const "Z" (.ok (some 8)) (.intLiteral 300)]

end Wrela.Constants

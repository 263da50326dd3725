import Wrela.Codegen.Emit
import Wrela.X86.Jump

/-!
# Structured control flow

How `If`, `While` and `ForBytes` become code with jumps. Slots are looked up
first, which gives statements over instruction lists; emitting a statement
names labels after the number of labels bound so far, and jumps are resolved
when the whole body is emitted. A statement prescribes what to do and has code of
its own, in which every jump has its distance; that code does what is prescribed.
-/

set_option autoImplicit false

namespace Wrela.Codegen
open X86 Ir

/-- The operations of a body: the control operations, an operation that skips
over code of its own, and operations whose emitters bind no label, as the code
they emit. -/
inductive Op where
  | plain (code : List Instr)
  | enumVariantTest (load set store : List Instr)
  | ifOp (conditionOps : List Op) (condition : Value) (thenOps elseOps : List Op)
  | whileOp (conditionOps : List Op) (condition : Value) (body : List Op)
  | forBytes (iterableOps : List Op) (iterable : Value) (index : Option Value) (byteValue : Value)
    (body : List Op)

/-- What a conditional jump tests: a constant, a stored condition, or whether a
loop over bytes has bytes left. -/
inductive Test where
  | const (value : Word)
  | stored (slot : ℤ) (type : Ty)
  | bytes (iterable index : ℤ)

inductive LoopKind where
  | whileLoop
  | forBytes
  deriving DecidableEq, Repr

inductive Stmt where
  | plain (code : List Instr)
  | skip (load set : List Instr)
  | branch (condition : List Stmt) (test : Test) (thenOps elseOps : List Stmt)
  | loop (kind : LoopKind) (condition : List Stmt) (test : Test) (body : List Stmt)

def resolveCondition (frame : Frame) (cond : Value) : Except Diagnostic Test :=
  match cond.constInt, frame.slots cond.id with
  | some v, _ => .ok (.const v)
  | none, some slot => .ok (.stored slot cond.type)
  | none, none => .error ⟨.CG0001,"missing slot"⟩

def forBytesInit (index : Value) (slot : ℤ) : List Instr :=
  emitMovImmToReg .rax 0++emitStoreSlotFromReg .rax slot index.type.valueWidthBits

def forBytesLoad (byteValue : Value) (indexSlot byteSlot : ℤ) : List Instr :=
  emitLoadMemToReg .rdi .r11 0 64++emitLoadSlotToReg .rcx indexSlot 64++
    [.loadByteIndexed .rax .rdi .rcx]++
    emitStoreSlotFromReg .rax byteSlot byteValue.type.valueWidthBits

def forBytesAdvance (indexSlot : ℤ) : List Instr :=
  emitLoadSlotToReg .rcx indexSlot 64++[.addImm .rcx 1]++emitStoreSlotFromReg .rcx indexSlot 64

def slotOr (frame : Frame) (value : Value) (message : String) : Except Diagnostic ℤ :=
  match frame.slots value.id with
  | some slot => .ok slot
  | none => .error ⟨.CG0001,message⟩

mutual

def lowerOp (frame : Frame) : Op → Except Diagnostic (List Stmt)
  | .plain code => .ok [.plain code]
  | .enumVariantTest load set store => .ok [.skip load set, .plain store]
  | .ifOp conditionOps condition thenOps elseOps => do
    let c ← lowerOps frame conditionOps
    let test ← resolveCondition frame condition
    let t ← lowerOps frame thenOps
    let e ← lowerOps frame elseOps
    return [.branch c test t e]
  | .whileOp conditionOps condition body => do
    let c ← lowerOps frame conditionOps
    let test ← resolveCondition frame condition
    let b ← lowerOps frame body
    return [.loop .whileLoop c test b]
  | .forBytes iterableOps iterable index byteValue body => do
    match index with
    | none => .error ⟨.CG0001,"forbytes index is nil"⟩
    | some index =>
      let indexSlot ← slotOr frame index "missing forbytes index slot"
      let iterableSlot ← slotOr frame iterable "missing forbytes iterable slot"
      let byteSlot ← slotOr frame byteValue "missing forbytes byte slot"
      let setup ← lowerOps frame iterableOps
      let b ← lowerOps frame body
      return setup++[.plain (forBytesInit index indexSlot),
        .loop .forBytes [] (.bytes iterableSlot indexSlot)
          (.plain (forBytesLoad byteValue indexSlot byteSlot)::b++
            [.plain (forBytesAdvance indexSlot)])]

def lowerOps (frame : Frame) : List Op → Except Diagnostic (List Stmt)
  | [] => .ok []
  | op::ops => do
    let s ← lowerOp frame op
    let rest ← lowerOps frame ops
    return s++rest

end

def Test.code : Test → List Instr
  | .const _ => []
  | .stored slot type =>
    loadSlotCode slot type .rax++emitMovImmToReg .r10 0++emitCmpRegReg .rax .r10
  | .bytes iterable index =>
    emitLoadSlotToReg .r11 iterable 64++emitLoadMemToReg .r10 .r11 8 64++
      emitLoadSlotToReg .rax index 64++emitCmpRegReg .rax .r10

def Test.jumpFalse {τ : Type} (target : τ) : Test → List (Item τ)
  | .const v => if v = 0 then [.jmp target] else []
  | .stored _ _ => [.jcc 0x84 target]
  | .bytes _ _ => [.jcc 0x8D target]

inductive LabelKind where
  | block
  | ifDone | ifElse | whileStart | whileDone | forBytesStart | forBytesDone | enumVariantTestDone
  | crc32cByte | crc32cBit | crc32cNoPoly | crc32cBitNext | crc32cByteDone | crc32cDone
  deriving DecidableEq, Repr

structure Label where
  kind : LabelKind
  index : ℕ
  deriving DecidableEq, Repr

def LabelKind.name : LabelKind → String
  | .block => "entry"
  | .ifDone => "if_done"
  | .ifElse => "if_else"
  | .whileStart => "while_start"
  | .whileDone => "while_done"
  | .forBytesStart => "for_bytes_start"
  | .forBytesDone => "for_bytes_done"
  | .enumVariantTestDone => "enum_variant_test_done"
  | .crc32cByte => "crc32c_byte"
  | .crc32cBit => "crc32c_bit"
  | .crc32cNoPoly => "crc32c_no_poly"
  | .crc32cBitNext => "crc32c_bit_next"
  | .crc32cByteDone => "crc32c_byte_done"
  | .crc32cDone => "crc32c_done"

def Label.name (l : Label) : String :=
  if l.kind = .block then l.kind.name else l.kind.name++"_"++toString l.index

def LoopKind.start : LoopKind → LabelKind
  | .whileLoop => .whileStart
  | .forBytes => .forBytesStart

def LoopKind.done : LoopKind → LabelKind
  | .whileLoop => .whileDone
  | .forBytes => .forBytesDone

structure Emitter where
  code : List (Item Label)
  labels : List (Label × ℕ)

namespace Emitter
variable (enc : Encoding) (e : Emitter)

def lookup (l : Label) : Option ℕ := (e.labels.find? (·.1 = l)).map (·.2)

def newLabel (kind : LabelKind) : Label := ⟨kind,e.labels.length⟩

/-- An entry of the same name is replaced. -/
def bindLabel (l : Label) : Emitter :=
  {e with labels := (l, enc.size e.code)::e.labels.filter (·.1 ≠ l)}

def emit (items : List (Item Label)) : Emitter := {e with code := e.code++items}

def emitCode (code : List Instr) : Emitter := e.emit (code.map .instr)

def emitTest (test : Test) (target : Label) : Emitter :=
  (e.emitCode test.code).emit (test.jumpFalse target)

@[simp] theorem bindLabel_code (l : Label) : (e.bindLabel enc l).code = e.code := rfl

@[simp] theorem emit_code (items : List (Item Label)) : (e.emit items).code = e.code++items := rfl

@[simp] theorem emitCode_code (is : List Instr) : (e.emitCode is).code = e.code++is.map .instr := rfl

@[simp] theorem emitTest_code (test : Test) (target : Label) :
    (e.emitTest test target).code = e.code++test.code.map .instr++test.jumpFalse target := rfl

end Emitter

mutual

def emitStmt (enc : Encoding) : Stmt → Emitter → Emitter
  | .plain code, e => e.emitCode code
  | .skip load set, e =>
    let e := e.emitCode load
    let done := e.newLabel .enumVariantTestDone
    ((e.emit [.jcc 0x85 done]).emitCode set).bindLabel enc done
  | .branch condition test thenOps elseOps, e =>
    let done := e.newLabel .ifDone
    let elseLabel := e.newLabel .ifElse
    let e := (emitStmts enc condition e).emitTest test elseLabel
    let e := (emitStmts enc thenOps e).emit [.jmp done]
    let e := emitStmts enc elseOps (e.bindLabel enc elseLabel)
    e.bindLabel enc done
  | .loop kind condition test body, e =>
    let start := e.newLabel kind.start
    let done := e.newLabel kind.done
    let e := (emitStmts enc condition (e.bindLabel enc start)).emitTest test done
    let e := (emitStmts enc body e).emit [.jmp start]
    e.bindLabel enc done

def emitStmts (enc : Encoding) : List Stmt → Emitter → Emitter
  | [], e => e
  | s::ss, e => emitStmts enc ss (emitStmt enc s e)

end

def relative (labels : Label → Option ℕ) (l : Label) (nextIP : ℕ) : Except Diagnostic ℤ :=
  match labels l with
  | none => .error ⟨.CG0001,"unknown label: "++l.name⟩
  | some target =>
    let rel : ℤ := (target:ℤ)-nextIP
    if rel < -0x80000000 ∨ rel > 0x7fffffff then .error ⟨.CG0001,"branch out of range"⟩
    else .ok rel

def resolveItem (labels : Label → Option ℕ) (pos : ℕ) : Item Label → Except Diagnostic (Item ℤ)
  | .instr i => .ok (.instr i)
  | .jmp l => (relative labels l (pos+5)).map .jmp
  | .jcc cond l => (relative labels l (pos+6)).map (.jcc cond)

def resolveJumps (enc : Encoding) (labels : Label → Option ℕ) :
    ℕ → List (Item Label) → Except Diagnostic (List (Item ℤ))
  | _, [] => .ok []
  | pos, i::is => do
    let x ← resolveItem labels pos i
    let rest ← resolveJumps enc labels (pos+enc.itemSize i) is
    return x::rest

/-- Lowering gives a function one block, whose label is bound first. -/
def emitBody (enc : Encoding) (ss : List Stmt) : Except Diagnostic (List (Item ℤ)) :=
  let e := emitStmts enc ss (Emitter.bindLabel enc ⟨[],[]⟩ ⟨.block,0⟩)
  resolveJumps enc e.lookup 0 e.code

def compileBody (enc : Encoding) (frame : Frame) (ops : List Op) :
    Except Diagnostic (List (Item ℤ)) := do
  let ss ← lowerOps frame ops
  emitBody enc ss

/-! ### What statements mean -/

open Option Encoding

/-- Why an execution has no final state: the bound on its depth is reached, an
instruction faults, or a loop runs over an object of 2^63 bytes or more. -/
inductive Stop where
  | outOfFuel
  | fault
  | oversized
  deriving DecidableEq, Repr

variable (s : State)

def runOr (code : List Instr) : Except Stop State :=
  match run s code with
  | some t => .ok t
  | none => .error .fault

def Test.eval : Test → Except Stop Bool
  | .const v => .ok (v ≠ 0)
  | .stored slot type =>
    .ok (load s.mem (s.address .rbp (disp32 slot)) (type.valueWidthBits/8) ≠ 0)
  | .bytes iterable index =>
    let i := load s.mem (s.address .rbp (disp32 index)) 8
    let length := load s.mem (load s.mem (s.address .rbp (disp32 iterable)) 8+8) 8
    if i.toNat < 2^63 ∧ length.toNat < 2^63 then .ok (i.toNat < length.toNat)
    else .error .oversized

/-- The code jumped over is run only if the compared operands are equal. -/
def runSkip (load set : List Instr) : Except Stop State := do
  let t ← runOr s load
  match t.flags with
  | none => .error .fault
  | some f => if holds 0x85 f then .ok t else runOr t set

def execStmts : ℕ → List Stmt → State → Except Stop State
  | 0, _, _ => .error .outOfFuel
  | _+1, [], s => .ok s
  | n+1, .plain code::rest, s => do
    let t ← runOr s code
    execStmts n rest t
  | n+1, .skip load set::rest, s => do
    let t ← runSkip s load set
    execStmts n rest t
  | n+1, .branch condition test thenOps elseOps::rest, s => do
    let t ← execStmts n condition s
    let b ← test.eval t
    let u ← runOr t test.code
    let v ← execStmts n (if b then thenOps else elseOps) u
    execStmts n rest v
  | n+1, .loop kind condition test body::rest, s => do
    let t ← execStmts n condition s
    let b ← test.eval t
    let u ← runOr t test.code
    if b then do
      let v ← execStmts n body u
      execStmts n (.loop kind condition test body::rest) v
    else execStmts n rest u

def Test.jumpSize : Test → ℕ
  | .const v => if v = 0 then 5 else 0
  | .stored _ _ => 6
  | .bytes _ _ => 6

mutual

def asmStmt (enc : Encoding) : Stmt → List (Item ℤ)
  | .plain code => code.map .instr
  | .skip load set =>
    load.map .instr++[.jcc 0x85 (enc.size (set.map (Item.instr (τ := ℤ))))]++set.map .instr
  | .branch condition test thenOps elseOps =>
    let t := asmStmts enc thenOps
    let e := asmStmts enc elseOps
    asmStmts enc condition++test.code.map .instr++test.jumpFalse ((enc.size t:ℤ)+5)++t++
      [.jmp (enc.size e)]++e
  | .loop _ condition test body =>
    let head := asmStmts enc condition++test.code.map .instr
    let b := asmStmts enc body
    head++test.jumpFalse ((enc.size b:ℤ)+5)++b++
      [.jmp (-((enc.size head:ℤ)+test.jumpSize+enc.size b+5))]

/-- The code of statements with every jump going to its own construct. -/
def asmStmts (enc : Encoding) : List Stmt → List (Item ℤ)
  | [] => []
  | s::ss => asmStmt enc s++asmStmts enc ss

end

section
variable {s u : State} {test : Test} {b : Bool} {enc : Encoding} {code : List (Item ℤ)}

def Test.taken (u : State) : Test → Option Bool
  | .const v => some (v = 0)
  | .stored _ _ => u.flags.map (holds 0x84)
  | .bytes _ _ => u.flags.map (holds 0x8D)

theorem holds_equal_zero (v : Word) : holds 0x84 (subFlags v 0) = !decide (v ≠ 0) := by
  have hz : holds 0x84 (subFlags v 0) = decide (v = 0) := subFlags_equal v 0
  rw [hz]
  simp

theorem holds_notLess_small {a b : Word} (ha : a.toNat < 2^63) (hb : b.toNat < 2^63) :
    holds 0x8D (subFlags a b) = !decide (a.toNat < b.toNat) := by
  have hl : holds 0x8D (subFlags a b) = !decide (a.toInt < b.toInt) := subFlags_notLess a b
  rw [hl, BitVec.toInt_eq_toNat_of_lt (by omega), BitVec.toInt_eq_toNat_of_lt (by omega)]
  simp

theorem Test.run_code (he : test.eval s = .ok b) :
    ∃ u, run s test.code = some u ∧ test.taken u = some (!b) := by
  cases test with
  | const v =>
    cases he
    exact ⟨s,rfl,by simp [Test.taken]⟩
  | stored slot type =>
    cases he
    rw [Test.code, List.append_assoc, run_append_some (run_loadSlotCode s slot type (by decide))]
    refine ⟨_,rfl,?_⟩
    exact congrArg some (holds_equal_zero _)
  | bytes iterable index =>
    rw [Test.eval] at he
    split_ifs at he with hsmall
    cases he
    refine ⟨_,rfl,?_⟩
    exact congrArg some (holds_notLess_small hsmall.1 hsmall.2)

theorem Test.size_jumpFalse (enc : Encoding) {τ : Type} (test : Test) (target : τ) :
    enc.size (test.jumpFalse target) = test.jumpSize := by
  cases test with
  | const v =>
    rw [Test.jumpFalse, Test.jumpSize]
    split_ifs <;> rfl
  | stored slot type => rfl
  | bytes iterable index => rfl

theorem Test.reaches_jump {pos rel : ℕ} {j : Bool}
    (h : enc.CodeAt code pos (test.jumpFalse (rel : ℤ))) (hj : test.taken u = some j) :
    enc.Reaches code (pos, u) (if j then pos+test.jumpSize+rel else pos+test.jumpSize, u) := by
  cases test with
  | const v =>
    cases hj
    by_cases hv : v = 0
    · simp only [Test.jumpFalse, Test.jumpSize, hv, if_true, decide_true] at h ⊢
      apply Encoding.Reaches.step
      rw [h.step_jmp]
      congr
    · simp only [Test.jumpSize, hv, if_false, decide_false]
      exact Encoding.Reaches.refl enc code _
  | stored slot type | bytes iterable index =>
    rw [Test.taken, map_eq_some_iff] at hj
    obtain ⟨f,hf,rfl⟩ := hj
    apply Encoding.Reaches.step
    rw [Encoding.CodeAt.step_jcc h, hf, map_some]
    congr

theorem Test.reaches {pos rel : ℕ}
    (h : enc.CodeAt code pos (test.code.map .instr++test.jumpFalse (rel : ℤ)))
    (he : test.eval s = .ok b) (hr : run s test.code = some u) :
    enc.Reaches code (pos, s)
      (pos+enc.size (test.code.map (Item.instr (τ := ℤ)))+test.jumpSize+(if b then 0 else rel),
        u) := by
  obtain ⟨u',hu,hj⟩ := Test.run_code he
  rw [hr] at hu
  cases hu
  have hjump := Test.reaches_jump h.right hj
  cases b with
  | true | false => exact (h.left.run hr).trans hjump

end

section
variable {enc : Encoding} {code : List (Item ℤ)} {test : Test}

variable {pos : ℕ} {s t : State}

theorem runOr_eq_ok {is : List Instr} : runOr s is = .ok t ↔ run s is = some t := by
  rw [runOr]
  cases run s is with
  | none => exact ⟨nofun,nofun⟩
  | some u => simp

theorem asm_branch_at {condition thenOps elseOps : List Stmt}
    (h : enc.CodeAt code pos (asmStmt enc (.branch condition test thenOps elseOps))) :
    ∃ p q r, pos+enc.size (asmStmts enc condition) = p ∧
      p+enc.size (test.code.map (Item.instr (τ := ℤ)))+test.jumpSize = q ∧
      q+enc.size (asmStmts enc thenOps) = r ∧
      r+5+enc.size (asmStmts enc elseOps) =
        pos+enc.size (asmStmt enc (.branch condition test thenOps elseOps)) ∧
      enc.CodeAt code pos (asmStmts enc condition) ∧
      enc.CodeAt code p (test.code.map .instr++
        test.jumpFalse ((enc.size (asmStmts enc thenOps)+5 : ℕ) : ℤ)) ∧
      enc.CodeAt code q (asmStmts enc thenOps) ∧
      enc.CodeAt code r [.jmp (enc.size (asmStmts enc elseOps))] ∧
      enc.CodeAt code (r+5) (asmStmts enc elseOps) := by
  rw [asmStmt] at h ⊢
  have hhead := h.left.left.left
  rw [List.append_assoc] at hhead
  refine ⟨_,_,_,rfl,rfl,rfl,?_,hhead.left,hhead.right,?_,?_,?_⟩
  · simp only [size_append, size_cons, size_nil, itemSize,
      Test.size_jumpFalse]
    omega
  · simpa [Test.size_jumpFalse, add_assoc] using h.left.left.right
  · simpa [Test.size_jumpFalse, add_assoc] using h.left.right
  · simpa [Test.size_jumpFalse, itemSize, add_assoc] using h.right

theorem reaches_arm {q r n k : ℕ} {b : Bool} {v w : State} (hr : q+n = r)
    (hJ : enc.CodeAt code r [.jmp (k : ℤ)]) (hthen : b → enc.Reaches code (q, v) (r, w))
    (helse : b = false → enc.Reaches code (r+5, v) (r+5+k, w)) :
    enc.Reaches code (q+(if b then 0 else n+5), v) (r+5+k, w) := by
  cases b with
  | true =>
    have hjmp := hJ.step_jmp (s := w)
    exact (hthen rfl).trans (Encoding.Reaches.step hjmp)
  | false =>
    rw [if_neg (by decide), ← add_assoc, hr]
    exact helse rfl

theorem asm_loop_at {kind : LoopKind} {condition body : List Stmt}
    (h : enc.CodeAt code pos (asmStmt enc (.loop kind condition test body))) :
    ∃ p q r, pos+enc.size (asmStmts enc condition) = p ∧
      p+enc.size (test.code.map (Item.instr (τ := ℤ)))+test.jumpSize = q ∧
      q+enc.size (asmStmts enc body) = r ∧
      r+5 = pos+enc.size (asmStmt enc (.loop kind condition test body)) ∧
      enc.CodeAt code pos (asmStmts enc condition) ∧
      enc.CodeAt code p (test.code.map .instr++
        test.jumpFalse ((enc.size (asmStmts enc body)+5 : ℕ) : ℤ)) ∧
      enc.CodeAt code q (asmStmts enc body) ∧
      ∀ s, enc.step code (r, s) = some (pos, s) := by
  rw [asmStmt] at h ⊢
  have hhead := h.left.left
  rw [List.append_assoc] at hhead
  have hjmp := h.right
  refine ⟨_,_,_,rfl,rfl,rfl,?_,hhead.left,hhead.right,?_,?_⟩
  · simp only [size_append, size_cons, size_nil, itemSize,
      Test.size_jumpFalse]
    omega
  · simpa [Test.size_jumpFalse, add_assoc] using h.left.right
  · intro s
    have hstep := hjmp.step_jmp (s := s)
    simp only [size_append, Test.size_jumpFalse, ← add_assoc] at hstep
    rw [hstep]
    congr
    omega

section
variable {load set : List Instr} (h : enc.CodeAt code pos (asmStmt enc (.skip load set)))
include h

theorem asm_skip_at :
    ∃ p, pos+enc.size (load.map (Item.instr (τ := ℤ))) = p ∧
      p+6+enc.size (set.map (Item.instr (τ := ℤ))) = pos+enc.size (asmStmt enc (.skip load set)) ∧
      enc.CodeAt code pos (load.map .instr) ∧
      enc.CodeAt code p [.jcc 0x85 (enc.size (set.map (Item.instr (τ := ℤ))))] ∧
      enc.CodeAt code (p+6) (set.map .instr) := by
  rw [asmStmt] at h ⊢
  refine ⟨_,rfl,?_,h.left.left,h.left.right,?_⟩
  · simp only [size_append, size_cons, size_nil, itemSize]
    omega
  · simpa [itemSize, add_assoc] using h.right

theorem reaches_of_runSkip (he : runSkip s load set = .ok t) :
    enc.Reaches code (pos, s) (pos+enc.size (asmStmt enc (.skip load set)), t) := by
  obtain ⟨p,hp,hend,hL,hJ,hS⟩ := asm_skip_at h
  rw [runSkip, bind_eq_ok_iff] at he
  obtain ⟨u,hu,he⟩ := he
  have hload := hL.run (runOr_eq_ok.mp hu)
  rw [hp] at hload
  rw [← hend]
  cases hf : u.flags with
  | none =>
    rw [hf] at he
    cases he
  | some f =>
    have hjmp := hJ.step_jcc (s := u)
    rw [hf, map_some] at hjmp
    rw [hf] at he
    simp only at he
    split_ifs at he hjmp with hc
    · cases he
      exact hload.trans (Encoding.Reaches.step hjmp)
    · exact (hload.trans (Encoding.Reaches.step hjmp)).trans (hS.run (runOr_eq_ok.mp he))

end

theorem reaches_of_exec {n pos : ℕ} {ss : List Stmt}
    (h : enc.CodeAt code pos (asmStmts enc ss)) (he : execStmts n ss s = .ok t) :
    enc.Reaches code (pos, s) (pos+enc.size (asmStmts enc ss), t) := by
  induction n generalizing ss pos s t with
  | zero => cases he
  | succ n ih =>
    cases ss with
    | nil =>
      cases he
      exact Encoding.Reaches.refl enc code _
    | cons x rest =>
      rw [asmStmts] at h ⊢
      rw [size_append, ← add_assoc]
      have hrest := h.right
      have hx := h.left
      cases x with
      | plain is =>
        simp only [execStmts, bind_eq_ok_iff, runOr_eq_ok] at he
        obtain ⟨u,hu,he⟩ := he
        exact (hx.run hu).trans (ih hrest he)
      | skip load set =>
        simp only [execStmts, bind_eq_ok_iff] at he
        obtain ⟨u,hu,he⟩ := he
        exact (reaches_of_runSkip hx hu).trans (ih hrest he)
      | branch condition test thenOps elseOps =>
        simp only [execStmts, bind_eq_ok_iff, runOr_eq_ok] at he
        obtain ⟨u,hu,b,hb,v,hv,w,hw,he⟩ := he
        obtain ⟨p,q,r,hp,hq,hr,hend,hC,hT,hTh,hJ,hEl⟩ := asm_branch_at hx
        rw [← hend] at hrest ⊢
        have hcond := ih hC hu
        have htest := Test.reaches hT hb hv
        rw [hp] at hcond
        rw [hq] at htest
        have harm := reaches_arm (b := b) (v := v) (w := w) hr hJ
          (fun hb => hr ▸ ih hTh (by rw [hb] at hw; exact hw))
          (fun hb => ih hEl (by rw [hb] at hw; exact hw))
        exact ((hcond.trans htest).trans harm).trans (ih hrest he)
      | loop kind condition test body =>
        simp only [execStmts, bind_eq_ok_iff, runOr_eq_ok] at he
        obtain ⟨u,hu,b,hb,v,hv,he⟩ := he
        obtain ⟨p,q,r,hp,hq,hr,hend,hC,hT,hB,hback⟩ := asm_loop_at hx
        have hcond := ih hC hu
        have htest := Test.reaches hT hb hv
        rw [hp] at hcond
        rw [hq] at htest
        refine (hcond.trans htest).trans ?_
        cases b with
        | true =>
          simp only [if_true, bind_eq_ok_iff] at he
          obtain ⟨w,hw,he⟩ := he
          have hbody := ih hB hw
          rw [hr] at hbody
          -- back at the start, the rest of the run is one of the same statements
          have hagain := ih (show enc.CodeAt code pos
            (asmStmts enc (.loop kind condition test body::rest)) by rw [asmStmts]; exact h) he
          rw [asmStmts, size_append, ← add_assoc] at hagain
          exact (hbody.trans (Encoding.Reaches.step (hback w))).trans hagain
        | false =>
          simp only [Bool.false_eq_true, if_false] at he ⊢
          rw [show q+(enc.size (asmStmts enc body)+5) = r+5 by omega, hend]
          exact ih hrest he

end

section
variable {α β : Type}

def Settles (x : ℕ → Except Stop α) (r : Except Stop α) : Prop := ∃ n, ∀ m, n ≤ m → x m = r

def Ends (x : ℕ → Except Stop α) : Prop := (∃ a, Settles x (.ok a)) ∨ Settles x (.error .oversized)

theorem Ends.const {x : Except Stop α} (h : (∃ a, x = .ok a) ∨ x = .error .oversized) :
    Ends fun _ => x := by
  rcases h with ⟨a,rfl⟩ | rfl
  · exact .inl ⟨a,0,fun _ _ => rfl⟩
  · exact .inr ⟨0,fun _ _ => rfl⟩

variable {x : ℕ → Except Stop α}

theorem Settles.succ {r : Except Stop α} (h : Settles (fun m => x (m+1)) r) : Settles x r := by
  obtain ⟨n,hn⟩ := h
  refine ⟨n+1,?_⟩
  intro m hm
  obtain ⟨m,rfl⟩ := Nat.exists_eq_add_of_le' (show 1 ≤ m by omega)
  exact hn m (by omega)

theorem Ends.succ (h : Ends fun m => x (m+1)) : Ends x :=
  h.imp (fun ⟨a,ha⟩ => ⟨a,ha.succ⟩) Settles.succ

theorem Ends.bind {f : ℕ → α → Except Stop β} (hx : Ends x)
    (hf : ∀ a, Settles x (.ok a) → Ends fun m => f m a) : Ends fun m => x m >>= f m := by
  rcases hx with ⟨a,n,hn⟩ | ⟨n,hn⟩
  · have heq : ∀ m, n ≤ m → (x m >>= f m) = f m a := by
      intro m hm
      rw [hn m hm]
      rfl
    rcases hf a ⟨n,hn⟩ with ⟨b,k,hk⟩ | ⟨k,hk⟩
    · exact .inl ⟨b,max n k,fun m hm => (heq m (by omega)).trans (hk m (by omega))⟩
    · exact .inr ⟨max n k,fun m hm => (heq m (by omega)).trans (hk m (by omega))⟩
  · exact .inr ⟨n,fun m hm => congrArg (· >>= f m) (hn m hm)⟩

end

section
variable {enc : Encoding} {code : List (Item ℤ)}

theorem Test.eval_ends (test : Test) :
    (∃ b, test.eval s = .ok b) ∨ test.eval s = .error .oversized := by
  cases test with
  | const v | stored slot type => exact .inl ⟨_,rfl⟩
  | bytes iterable index =>
    rw [Test.eval]
    split_ifs
    · exact .inl ⟨_,rfl⟩
    · exact .inr rfl

theorem runSkip_of_halts {k pos : ℕ} {load set : List Instr} {s t : State}
    (hh : enc.HaltsIn code k (pos, s) t) (h : enc.CodeAt code pos (asmStmt enc (.skip load set))) :
    ∃ u, runSkip s load set = .ok u := by
  obtain ⟨p,hp,hend,hL,hJ,hS⟩ := asm_skip_at h
  obtain ⟨u,m,-,hu,hm⟩ := hh.run hL
  rw [hp] at hm
  obtain ⟨d,j,-,hd,hj⟩ := hm.step hJ.ne_size
  rw [hJ.step_jcc, map_eq_some_iff] at hd
  obtain ⟨f,hf,rfl⟩ := hd
  rw [runSkip, runOr_eq_ok.mpr hu]
  change ∃ v, (match u.flags with
    | none => .error .fault
    | some f => if holds 0x85 f then .ok u else runOr u set) = Except.ok v
  rw [hf]
  by_cases hc : holds 0x85 f
  · exact ⟨u,if_pos hc⟩
  · rw [if_neg hc] at hj
    obtain ⟨v,-,-,hv,-⟩ := hj.run hS
    exact ⟨v,by simp [hc]; exact runOr_eq_ok.mpr hv⟩

/-- If the code halts, the statements have an end. The recursion is on a bound
of the machine steps, which a loop iteration lowers, and then on the statements. -/
theorem ends_of_halts (bound : ℕ) {k pos : ℕ} {ss : List Stmt} {s t : State} (hk : k ≤ bound)
    (hh : enc.HaltsIn code k (pos, s) t) (h : enc.CodeAt code pos (asmStmts enc ss)) :
    Ends fun n => execStmts n ss s := by
  apply Ends.succ
  match ss with
  | [] => exact .const (.inl ⟨s,rfl⟩)
  | .plain is::rest =>
    obtain ⟨u,m,hm,hu,hh'⟩ := hh.run h.left
    have hrest := ends_of_halts bound (hm.trans hk) hh' h.right
    simp only [execStmts, runOr_eq_ok.mpr hu]
    exact hrest
  | .skip load set::rest =>
    rw [asmStmts] at h
    obtain ⟨u,hu⟩ := runSkip_of_halts hh h.left
    obtain ⟨m,hm,hh'⟩ := hh.of_reaches (reaches_of_runSkip h.left hu)
    have hrest := ends_of_halts bound (hm.trans hk) hh' h.right
    simp only [execStmts, hu]
    exact hrest
  | .branch condition test thenOps elseOps::rest =>
    rw [asmStmts] at h
    obtain ⟨p,q,r,hp,hq,hr,hend,hC,hT,hTh,hJ,hEl⟩ := asm_branch_at h.left
    simp only [execStmts]
    apply (ends_of_halts bound hk hh hC).bind
    rintro u ⟨n,hu⟩
    obtain ⟨m,hm,hh⟩ := hh.of_reaches (reaches_of_exec hC (hu n (le_refl n)))
    apply (Ends.const (test.eval_ends u)).bind
    rintro b ⟨j,hb⟩
    have hb := hb j (le_refl j)
    obtain ⟨v,hv,-⟩ := Test.run_code hb
    rw [hp] at hh
    have htest := Test.reaches hT hb hv
    rw [hq] at htest
    obtain ⟨m',hm',hh⟩ := hh.of_reaches htest
    simp only [runOr_eq_ok.mpr hv]
    have hthen : Ends fun n => execStmts n (if b then thenOps else elseOps) v := by
      cases b with
      | true => exact ends_of_halts bound (by omega) hh hTh
      | false =>
        rw [if_neg (by decide), ← add_assoc, hr] at hh
        exact ends_of_halts bound (by omega) hh hEl
    apply hthen.bind
    rintro w ⟨n',hw⟩
    have hw := hw n' (le_refl n')
    have harm := reaches_arm (b := b) (v := v) (w := w) hr hJ
      (fun hb => hr ▸ reaches_of_exec hTh (by rw [hb] at hw; exact hw))
      (fun hb => reaches_of_exec hEl (by rw [hb] at hw; exact hw))
    obtain ⟨m'',hm'',hh⟩ := hh.of_reaches harm
    rw [hend] at hh
    exact ends_of_halts bound (by omega) hh h.right
  | .loop kind condition test body::rest =>
    have hwhole := h
    rw [asmStmts] at h
    obtain ⟨p,q,r,hp,hq,hr,hend,hC,hT,hB,hback⟩ := asm_loop_at h.left
    simp only [execStmts]
    apply (ends_of_halts bound hk hh hC).bind
    rintro u ⟨n,hu⟩
    obtain ⟨m,hm,hh⟩ := hh.of_reaches (reaches_of_exec hC (hu n (le_refl n)))
    apply (Ends.const (test.eval_ends u)).bind
    rintro b ⟨j,hb⟩
    have hb := hb j (le_refl j)
    obtain ⟨v,hv,-⟩ := Test.run_code hb
    rw [hp] at hh
    have htest := Test.reaches hT hb hv
    rw [hq] at htest
    obtain ⟨m',hm',hh⟩ := hh.of_reaches htest
    simp only [runOr_eq_ok.mpr hv]
    cases b with
    | true =>
      apply (ends_of_halts bound (by omega) hh hB).bind
      rintro w ⟨n',hw⟩
      have hbody := reaches_of_exec hB (hw n' (le_refl n'))
      rw [hr] at hbody
      obtain ⟨m₁,hm₁,hh⟩ := hh.of_reaches hbody
      -- the jump back takes a step, so fewer steps are left for the next iteration
      have hne : r ≠ enc.size code := by
        intro hsize
        have hstop := hback w
        rw [hsize, step_size] at hstop
        cases hstop
      obtain ⟨d,m₂,rfl,hd,hh⟩ := hh.step hne
      rw [hback w] at hd
      cases hd
      have hless : m₂ < bound := by omega
      exact ends_of_halts m₂ (le_refl m₂) hh hwhole
    | false =>
      rw [if_neg (by decide), show q+(enc.size (asmStmts enc body)+5) = r+5 by omega, hend] at hh
      exact ends_of_halts bound (by omega) hh h.right
termination_by (bound, sizeOf ss)

/-- Without oversized objects the code halts in exactly the states the
statements end in. -/
theorem asm_faithful (enc : Encoding) {ss : List Stmt} {s : State}
    (hfit : ∀ n, execStmts n ss s ≠ .error .oversized) (t : State) :
    (∃ n, execStmts n ss s = .ok t) ↔ enc.Halts (asmStmts enc ss) s t := by
  have hat : enc.CodeAt (asmStmts enc ss) 0 (asmStmts enc ss) := .whole _
  constructor
  · rintro ⟨n,hn⟩
    obtain ⟨k,hk⟩ := reaches_of_exec hat hn
    rw [zero_add] at hk
    exact ⟨k,hk⟩
  · rintro ⟨k,hk⟩
    rcases ends_of_halts k (le_refl k) hk hat with ⟨u,n,hn⟩ | ⟨n,hn⟩
    · have hu := hn n (le_refl n)
      obtain ⟨m,-,hm⟩ := hk.of_reaches (reaches_of_exec hat hu)
      rw [zero_add] at hm
      exact ⟨n,hm.stop ▸ hu⟩
    · exact absurd (hn n (le_refl n)) (hfit n)

end

end Wrela.Codegen

import Wrela.Diag
import Mathlib.Data.Int.Notation
import Mathlib.Data.Nat.Notation

/-!
# The assembler's encoder

Instructions with register, immediate, memory and label operands to bytes, as
the assembler emits them. A byte is a number below 256. An operand form that the
encoder does not know is a diagnostic; labels are resolved after the last
instruction.
-/

set_option autoImplicit false

namespace Wrela.Asm

inductive Width where
  | w8 | w16 | w32 | w64
  deriving DecidableEq, Repr

def Width.bits : Width → ℕ
  | .w8 => 8
  | .w16 => 16
  | .w32 => 32
  | .w64 => 64

inductive SegmentName where
  | es | ss | ds | fs | gs
  deriving DecidableEq, Repr

/-- The names of the register table: the general registers at each width, the
high bytes ah, ch and dh, cr3 and the segment registers. -/
inductive RegName where
  | general (width : Width) (n : Fin 16)
  | highByte (n : Fin 3)
  | cr3
  | segment (s : SegmentName)
  deriving DecidableEq, Repr

structure Reg where
  width : ℕ := 0
  low3 : ℕ := 0
  high : Bool := false
  rex : Bool := false
  control : Bool := false
  segment : Bool := false
  deriving DecidableEq, Repr

def SegmentName.low3 : SegmentName → ℕ
  | .es => 0
  | .ss => 2
  | .ds => 3
  | .fs => 4
  | .gs => 5

def RegName.reg : RegName → Reg
  | .general w n => {
      width := w.bits
      low3 := n%8
      high := 8 ≤ n.val
      rex := w = .w8 ∧ 4 ≤ n.val ∧ n.val < 8 }
  | .highByte n => {width := 8, low3 := 4+n}
  | .cr3 => {width := 64, low3 := 3, control := true}
  | .segment s => {width := 16, low3 := s.low3, segment := true}

structure MemOperand where
  base : RegName
  disp : Int64
  width : ℕ
  deriving DecidableEq

/-- Field and parameter operands have been replaced before encoding; the encoder
knows no form with one that is left. -/
inductive Operand where
  | reg (r : RegName)
  | imm (value : Int64)
  | label (name : String)
  | mem (m : MemOperand)
  | unresolved
  deriving DecidableEq

inductive Condition where
  | e | ne | b | be | l | le | g | ge
  deriving DecidableEq, Repr

inductive Mnemonic where
  | hlt | pause | ret | retfq | iretq | cli | sti | out | input
  | mov | add | and | sub | cmp | shr | call | jmp | push | pop | lgdt | lidt
  | jcc (c : Condition)
  | unknown (name : String)
  deriving DecidableEq, Repr

/-- A line without a mnemonic only places its label. -/
structure Instruction where
  mnemonic : Option Mnemonic
  operands : List Operand
  label : Option String
  deriving DecidableEq

structure BranchFixup where
  mnemonic : Mnemonic
  relPos : ℕ
  target : String
  nextPC : ℕ
  deriving DecidableEq, Repr

structure ExternalCallReloc where
  offset : ℕ
  symbol : String
  deriving DecidableEq, Repr

def condOpcode : Condition → ℕ
  | .e => 0x84
  | .ne => 0x85
  | .b => 0x82
  | .be => 0x86
  | .l => 0x8c
  | .le => 0x8e
  | .g => 0x8f
  | .ge => 0x8d

/-! ## Bytes -/

def bytes : ℕ → ℤ → List ℕ
  | 0, _ => []
  | n+1, v => (v%256).toNat::bytes n (v/256)

def modrm (mod reg rm : ℕ) : ℕ := (mod<<<6 ||| reg<<<3 ||| rm)%256

def sib (scale index base : ℕ) : ℕ := (scale<<<6 ||| index<<<3 ||| base)%256

def rexForOperand (w : Bool) (reg rm : Reg) : List ℕ :=
  if !w && !reg.high && !rm.high && !reg.rex && !rm.rex then []
  else
    let p := 0x40
    let p := if w then p ||| 1<<<3 else p
    let p := if reg.high then p ||| 1<<<2 else p
    let p := if rm.high then p ||| 1 else p
    [p]

def defaultWidth (a b : ℕ) : ℕ := if a ≠ 0 then a else b

variable (mem : MemOperand)

def encodeMemDisp : ℕ × List ℕ :=
  let disp := mem.disp.toInt
  if disp = 0 ∧ mem.base.reg.low3 ≠ 5 then (0, [])
  else if disp ≥ -128 ∧ disp ≤ 127 then (1, bytes 1 disp)
  else (2, bytes 4 disp)

def encodeMemModRM (regField : ℕ) (mem : MemOperand) : List ℕ :=
  let (mod,disp) := encodeMemDisp mem
  let rm := mem.base.reg.low3
  if rm = 4 then [modrm mod regField 4, sib 0 4 rm] ++ disp
  else [modrm mod regField rm] ++ disp

/-! ## Operand forms -/

def encodeOut : List Operand → Option (List ℕ)
  | [.reg (.general .w16 2), .reg (.general .w8 0)] => some [0xEE]
  | [.reg (.general .w16 2), .reg (.general .w16 0)] => some [0x66, 0xEF]
  | [.reg (.general .w16 2), .reg (.general .w32 0)] => some [0xEF]
  | _ => none

def encodeIn : List Operand → Option (List ℕ)
  | [.reg (.general .w8 0), .reg (.general .w16 2)] => some [0xEC]
  | [.reg (.general .w32 0), .reg (.general .w16 2)] => some [0xED]
  | _ => none

def encodeMovSegmentReg (dst src : RegName) : Option (List ℕ) :=
  if !dst.reg.segment || src ≠ .general .w16 0 then none
  else some [0x8E, modrm 3 dst.reg.low3 src.reg.low3]

def encodeMovRegReg (dst src : Reg) : Option (List ℕ) :=
  let width := max dst.width src.width
  let p := rexForOperand (width = 64) dst src
  match width with
  | 8 => some (p ++ [0x8B-1, modrm 3 dst.low3 src.low3])
  | 16 => some ([0x66] ++ (p ++ [0x8B, modrm 3 dst.low3 src.low3]))
  | 32 => some (p ++ [0x8B, modrm 3 dst.low3 src.low3])
  | 64 => some (p ++ [0x8B, modrm 3 dst.low3 src.low3])
  | _ => none

def encodeMovRegControl (dst src : Reg) : Option (List ℕ) :=
  if !src.control then none
  else some [0x0F, 0x20, modrm 3 src.low3 dst.low3]

def encodeMovControlReg (dst src : Reg) : Option (List ℕ) :=
  if !dst.control then none
  else some [0x0F, 0x22, modrm 3 dst.low3 src.low3]

def encodeMovRegImm (dst : Reg) (value : ℤ) : Option (List ℕ) :=
  match dst.width with
  | 8 => some (rexForOperand false {} dst ++ [0xB0+dst.low3] ++ bytes 1 value)
  | 16 => some ([0x66] ++ rexForOperand false {} dst ++ [0xB8+dst.low3] ++ bytes 2 value)
  | 32 => some (rexForOperand false {} dst ++ [0xB8+dst.low3] ++ bytes 4 value)
  | 64 => some (rexForOperand true {} dst ++ [0xB8+dst.low3] ++ bytes 8 value)
  | _ => none

/-- The common part of the moves between a register and memory: the opcode for
bytes is one below the opcode for the other widths. -/
def encodeMovMem (opcode : ℕ) (mem : MemOperand) (reg : Reg) : Option (List ℕ) :=
  let width := defaultWidth mem.width reg.width
  let p := rexForOperand (width = 64) reg mem.base.reg
  let modrmBytes := encodeMemModRM reg.low3 mem
  match width with
  | 8 => some (p ++ [opcode-1] ++ modrmBytes)
  | 16 => some ([0x66] ++ p ++ [opcode] ++ modrmBytes)
  | 32 => some (p ++ [opcode] ++ modrmBytes)
  | 64 => some (p ++ [opcode] ++ modrmBytes)
  | _ => none

def encodeMovMemReg (reg : Reg) : Option (List ℕ) := encodeMovMem 0x89 mem reg

def encodeMovRegMem (reg : Reg) (mem : MemOperand) : Option (List ℕ) := encodeMovMem 0x8B mem reg

def encodeMovMemImm (value : ℤ) : Option (List ℕ) :=
  let width := defaultWidth mem.width 64
  let p := rexForOperand (width = 64) {} mem.base.reg
  let modrmBytes := encodeMemModRM 0 mem
  let imm32 := bytes 4 value
  match width with
  | 8 => some (p ++ [0xC6] ++ (modrmBytes ++ bytes 1 value))
  | 16 => some ([0x66] ++ p ++ [0xC7] ++ (modrmBytes ++ imm32))
  | 32 => some (p ++ [0xC7] ++ (modrmBytes ++ imm32))
  | 64 => some (p ++ [0xC7] ++ (modrmBytes ++ imm32))
  | _ => none

def encodeMov : List Operand → Option (List ℕ)
  | [.reg dst, right] =>
    if dst.reg.segment then
      match right with
      | .reg src => encodeMovSegmentReg dst src
      | _ => none
    else if dst.reg.control then
      match right with
      | .reg src => encodeMovControlReg dst.reg src.reg
      | _ => none
    else
      match right with
      | .reg src =>
        if src.reg.control then encodeMovRegControl dst.reg src.reg
        else encodeMovRegReg dst.reg src.reg
      | .imm value => encodeMovRegImm dst.reg value.toInt
      | .mem mem => encodeMovRegMem dst.reg mem
      | _ => none
  | [.mem dst, .reg src] => encodeMovMemReg dst src.reg
  | [.mem dst, .imm value] => encodeMovMemImm dst value.toInt
  | _ => none

def encodeBinaryImm (ext op8 op32 : ℕ) : List Operand → Option (List ℕ)
  | [.reg reg, .imm imm] =>
    let width := reg.reg.width
    let value := imm.toInt
    let (opcode,emit) :=
      if value ≥ -128 ∧ value ≤ 127 then (op8, bytes 1 value)
      else if width = 16 then (op32, bytes 2 value)
      else (op32, bytes 4 value)
    let p := rexForOperand (width = 64) {} reg.reg
    let op := [opcode, modrm 3 ext reg.reg.low3] ++ emit
    match width with
    | 16 => some ([0x66] ++ p ++ op)
    | 32 => some (p ++ op)
    | 64 => some (p ++ op)
    | _ => none
  | _ => none

def encodeBinaryRegReg (opcode : ℕ) : List Operand → Option (List ℕ)
  | [.reg dst, .reg src] =>
    let width := max dst.reg.width src.reg.width
    let p := rexForOperand (width = 64) src.reg dst.reg
    match width with
    | 16 => some ([0x66] ++ (p ++ [opcode, modrm 3 src.reg.low3 dst.reg.low3]))
    | 32 => some (p ++ [opcode, modrm 3 src.reg.low3 dst.reg.low3])
    | 64 => some (p ++ [opcode, modrm 3 src.reg.low3 dst.reg.low3])
    | _ => none
  | _ => none

def encodeBinaryRegMem (opcode : ℕ) : List Operand → Option (List ℕ)
  | [.reg dst, .mem src] =>
    let width := defaultWidth src.width dst.reg.width
    let p := rexForOperand (width = 64) dst.reg src.base.reg
    let modrmBytes := encodeMemModRM dst.reg.low3 src
    match width with
    | 16 => some ([0x66] ++ p ++ [opcode] ++ modrmBytes)
    | 32 => some (p ++ [opcode] ++ modrmBytes)
    | 64 => some (p ++ [opcode] ++ modrmBytes)
    | _ => none
  | _ => none

def encodePushPop (isPush : Bool) : List Operand → Option (List ℕ)
  | [.imm value] =>
    if !isPush ∨ value.toInt < -128 ∨ value.toInt > 127 then none
    else some ([0x6A] ++ bytes 1 value.toInt)
  | [.reg reg] =>
    let p := rexForOperand false {} reg.reg
    if isPush then some (p ++ [0x50+reg.reg.low3]) else some (p ++ [0x58+reg.reg.low3])
  | _ => none

def encodeShiftImm (ext : ℕ) : List Operand → Option (List ℕ)
  | [.reg reg, .imm imm] =>
    if imm.toInt < 0 ∨ imm.toInt > 255 then none
    else
      let width := reg.reg.width
      let p := rexForOperand (width = 64) {} reg.reg
      let op := [0xC1, modrm 3 ext reg.reg.low3] ++ bytes 1 imm.toInt
      match width with
      | 16 => some ([0x66] ++ p ++ op)
      | 32 => some (p ++ op)
      | 64 => some (p ++ op)
      | _ => none
  | _ => none

def encodeDesc (regField : ℕ) : List Operand → Option (List ℕ)
  | [.mem mem] =>
    some (rexForOperand (mem.width = 64) {} mem.base.reg ++
      ([0x0F, 0x01] ++ encodeMemModRM regField mem))
  | _ => none

/-- The four bytes of the distance are filled in when the labels are known. -/
def encodeNearBranch (mnemonic : Mnemonic) (start size opcode : ℕ) (cond : Bool) :
    List Operand → Option (List ℕ × List BranchFixup)
  | [.label target] =>
    if cond then some ([0x0F, opcode, 0, 0, 0, 0], [⟨mnemonic,start+2,target,start+size⟩])
    else some ([opcode, 0, 0, 0, 0], [⟨mnemonic,start+1,target,start+size⟩])
  | _ => none

def encodeJmp (start : ℕ) (operands : List Operand) : Option (List ℕ × List BranchFixup) :=
  encodeNearBranch .jmp start 5 0xE9 false operands

def encodeCall (start : ℕ) (operands : List Operand) : Option (List ℕ × List BranchFixup) :=
  match operands with
  | [.reg reg] => some (rexForOperand false {} reg.reg ++ [0xFF, modrm 3 2 reg.reg.low3], [])
  | [.mem mem] => some (rexForOperand false {} mem.base.reg ++ [0xFF] ++ encodeMemModRM 2 mem, [])
  | _ => encodeNearBranch .call start 5 0xE8 false operands

def encodeCondJmp (c : Condition) (start : ℕ) (operands : List Operand) :
    Option (List ℕ × List BranchFixup) :=
  encodeNearBranch (.jcc c) start 6 (condOpcode c) true operands

/-! ## Instructions and programs -/

def plain (b : Option (List ℕ)) : Option (List ℕ × List BranchFixup) := b.map fun b => (b,[])

def supported (form : String) (b : Option (List ℕ × List BranchFixup)) :
    Except Diagnostic (List ℕ × List BranchFixup) :=
  match b with
  | some b => .ok b
  | none => .error ⟨.ASM0002,"unsupported " ++ form ++ " form"⟩

def encodeInstruction (start : ℕ) (mnemonic : Mnemonic) (operands : List Operand) :
    Except Diagnostic (List ℕ × List BranchFixup) :=
  match mnemonic with
  | .hlt => .ok ([0xF4], [])
  | .pause => .ok ([0xF3, 0x90], [])
  | .ret => .ok ([0xC3], [])
  | .retfq => .ok ([0x48, 0xCB], [])
  | .iretq => .ok ([0x48, 0xCF], [])
  | .cli => .ok ([0xFA], [])
  | .sti => .ok ([0xFB], [])
  | .out => supported "out" (plain (encodeOut operands))
  | .input => supported "in" (plain (encodeIn operands))
  | .mov => supported "mov" (plain (encodeMov operands))
  | .add =>
    supported "add" (plain (encodeBinaryRegReg 0x01 operands <|>
      encodeBinaryRegMem 0x03 operands <|> encodeBinaryImm 0 0x83 0x81 operands))
  | .and => supported "and" (plain (encodeBinaryRegReg 0x21 operands))
  | .sub =>
    supported "sub" (plain (encodeBinaryRegMem 0x2B operands <|>
      encodeBinaryImm 5 0x83 0x81 operands))
  | .cmp =>
    supported "cmp" (plain (encodeBinaryRegReg 0x39 operands <|>
      encodeBinaryRegMem 0x3B operands <|> encodeBinaryImm 7 0x83 0x81 operands))
  | .shr => supported "shr" (plain (encodeShiftImm 5 operands))
  | .call => supported "call" (encodeCall start operands)
  | .jmp => supported "jmp" (encodeJmp start operands)
  | .jcc c => supported "conditional branch" (encodeCondJmp c start operands)
  | .push => supported "push" (plain (encodePushPop true operands))
  | .pop => supported "pop" (plain (encodePushPop false operands))
  | .lgdt => supported "lgdt" (plain (encodeDesc 2 operands))
  | .lidt => supported "lidt" (plain (encodeDesc 3 operands))
  | .unknown name => .error ⟨.ASM0001,"unknown instruction: " ++ name⟩

/-- The newest binding of a label stands first. -/
structure State where
  out : List ℕ
  labels : List (String × ℕ)
  fixups : List BranchFixup
  diags : List Diagnostic

def placeLabel (st : State) (ins : Instruction) : State :=
  match ins.label with
  | some l => {st with labels := (l, st.out.length)::st.labels}
  | none => st

def encodeStep (st : State) (ins : Instruction) : State :=
  let st := placeLabel st ins
  match ins.mnemonic with
  | none => st
  | some m =>
    match encodeInstruction st.out.length m ins.operands with
    | .ok (b,fixups) => {st with out := st.out ++ b, fixups := st.fixups ++ fixups}
    | .error d => {st with diags := st.diags ++ [d]}

def isExternalCallBranch (fix : BranchFixup) : Bool :=
  (fix.mnemonic = .call || fix.mnemonic = .jmp) &&
    "_wrela_".toList.isPrefixOf fix.target.toList

def putUint32 (out : List ℕ) (pos : ℕ) (v : ℤ) : List ℕ :=
  out.take pos ++ bytes 4 v ++ out.drop (pos+4)

structure Output where
  out : List ℕ
  relocs : List ExternalCallReloc
  diags : List Diagnostic

def applyFixup (allowExternalCalls : Bool) (labels : List (String × ℕ)) (r : Output)
    (fix : BranchFixup) : Output :=
  match labels.lookup fix.target with
  | none =>
    if allowExternalCalls && isExternalCallBranch fix then
      {r with relocs := r.relocs ++ [⟨fix.relPos,fix.target⟩]}
    else {r with diags := r.diags ++ [⟨.ASM0002,"unknown label: " ++ fix.target⟩]}
  | some target =>
    let rel : ℤ := target-fix.nextPC
    if rel < -0x80000000 ∨ rel > 0x7fffffff then
      {r with diags := r.diags ++ [⟨.ASM0002,"branch out of range: " ++ fix.target.quote⟩]}
    else {r with out := putUint32 r.out fix.relPos rel}

def encode (allowExternalCalls : Bool) (instructions : List Instruction) : Output :=
  let st := instructions.foldl encodeStep ⟨[],[],[],[]⟩
  st.fixups.foldl (applyFixup allowExternalCalls st.labels) ⟨st.out,[],st.diags⟩

end Wrela.Asm

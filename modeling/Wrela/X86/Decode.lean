import Mathlib.Tactic.Ring
import Mathlib.Tactic.IntervalCases

/-!
# Decoding x86-64 instructions

From bytes to the operation and the operands they name in 64-bit mode: the
operand-size and REX prefixes, the opcode, ModRM with its SIB byte and
displacement, immediates. The opcodes are those of a small system assembler;
every other opcode is undefined here. All addressing forms are decoded. A byte
is a number below 256; numbers are little-endian.
-/

set_option autoImplicit false

namespace X86.Decode

/-- Registers with the number the encoding gives them. `highByte` counts the
second bytes of the first four general registers. -/
inductive Register where
  | general (width n : ℕ)
  | highByte (n : ℕ)
  | segment (n : ℕ)
  | control (n : ℕ)
  deriving DecidableEq, Repr

inductive Operation where
  | hlt | pause | ret | retfq | iretq | cli | sti | input | output
  | mov | add | and | sub | cmp | shr | call | jmp | push | pop | lgdt | lidt
  | jcc (condition : ℕ)
  deriving DecidableEq, Repr

inductive Base where
  | absolute
  | nextInstruction
  | register (n : ℕ)
  deriving DecidableEq, Repr

/-- The index register stands with the logarithm of its scale. -/
structure Address where
  base : Base
  index : Option (ℕ × ℕ)
  disp : ℤ
  deriving DecidableEq, Repr

/-- An immediate is the signed value that the operation uses at the operand's
width. A descriptor operand has no width of its own. -/
inductive Operand where
  | reg (r : Register)
  | mem (width : ℕ) (a : Address)
  | descriptor (a : Address)
  | imm (width : ℕ) (v : ℤ)
  | distance (d : ℤ)
  deriving DecidableEq, Repr

structure Decoded where
  operation : Operation
  operands : List Operand
  deriving DecidableEq, Repr

structure Rex where
  w : Bool
  r : Bool
  x : Bool
  b : Bool
  deriving DecidableEq, Repr

structure Prefixes where
  operand16 : Bool
  rex : Option Rex
  deriving DecidableEq, Repr

def rexOf (byte : ℕ) : Rex :=
  ⟨byte/8%2 = 1,byte/4%2 = 1,byte/2%2 = 1,byte%2 = 1⟩

def splitRex : List ℕ → Option Rex × List ℕ
  | [] => (none, [])
  | byte::bs => if byte/16 = 4 then (some (rexOf byte), bs) else (none, byte::bs)

def splitPrefixes : List ℕ → Prefixes × List ℕ
  | 0x66::bs => (⟨true,(splitRex bs).1⟩, (splitRex bs).2)
  | bs => (⟨false,(splitRex bs).1⟩, (splitRex bs).2)

namespace Prefixes
variable (p : Prefixes)

def width : ℕ :=
  if (p.rex.map Rex.w).getD false then 64 else if p.operand16 then 16 else 32

def extend (bit : Rex → Bool) (field : ℕ) : ℕ :=
  if (p.rex.map bit).getD false then field+8 else field

/-- Without a REX prefix the byte registers four to seven are the high bytes. -/
def general (width n : ℕ) : Register :=
  if width = 8 ∧ p.rex = none ∧ 4 ≤ n ∧ n < 8 then .highByte (n-4) else .general width n

variable (width n k : ℕ)

theorem general_ne_control : p.general width n ≠ .control k := by
  unfold general
  split_ifs <;> simp

theorem general_ne_segment : p.general width n ≠ .segment k := by
  unfold general
  split_ifs <;> simp

end Prefixes

def littleEndian : List ℕ → ℕ
  | [] => 0
  | b::bs => b+256*littleEndian bs

def signed (n : ℕ) (bs : List ℕ) : Option (ℤ × List ℕ) :=
  if n ≤ bs.length then some ((littleEndian (bs.take n) : ℤ).bmod (256^n), bs.drop n) else none

inductive RegMem where
  | reg (n : ℕ)
  | mem (a : Address)
  deriving DecidableEq, Repr

def displacement (mode : ℕ) (base : Base) (index : Option (ℕ × ℕ)) (bs : List ℕ) :
    Option (RegMem × List ℕ) :=
  if mode = 0 then some (.mem ⟨base,index,0⟩, bs)
  else (signed (if mode = 1 then 1 else 4) bs).map fun (d,rest) => (.mem ⟨base,index,d⟩, rest)

variable (p : Prefixes)

def scaled (mode : ℕ) : List ℕ → Option (RegMem × List ℕ)
  | [] => none
  | sib::bs =>
    let index := p.extend Rex.x (sib/8%8)
    let indexed := if index = 4 then none else some (index, sib/64)
    if sib%8 = 5 ∧ mode = 0 then displacement 2 .absolute indexed bs
    else displacement mode (.register (p.extend Rex.b (sib%8))) indexed bs

/-- The register field of ModRM, what its other fields name, and what follows
the SIB byte and the displacement. -/
def modRM : List ℕ → Option (ℕ × RegMem × List ℕ)
  | [] => none
  | byte::bs =>
    let named : Option (RegMem × List ℕ) :=
      if byte/64 = 3 then some (.reg (p.extend Rex.b (byte%8)), bs)
      else if byte%8 = 4 then scaled p (byte/64) bs
      else if byte%8 = 5 ∧ byte/64 = 0 then displacement 2 .nextInstruction none bs
      else displacement (byte/64) (.register (p.extend Rex.b (byte%8))) none bs
    named.map fun (rm,rest) => (byte/8%8, rm, rest)

def RegMem.operand (width : ℕ) : RegMem → Operand
  | .reg n => .reg (p.general width n)
  | .mem a => .mem width a

/-! ## Operand forms -/

section
variable (p : Prefixes) (op : Operation) (width : ℕ) (bs : List ℕ)

def regRm : Option (Decoded × List ℕ) :=
  (modRM p bs).map fun (reg,rm,rest) =>
    (⟨op,[.reg (p.general width (p.extend Rex.r reg)), rm.operand p width]⟩, rest)

def rmReg : Option (Decoded × List ℕ) :=
  (modRM p bs).map fun (reg,rm,rest) =>
    (⟨op,[rm.operand p width, .reg (p.general width (p.extend Rex.r reg))]⟩, rest)

/-- The register field selects the operation. The immediate of `size` bytes is
used at `immWidth` bits. -/
def rmImm (select : ℕ → Option Operation) (size immWidth : ℕ) : Option (Decoded × List ℕ) := do
  let (reg,rm,rest) ← modRM p bs
  let op ← select reg
  let (v,rest) ← signed size rest
  some (⟨op,[rm.operand p width, .imm immWidth v]⟩, rest)

def rmOnly (select : ℕ → Option Operation) : Option (Decoded × List ℕ) := do
  let (reg,rm,rest) ← modRM p bs
  let op ← select reg
  some (⟨op,[rm.operand p width]⟩, rest)

def distance : Option (Decoded × List ℕ) :=
  (signed 4 bs).map fun (d,rest) => (⟨op,[.distance d]⟩, rest)

/-- Control registers are moved as a whole to and from 64-bit registers. -/
def moveControl (load : Bool) : Option (Decoded × List ℕ) := do
  let (reg,rm,rest) ← modRM p bs
  match rm with
  | .reg n =>
    let c : Operand := .reg (.control (p.extend Rex.r reg))
    let r : Operand := .reg (.general 64 n)
    some (⟨.mov,if load then [c, r] else [r, c]⟩, rest)
  | .mem _ => none

def descriptorTable : Option (Decoded × List ℕ) := do
  let (reg,rm,rest) ← modRM p bs
  match reg, rm with
  | 2, .mem a => some (⟨.lgdt,[.descriptor a]⟩, rest)
  | 3, .mem a => some (⟨.lidt,[.descriptor a]⟩, rest)
  | _, _ => none

end

def arithmetic : ℕ → Option Operation
  | 0 => some .add
  | 4 => some .and
  | 5 => some .sub
  | 7 => some .cmp
  | _ => none

def onlyAt (digit : ℕ) (op : Operation) (reg : ℕ) : Option Operation :=
  if reg = digit then some op else none

def twoByte : List ℕ → Option (Decoded × List ℕ)
  | [] => none
  | opcode::bs =>
    if opcode/16 = 8 then distance (.jcc (opcode%16)) bs
    else match opcode with
      | 0x01 => descriptorTable p bs
      | 0x20 => moveControl p bs false
      | 0x22 => moveControl p bs true
      | _ => none

def inOpcode (opcode : ℕ) (bs : List ℕ) : Option (Decoded × List ℕ) :=
  let n := p.extend Rex.b (opcode%8)
  match opcode/8 with
  | 0x0A => some (⟨.push,[.reg (.general (if p.operand16 then 16 else 64) n)]⟩, bs)
  | 0x0B => some (⟨.pop,[.reg (.general (if p.operand16 then 16 else 64) n)]⟩, bs)
  | 0x16 => (signed 1 bs).map fun (v,rest) => (⟨.mov,[.reg (p.general 8 n), .imm 8 v]⟩, rest)
  | 0x17 =>
    (signed (p.width/8) bs).map fun (v,rest) =>
      (⟨.mov,[.reg (p.general p.width n), .imm p.width v]⟩, rest)
  | _ => none

/-- Immediates of the operand's width are at most four bytes long. -/
def immSize : ℕ := min 4 (p.width/8)

def oneByte (opcode : ℕ) (bs : List ℕ) : Option (Decoded × List ℕ) :=
  match opcode with
  | 0x01 => rmReg p .add p.width bs
  | 0x03 => regRm p .add p.width bs
  | 0x0F => twoByte p bs
  | 0x21 => rmReg p .and p.width bs
  | 0x2B => regRm p .sub p.width bs
  | 0x39 => rmReg p .cmp p.width bs
  | 0x3B => regRm p .cmp p.width bs
  | 0x6A => (signed 1 bs).map fun (v,rest) => (⟨.push,[.imm 64 v]⟩, rest)
  | 0x81 => rmImm p p.width bs arithmetic (immSize p) p.width
  | 0x83 => rmImm p p.width bs arithmetic 1 p.width
  | 0x88 => rmReg p .mov 8 bs
  | 0x89 => rmReg p .mov p.width bs
  | 0x8A => regRm p .mov 8 bs
  | 0x8B => regRm p .mov p.width bs
  | 0x8E =>
    (modRM p bs).map fun (reg,rm,rest) =>
      (⟨.mov,[.reg (.segment reg), rm.operand p 16]⟩, rest)
  | 0xC1 => rmImm p p.width bs (onlyAt 5 .shr) 1 8
  | 0xC3 => some (⟨.ret,[]⟩, bs)
  | 0xC6 => rmImm p 8 bs (onlyAt 0 .mov) 1 8
  | 0xC7 => rmImm p p.width bs (onlyAt 0 .mov) (immSize p) p.width
  | 0xCB => if p.width = 64 then some (⟨.retfq,[]⟩, bs) else none
  | 0xCF => if p.width = 64 then some (⟨.iretq,[]⟩, bs) else none
  | 0xE8 => distance .call bs
  | 0xE9 => distance .jmp bs
  | 0xEC => some (⟨.input,[.reg (.general 8 0), .reg (.general 16 2)]⟩, bs)
  | 0xED => some (⟨.input,[.reg (.general (min 32 p.width) 0), .reg (.general 16 2)]⟩, bs)
  | 0xEE => some (⟨.output,[.reg (.general 16 2), .reg (.general 8 0)]⟩, bs)
  | 0xEF => some (⟨.output,[.reg (.general 16 2), .reg (.general (min 32 p.width) 0)]⟩, bs)
  | 0xF3 =>
    match bs with
    | 0x90::rest => some (⟨.pause,[]⟩, rest)
    | _ => none
  | 0xF4 => some (⟨.hlt,[]⟩, bs)
  | 0xFA => some (⟨.cli,[]⟩, bs)
  | 0xFB => some (⟨.sti,[]⟩, bs)
  | 0xFF => rmOnly p 64 bs (onlyAt 2 .call)
  | _ => inOpcode p opcode bs

def decode (bs : List ℕ) : Option (Decoded × List ℕ) :=
  match splitPrefixes bs with
  | (_, []) => none
  | (p, opcode::rest) => oneByte p opcode rest

/-! ## What the parts of an encoding decode to -/

def Rex.byte (r : Rex) : ℕ := 0x40+8*r.w.toNat+4*r.r.toNat+2*r.x.toNat+r.b.toNat

theorem splitRex_byte (r : Rex) (bs : List ℕ) : splitRex (r.byte::bs) = (some r, bs) := by
  obtain ⟨w,r,x,b⟩ := r
  cases w <;> cases r <;> cases x <;> cases b <;> rfl

theorem splitRex_opcode {opcode : ℕ} (h : opcode/16 ≠ 4) (bs : List ℕ) :
    splitRex (opcode::bs) = (none, opcode::bs) := if_neg h

theorem splitPrefixes_of_ne {byte : ℕ} (h : byte ≠ 0x66) (bs : List ℕ) :
    splitPrefixes (byte::bs) = (⟨false,(splitRex (byte::bs)).1⟩, (splitRex (byte::bs)).2) := by
  unfold splitPrefixes
  split
  · rename_i heq
    exact absurd (List.cons.inj heq).1 h
  · rfl

theorem decode_encoded (operand16 : Bool) (rex : Option Rex) {opcode : ℕ} (h : opcode/16 ≠ 4)
    (h66 : opcode ≠ 0x66) (rest : List ℕ) :
    decode ((if operand16 then [0x66] else []) ++ ((rex.map Rex.byte).toList ++ opcode::rest)) =
      oneByte ⟨operand16,rex⟩ opcode rest := by
  have hsplit : splitRex ((rex.map Rex.byte).toList ++ opcode::rest) = (rex, opcode::rest) := by
    cases rex with
    | none => exact splitRex_opcode h rest
    | some r => exact splitRex_byte r (opcode::rest)
  have hprefixes : splitPrefixes ((if operand16 then [0x66] else []) ++
      ((rex.map Rex.byte).toList ++ opcode::rest)) = (⟨operand16,rex⟩, opcode::rest) := by
    cases operand16 with
    | true => simp [splitPrefixes, hsplit]
    | false =>
      simp only [Bool.false_eq_true, if_false, List.nil_append]
      cases rex with
      | none =>
        refine (splitPrefixes_of_ne h66 rest).trans ?_
        rw [splitRex_opcode h]
      | some r =>
        refine (splitPrefixes_of_ne ?_ _).trans ?_
        · obtain ⟨w,r,x,b⟩ := r
          cases w <;> cases r <;> cases x <;> cases b <;> decide
        · rw [splitRex_byte]
          rfl
  rw [decode, hprefixes]

theorem twoByte_branch {opcode : ℕ} (h : opcode/16 = 8) (bs : List ℕ) :
    twoByte p (opcode::bs) = distance (.jcc (opcode%16)) bs := if_pos h

section
variable (p : Prefixes) {n : ℕ} (h : n < 8) (bs : List ℕ)
include h

theorem oneByte_push :
    oneByte p (0x50+n) bs =
      some (⟨.push,[.reg (.general (if p.operand16 then 16 else 64) (p.extend Rex.b n))]⟩, bs) := by
  interval_cases n <;> rfl

theorem oneByte_pop :
    oneByte p (0x58+n) bs =
      some (⟨.pop,[.reg (.general (if p.operand16 then 16 else 64) (p.extend Rex.b n))]⟩, bs) := by
  interval_cases n <;> rfl

theorem oneByte_movByte :
    oneByte p (0xB0+n) bs =
      (signed 1 bs).map fun (v,rest) =>
        (⟨.mov,[.reg (p.general 8 (p.extend Rex.b n)), .imm 8 v]⟩, rest) := by
  interval_cases n <;> rfl

theorem oneByte_mov :
    oneByte p (0xB8+n) bs =
      (signed (p.width/8) bs).map fun (v,rest) =>
        (⟨.mov,[.reg (p.general p.width (p.extend Rex.b n)), .imm p.width v]⟩, rest) := by
  interval_cases n <;> rfl

end

section
variable (p : Prefixes) {mode reg rm : ℕ} (rest : List ℕ)

theorem modRM_register (hreg : reg < 8) (hrm : rm < 8) :
    modRM p ((64*3+8*reg+rm)::rest) = some (reg, .reg (p.extend Rex.b rm), rest) := by
  have h3 : (64*3+8*reg+rm)/64 = 3 := by omega
  have hlow : (64*3+8*reg+rm)%8 = rm := by omega
  have hfield : (64*3+8*reg+rm)/8%8 = reg := by omega
  simp [modRM, h3, hlow, hfield]

theorem modRM_base (hmode : mode < 3) (hreg : reg < 8) (hrm : rm < 8) (hsib : rm ≠ 4)
    (hbase : rm ≠ 5 ∨ mode ≠ 0) :
    modRM p ((64*mode+8*reg+rm)::rest) =
      (displacement mode (.register (p.extend Rex.b rm)) none rest).map
        fun (named,rest) => (reg, named, rest) := by
  have hm : (64*mode+8*reg+rm)/64 = mode := by omega
  have hlow : (64*mode+8*reg+rm)%8 = rm := by omega
  have hfield : (64*mode+8*reg+rm)/8%8 = reg := by omega
  simp only [modRM, hm, hlow, hfield]
  rw [if_neg (by omega), if_neg hsib, if_neg (by omega)]

theorem modRM_sib (hmode : mode < 3) (hreg : reg < 8) (hx : p.extend Rex.x 4 = 4) :
    modRM p ((64*mode+8*reg+4)::0x24::rest) =
      (displacement mode (.register (p.extend Rex.b 4)) none rest).map
        fun (named,rest) => (reg, named, rest) := by
  have hm : (64*mode+8*reg+4)/64 = mode := by omega
  have hlow : (64*mode+8*reg+4)%8 = 4 := by omega
  have hfield : (64*mode+8*reg+4)/8%8 = reg := by omega
  have hscaled : scaled p mode (0x24::rest) =
      displacement mode (.register (p.extend Rex.b 4)) none rest := by
    simp [scaled, hx]
  simp only [modRM, hm, hlow, hfield, hscaled]
  rw [if_neg (by omega), if_pos trivial]

end

end X86.Decode

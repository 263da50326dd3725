import Wrela.X86.Memory

/-!
# An x86-64 subset

Instructions with the operand forms a simple code generator uses, and what they
do to registers, flags and memory. Opcode bytes and condition codes stand as in
the instruction encoding. An instruction with no defined result here (a
division fault, a condition on undefined flags) stops the run.
-/

set_option autoImplicit false

namespace X86
open BitVec

inductive Reg where
  | rax | rcx | rdx | rbx | rsp | rbp | rsi | rdi
  | r8 | r9 | r10 | r11 | r12 | r13 | r14 | r15
  deriving DecidableEq, Repr

structure Flags where
  zf : Bool
  sf : Bool
  cf : Bool
  of : Bool
  deriving DecidableEq, Repr

structure State where
  reg : Reg → Word
  mem : Mem
  flags : Option Flags

/-- Sizes are in bytes. A displacement is the sign-extended 32-bit field.
`trapUnless` is a conditional jump over a call of a routine that never returns. -/
inductive Instr where
  | movImm (dst : Reg) (v : Word)
  | movReg (size : ℕ) (dst src : Reg)
  | load (size : ℕ) (dst base : Reg) (disp : BitVec 32)
  | store (size : ℕ) (base : Reg) (disp : BitVec 32) (src : Reg)
  | storeImm (base : Reg) (disp imm : BitVec 32)
  | alu (opcode : UInt8) (dst src : Reg)
  | addImm (dst : Reg) (imm : BitVec 32)
  | subImm (dst : Reg) (imm : BitVec 32)
  | cmpImm (dst : Reg) (imm : BitVec 32)
  | cmpMem (dst base : Reg) (disp : BitVec 32)
  | neg (dst : Reg)
  | imul (dst src : Reg)
  | mul (src : Reg)
  | div (src : Reg)
  | shiftImm (ext : UInt8) (dst : Reg) (amount : UInt8)
  | shiftCl (ext : UInt8) (size : ℕ) (dst : Reg)
  | setcc (opcode : UInt8) (dst : Reg)
  | loadByteIndexed (dst base index : Reg)
  | push (src : Reg)
  | pop (dst : Reg)
  | mfence
  | trapUnless (opcode : UInt8)
  deriving DecidableEq, Repr

variable (v : Word)

namespace State
variable (s : State)

def setReg (r : Reg) (v : Word) : State := {s with reg := Function.update s.reg r v}

def setMem (m : Mem) : State := {s with mem := m}

def setFlags (f : Option Flags) : State := {s with flags := f}

def address (base : Reg) (disp : BitVec 32) : Word := s.reg base+disp.signExtend 64

variable (r : Reg) (f : Option Flags)

@[simp] theorem setReg_reg : (s.setReg r v).reg = Function.update s.reg r v :=
  rfl
@[simp] theorem setReg_mem : (s.setReg r v).mem = s.mem := rfl
@[simp] theorem setReg_flags : (s.setReg r v).flags = s.flags := rfl
@[simp] theorem setMem_reg (m : Mem) : (s.setMem m).reg = s.reg := rfl
@[simp] theorem setMem_mem (m : Mem) : (s.setMem m).mem = m := rfl
@[simp] theorem setMem_flags (m : Mem) : (s.setMem m).flags = s.flags := rfl
@[simp] theorem setFlags_reg : (s.setFlags f).reg = s.reg := rfl
@[simp] theorem setFlags_mem : (s.setFlags f).mem = s.mem := rfl
@[simp] theorem setFlags_flags : (s.setFlags f).flags = f := rfl

@[simp] theorem setReg_setReg (w : Word) : (s.setReg r v).setReg r w = s.setReg r w := by
  simp [setReg]

end State

/-- A register after a write of its low `size` bytes: a doubleword clears the
upper half, smaller writes keep the rest. -/
def writeLow (size : ℕ) (old v : Word) : Word :=
  if size = 8 then v
  else if size = 4 then lowBytes 4 v
  else ((old >>> (8*size)) <<< (8*size)) ||| lowBytes size v

def logicFlags : Flags := ⟨v = 0,v.msb,false,false⟩

def addFlags (a b : Word) : Flags :=
  ⟨a+b = 0,(a+b).msb,2^64 ≤ a.toNat+b.toNat,(a+b).toInt ≠ a.toInt+b.toInt⟩

def subFlags (a b : Word) : Flags :=
  ⟨a-b = 0,(a-b).msb,a.toNat < b.toNat,(a-b).toInt ≠ a.toInt-b.toInt⟩

/-- The two-operand instructions `opcode /r` on quadwords: the new destination
and the flags. -/
def aluResult (opcode : UInt8) (a b : Word) : Option (Word × Flags) :=
  if opcode = 0x01 then some (a+b, addFlags a b)
  else if opcode = 0x09 then some (a ||| b, logicFlags (a ||| b))
  else if opcode = 0x21 then some (a &&& b, logicFlags (a &&& b))
  else if opcode = 0x29 then some (a-b, subFlags a b)
  else if opcode = 0x31 then some (a ^^^ b, logicFlags (a ^^^ b))
  else if opcode = 0x39 then some (a, subFlags a b)
  else none

/-- The condition named by the low four bits of a setcc or jcc opcode. -/
def holds (opcode : UInt8) (f : Flags) : Bool :=
  match opcode &&& 0xF with
  | 0x2 => f.cf
  | 0x3 => !f.cf
  | 0x4 => f.zf
  | 0x5 => !f.zf
  | 0x6 => f.cf || f.zf
  | 0x7 => !(f.cf || f.zf)
  | 0xC => f.sf != f.of
  | 0xD => f.sf == f.of
  | 0xE => f.zf || f.sf != f.of
  | 0xF => !f.zf && f.sf == f.of
  | _ => false

/-- Shifts by the opcode extension: 4 left, 5 right. The count is taken modulo
the operand's width. -/
def shiftResult (ext : UInt8) (size : ℕ) (v : Word) (count : ℕ) : Word :=
  let n := count%(8*size)
  if ext = 4 then lowBytes size (v <<< n) else lowBytes size v >>> n

/-- Unsigned division of rdx:rax; a zero divisor or a quotient that does not
fit faults. -/
def divResult (hi lo d : Word) : Option (Word × Word) :=
  let n := hi.toNat*2^64+lo.toNat
  if d = 0 ∨ 2^64 ≤ n/d.toNat then none
  else some (BitVec.ofNat 64 (n/d.toNat), BitVec.ofNat 64 (n%d.toNat))

def exec (s : State) : Instr → Option State
  | .movImm dst v => some (s.setReg dst v)
  | .movReg size dst src => some (s.setReg dst (writeLow size (s.reg dst) (s.reg src)))
  | .load size dst base disp =>
    some (s.setReg dst (writeLow size (s.reg dst) (load s.mem (s.address base disp) size)))
  | .store size base disp src =>
    some (s.setMem (store s.mem (s.address base disp) size (s.reg src)))
  | .storeImm base disp imm =>
    some (s.setMem (store s.mem (s.address base disp) 8 (imm.signExtend 64)))
  | .alu opcode dst src =>
    (aluResult opcode (s.reg dst) (s.reg src)).map fun (v, f) => (s.setReg dst v).setFlags f
  | .addImm dst imm =>
    some ((s.setReg dst (s.reg dst+imm.signExtend 64)).setFlags
      (addFlags (s.reg dst) (imm.signExtend 64)))
  | .subImm dst imm =>
    some ((s.setReg dst (s.reg dst-imm.signExtend 64)).setFlags
      (subFlags (s.reg dst) (imm.signExtend 64)))
  | .cmpImm dst imm => some (s.setFlags (subFlags (s.reg dst) (imm.signExtend 64)))
  | .cmpMem dst base disp =>
    some (s.setFlags (subFlags (s.reg dst) (load s.mem (s.address base disp) 8)))
  | .neg dst => some ((s.setReg dst (-s.reg dst)).setFlags none)
  | .imul dst src => some ((s.setReg dst (s.reg dst*s.reg src)).setFlags none)
  | .mul src =>
    let n := (s.reg .rax).toNat*(s.reg src).toNat
    some (((s.setReg .rax (BitVec.ofNat 64 n)).setReg .rdx (BitVec.ofNat 64 (n/2^64))).setFlags none)
  | .div src =>
    (divResult (s.reg .rdx) (s.reg .rax) (s.reg src)).map fun (q, r) =>
      ((s.setReg .rax q).setReg .rdx r).setFlags none
  | .shiftImm ext dst amount =>
    some ((s.setReg dst (shiftResult ext 8 (s.reg dst) amount.toNat)).setFlags none)
  | .shiftCl ext size dst =>
    some ((s.setReg dst (shiftResult ext size (s.reg dst) (s.reg .rcx).toNat)).setFlags none)
  | .setcc opcode dst =>
    s.flags.map fun f =>
      s.setReg dst (writeLow 1 (s.reg dst) (if holds opcode f then 1 else 0))
  | .loadByteIndexed dst base index =>
    some (s.setReg dst (load s.mem (s.reg base+s.reg index) 1))
  | .push src =>
    some ((s.setMem (store s.mem (s.reg .rsp-8) 8 (s.reg src))).setReg .rsp (s.reg .rsp-8))
  | .pop dst =>
    some ((s.setReg .rsp (s.reg .rsp+8)).setReg dst (load s.mem (s.reg .rsp) 8))
  | .mfence => some s
  | .trapUnless opcode => s.flags.bind fun f => if holds opcode f then some s else none

def run (s : State) : List Instr → Option State
  | [] => some s
  | i::is => (exec s i).bind fun t => run t is

variable (s : State)

@[simp] theorem run_nil : run s [] = some s := rfl

theorem run_cons (i : Instr) (is : List Instr) :
    run s (i::is) = (exec s i).bind fun t => run t is := rfl

theorem run_append (is js : List Instr) : run s (is++js) = (run s is).bind fun t => run t js := by
  induction is generalizing s with
  | nil => rfl
  | cons i is ih =>
    simp only [List.cons_append, run]
    cases exec s i with
    | none => rfl
    | some t => exact ih t

theorem run_append_some {s t : State} {is js : List Instr} (h : run s is = some t) :
    run s (is++js) = run t js := by
  rw [run_append, h, Option.bind_some]

def outcome (s : State) : List Instr → Except State State
  | [] => .ok s
  | i::is =>
    match exec s i with
    | none => .error s
    | some t => outcome t is

theorem outcome_append (is js : List Instr) :
    outcome s (is++js) = (outcome s is).bind fun t => outcome t js := by
  induction is generalizing s with
  | nil => rfl
  | cons i is ih =>
    simp only [List.cons_append, outcome]
    cases exec s i with
    | none => rfl
    | some t => exact ih t

theorem outcome_append_error {s t : State} {is : List Instr} (h : outcome s is = .error t)
    (js : List Instr) : outcome s (is++js) = .error t := by
  rw [outcome_append, h]
  rfl

theorem outcome_of_run {s t : State} {is : List Instr} (h : run s is = some t) :
    outcome s is = .ok t := by
  induction is generalizing s with
  | nil =>
    simp only [run_nil, Option.some.injEq] at h
    rw [h]
    rfl
  | cons i is ih =>
    obtain ⟨u,hu,h⟩ := Option.bind_eq_some_iff.mp h
    rw [outcome, hu]
    exact ih h

section
variable (a b v old : Word)

theorem writeLow_eight : writeLow 8 old v = v := rfl

theorem writeLow_zero (size : ℕ) : writeLow size 0 v = lowBytes size v := by
  rw [writeLow]
  split_ifs with h8 h4
  · rw [h8, lowBytes_eight]
  · rw [h4]
  · simp

theorem byteOf_writeLow (size k : ℕ) (hk : k < size) (h8 : size ≤ 8) :
    byteOf (writeLow size old v) k = byteOf v k := by
  rw [writeLow]
  split_ifs with h1 h2
  · rfl
  · rw [byteOf_lowBytes v 4 k (by omega), if_pos (by omega)]
  · rw [byteOf_or, byteOf_lowBytes v size k (by omega), if_pos hk]
    have hz : byteOf ((old >>> (8*size)) <<< (8*size)) k = 0 := by
      ext i hi
      simp only [byteOf, getElem_setWidth, getLsbD_ushiftRight, getLsbD_shiftLeft]
      simp [show 8*k+i < 8*size by omega]
    rw [hz]
    exact zero_or

theorem sub_eq_zero_iff : a-b = 0 ↔ a = b := by
  constructor
  · intro h
    bv_omega
  · rintro rfl
    exact BitVec.sub_self a

/-- After a comparison, sign and overflow differ when the left operand is the
smaller one as a signed number. -/
theorem subFlags_less : ((subFlags a b).sf != (subFlags a b).of) = decide (a.toInt < b.toInt) := by
  have hd : (a-b).toInt = a.toInt-b.toInt ∨ (a-b).toInt = a.toInt-b.toInt+2^64 ∨
      (a-b).toInt = a.toInt-b.toInt-2^64 := by
    simp only [toInt_eq_toNat_cond, toNat_sub]
    omega
  have ha := a.toInt_lt
  have ha' := a.le_toInt
  have hb := b.toInt_lt
  have hb' := b.le_toInt
  have hx := (a-b).toInt_lt
  have hx' := (a-b).le_toInt
  -- without overflow the sign is that of the difference, with it the opposite
  simp only [subFlags, msb_eq_toInt]
  generalize (a-b).toInt = x at *
  by_cases hl : a.toInt < b.toInt <;> by_cases hs : x < 0 <;>
    by_cases ho : x = a.toInt-b.toInt <;> simp [hl, hs, ho] <;> omega

theorem subFlags_notLess :
    ((subFlags a b).sf == (subFlags a b).of) = !decide (a.toInt < b.toInt) := by
  rw [← subFlags_less, bne, Bool.not_not]

theorem subFlags_equal : (subFlags a b).zf = decide (a = b) := by
  simp only [subFlags, sub_eq_zero_iff]

end

/-! ### A processor with its local APIC -/

/-- An interrupt that was sent: the APIC it goes to, and the low half of the
command register. -/
structure Command where
  destination : Word
  low : Word
  deriving DecidableEq, Repr

def icrLow : Word := 0x300

def icrHigh : Word := 0x310

def apicBaseMsr : Word := 0x1B

def x2apicIcrMsr : Word := 0x830

/-- Where the registers are mapped, the base MSR, and how many reads show the
interrupt that is sent after `n` others as pending. -/
structure LocalApic where
  base : Word
  baseMsr : Word
  delay : ℕ → ℕ

structure Machine where
  cpu : State
  sent : List Command
  pending : ℕ

inductive Routine where
  | block (is : List Instr)
  | lapicWrite (base : Reg) (offset : BitVec 32) (src : Reg)
  | lapicRead (dst base : Reg) (offset : BitVec 32)
  | rdmsr
  | wrmsr
  | testEax (imm : BitVec 32)
  | seq (a b : Routine)
  /-- A forward jump: one branch runs when the condition holds. -/
  | branch (opcode : UInt8) (taken other : Routine)
  | loopUntil (body : Routine) (opcode : UInt8)

namespace LocalApic
variable (apic : LocalApic) (m : Machine)

/-- A doubleword store to an APIC register; one to the low half of the command
register sends the interrupt. -/
def write (base : Reg) (offset : BitVec 32) (src : Reg) : Machine :=
  let cpu := m.cpu.setMem (store m.cpu.mem (m.cpu.address base offset) 4 (m.cpu.reg src))
  if m.cpu.address base offset = apic.base+icrLow then
    ⟨cpu,⟨load m.cpu.mem (apic.base+icrHigh) 4 >>> 24,lowBytes 4 (m.cpu.reg src)⟩::m.sent,
      apic.delay m.sent.length⟩
  else {m with cpu := cpu}

/-- A doubleword load from an APIC register; bit 12 of the command register is
the delivery status. -/
def read (dst base : Reg) (offset : BitVec 32) : Machine :=
  let value := load m.cpu.mem (m.cpu.address base offset) 4
  if m.cpu.address base offset = apic.base+icrLow then
    { m with
      cpu := m.cpu.setReg dst ((value &&& ~~~0x1000) ||| (if m.pending = 0 then 0 else 0x1000))
      pending := m.pending-1 }
  else {m with cpu := m.cpu.setReg dst value}

variable {apic m} {dst base src : Reg} {offset : BitVec 32}

theorem write_icrLow (h : m.cpu.address base offset = apic.base+icrLow) :
    apic.write m base offset src =
      ⟨m.cpu.setMem (store m.cpu.mem (apic.base+icrLow) 4 (m.cpu.reg src)),
        ⟨load m.cpu.mem (apic.base+icrHigh) 4 >>> 24,lowBytes 4 (m.cpu.reg src)⟩::m.sent,
        apic.delay m.sent.length⟩ := by
  rw [write, h, if_pos rfl]

theorem write_other (h : m.cpu.address base offset ≠ apic.base+icrLow) :
    apic.write m base offset src =
      ⟨m.cpu.setMem (store m.cpu.mem (m.cpu.address base offset) 4 (m.cpu.reg src)),m.sent,
        m.pending⟩ := by
  rw [write, if_neg h]

theorem read_icrLow (h : m.cpu.address base offset = apic.base+icrLow) :
    apic.read m dst base offset =
      ⟨m.cpu.setReg dst ((load m.cpu.mem (apic.base+icrLow) 4 &&& ~~~0x1000) |||
        (if m.pending = 0 then 0 else 0x1000)),m.sent,m.pending-1⟩ := by
  rw [read, h, if_pos rfl]

variable (apic m)

def rdmsr : Option Machine :=
  if lowBytes 4 (m.cpu.reg .rcx) = apicBaseMsr then
    some {m with
      cpu := (m.cpu.setReg .rax (lowBytes 4 apic.baseMsr)).setReg .rdx (apic.baseMsr >>> 32)}
  else none

end LocalApic

/-- Only the command register of the x2APIC is written. -/
def Machine.wrmsr (m : Machine) : Option Machine :=
  if lowBytes 4 (m.cpu.reg .rcx) = x2apicIcrMsr then
    some {m with
      sent := ⟨lowBytes 4 (m.cpu.reg .rdx),lowBytes 4 (m.cpu.reg .rax)⟩::m.sent}
  else none

def testFlags (v : Word) : Flags := ⟨v = 0,v.getLsbD 31,false,false⟩

section
variable (apic : LocalApic)

inductive Routine.Runs : Routine → Machine → Machine → Prop
  | block {is : List Instr} {m : Machine} {t : State} (h : run m.cpu is = some t) :
      Runs (.block is) m {m with cpu := t}
  | lapicWrite (base : Reg) (offset : BitVec 32) (src : Reg) (m : Machine) :
      Runs (.lapicWrite base offset src) m (apic.write m base offset src)
  | lapicRead (dst base : Reg) (offset : BitVec 32) (m : Machine) :
      Runs (.lapicRead dst base offset) m (apic.read m dst base offset)
  | rdmsr {m m' : Machine} (h : apic.rdmsr m = some m') : Runs .rdmsr m m'
  | wrmsr {m m' : Machine} (h : m.wrmsr = some m') : Runs .wrmsr m m'
  | testEax (imm : BitVec 32) (m : Machine) :
      Runs (.testEax imm) m {m with
        cpu := m.cpu.setFlags (testFlags (lowBytes 4 (m.cpu.reg .rax) &&& imm.setWidth 64))}
  | seq {a b : Routine} {m m' m'' : Machine} (ha : Runs a m m') (hb : Runs b m' m'') :
      Runs (.seq a b) m m''
  | taken {opcode : UInt8} {a b : Routine} {m m' : Machine} {f : Flags}
      (hf : m.cpu.flags = some f) (hc : holds opcode f) (h : Runs a m m') :
      Runs (.branch opcode a b) m m'
  | other {opcode : UInt8} {a b : Routine} {m m' : Machine} {f : Flags}
      (hf : m.cpu.flags = some f) (hc : holds opcode f = false) (h : Runs b m m') :
      Runs (.branch opcode a b) m m'
  | done {opcode : UInt8} {body : Routine} {m m' : Machine} {f : Flags} (h : Runs body m m')
      (hf : m'.cpu.flags = some f) (hc : holds opcode f) : Runs (.loopUntil body opcode) m m'
  | again {opcode : UInt8} {body : Routine} {m m' m'' : Machine} {f : Flags} (h : Runs body m m')
      (hf : m'.cpu.flags = some f) (hc : holds opcode f = false)
      (rest : Runs (.loopUntil body opcode) m' m'') : Runs (.loopUntil body opcode) m m''

variable {apic} {a b : Routine} {m m' m'' : Machine}

theorem Routine.Runs.unique (h : a.Runs apic m m') (h' : a.Runs apic m m'') : m' = m'' := by
  induction h generalizing m'' with
  | block h =>
    cases h' with
    | block h1 =>
      rw [h] at h1
      cases h1
      rfl
  | lapicWrite | lapicRead | testEax =>
    cases h'
    rfl
  | rdmsr h =>
    cases h' with
    | rdmsr h1 => exact Option.some.inj (h.symm.trans h1)
  | wrmsr h =>
    cases h' with
    | wrmsr h1 => exact Option.some.inj (h.symm.trans h1)
  | seq _ _ iha ihb =>
    cases h' with
    | seq ha hb =>
      cases iha ha
      exact ihb hb
  | taken hf hc _ ih =>
    cases h' with
    | taken _ _ h1 => exact ih h1
    | other hf1 hc1 _ =>
      cases hf.symm.trans hf1
      rw [hc] at hc1
      cases hc1
  | other hf hc _ ih =>
    cases h' with
    | other _ _ h1 => exact ih h1
    | taken hf1 hc1 _ =>
      cases hf.symm.trans hf1
      rw [hc] at hc1
      cases hc1
  | done _ hf hc ih =>
    cases h' with
    | done h1 _ _ => exact ih h1
    | again h1 hf1 hc1 _ =>
      cases ih h1
      cases hf.symm.trans hf1
      rw [hc] at hc1
      cases hc1
  | again _ hf hc _ ih ihrest =>
    cases h' with
    | done h1 hf1 hc1 =>
      cases ih h1
      cases hf.symm.trans hf1
      rw [hc] at hc1
      cases hc1
    | again h1 _ _ rest =>
      cases ih h1
      exact ihrest rest

end

end X86

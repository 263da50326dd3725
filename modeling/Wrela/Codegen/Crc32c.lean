import Wrela.Codegen.ControlFlow
import Wrela.Storage.Format

/-!
# The checksum routine

A routine of its own computes the Castagnoli checksum of the rsi bytes at rdi,
one bit after the other, and returns it in rax. The closing `ret` is the end of
the code.
-/

set_option autoImplicit false

namespace Wrela.Codegen.Crc32c
open X86 StorageFormat List BitVec Function Emitter

variable {s : State} {crc : UInt32}

def start : List Instr := emitMovImmToReg .rax 0xffffffff++emitMovImmToReg .rdx 0

def byteTest : List Instr := emitCmpRegReg .rdx .rsi

def loadByte : List Instr :=
  emitRegRegMove .r11 .rdi++emitRegRegOp 0x01 .r11 .rdx++emitMovImmToReg .rcx 0++
    emitLoadMemToReg .rcx .r11 0 8++emitRegRegOp 0x31 .rax .rcx++emitMovImmToReg .r9 0

def bitTest : List Instr := emitCmpRegImm .r9 8

def lowBit : List Instr :=
  emitRegRegMove .r8 .rax++emitMovImmToReg .rcx 1++emitRegRegOp 0x21 .r8 .rcx++emitCmpRegImm .r8 0

def shiftPoly : List Instr :=
  emitShiftImm 0x05 .rax 1++emitMovImmToReg .r8 0x82f63b78++emitRegRegOp 0x31 .rax .r8

def shift : List Instr := emitShiftImm 0x05 .rax 1

def nextBit : List Instr := emitAddImm .r9 1

def nextByte : List Instr := emitAddImm .rdx 1

def finish : List Instr := emitMovImmToReg .r8 0xffffffff++emitRegRegOp 0x31 .rax .r8

def emitter (enc : Encoding) : Emitter :=
  let e : Emitter := ⟨[],[]⟩
  let byteLoop := e.newLabel .crc32cByte
  let bitLoop := e.newLabel .crc32cBit
  let noPoly := e.newLabel .crc32cNoPoly
  let bitNext := e.newLabel .crc32cBitNext
  let byteDone := e.newLabel .crc32cByteDone
  let done := e.newLabel .crc32cDone
  let e := (e.emitCode start).bindLabel enc byteLoop
  let e := ((e.emitCode byteTest).emit [.jcc 0x83 done]).emitCode loadByte
  let e := (e.bindLabel enc bitLoop).emitCode bitTest
  let e := ((e.emit [.jcc 0x83 byteDone]).emitCode lowBit).emit [.jcc 0x84 noPoly]
  let e := (e.emitCode shiftPoly).emit [.jmp bitNext]
  let e := (e.bindLabel enc noPoly).emitCode shift
  let e := ((e.bindLabel enc bitNext).emitCode nextBit).emit [.jmp bitLoop]
  let e := ((e.bindLabel enc byteDone).emitCode nextByte).emit [.jmp byteLoop]
  (e.bindLabel enc done).emitCode finish

def compileStorageCRC32CHelperUnit (enc : Encoding) : Except Diagnostic (List (Item ℤ)) :=
  resolveJumps enc (emitter enc).lookup 0 (emitter enc).code

section

-- The code up to each of the blocks and jumps, in order.

def toByte : List (Item Label) := start.map .instr

def toByteJump : List (Item Label) := toByte++byteTest.map .instr

def toLoad : List (Item Label) := toByteJump++[.jcc 0x83 ⟨.crc32cDone,0⟩]

def toBit : List (Item Label) := toLoad++loadByte.map .instr

def toBitJump : List (Item Label) := toBit++bitTest.map .instr

def toLowBit : List (Item Label) := toBitJump++[.jcc 0x83 ⟨.crc32cByteDone,0⟩]

def toLowJump : List (Item Label) := toLowBit++lowBit.map .instr

def toPoly : List (Item Label) := toLowJump++[.jcc 0x84 ⟨.crc32cNoPoly,0⟩]

def toPolyEnd : List (Item Label) := toPoly++shiftPoly.map .instr

def toNoPoly : List (Item Label) := toPolyEnd++[.jmp ⟨.crc32cBitNext,0⟩]

def toBitNext : List (Item Label) := toNoPoly++shift.map .instr

def toBitEnd : List (Item Label) := toBitNext++nextBit.map .instr

def toByteDone : List (Item Label) := toBitEnd++[.jmp ⟨.crc32cBit,0⟩]

def toByteEnd : List (Item Label) := toByteDone++nextByte.map .instr

def toDone : List (Item Label) := toByteEnd++[.jmp ⟨.crc32cByte,0⟩]

def items : List (Item Label) := toDone++finish.map .instr

variable (enc : Encoding)

theorem emitter_code : (emitter enc).code = items := rfl

theorem emitter_labels : (emitter enc).labels = [(⟨.crc32cDone,0⟩,enc.size toDone),
    (⟨.crc32cByteDone,0⟩,enc.size toByteDone),(⟨.crc32cBitNext,0⟩,enc.size toBitNext),
    (⟨.crc32cNoPoly,0⟩,enc.size toNoPoly),(⟨.crc32cBit,0⟩,enc.size toBit),
    (⟨.crc32cByte,0⟩,enc.size toByte)] := by
  simp only [emitter, newLabel, bindLabel, emit, emitCode,
    nil_append, length_nil, filter_nil]
  rfl

/-- The code before a label. -/
def codeBefore : LabelKind → Option (List (Item Label))
  | .crc32cByte => some toByte
  | .crc32cBit => some toBit
  | .crc32cNoPoly => some toNoPoly
  | .crc32cBitNext => some toBitNext
  | .crc32cByteDone => some toByteDone
  | .crc32cDone => some toDone
  | _ => none

theorem lookup_label (kind : LabelKind) {is : List (Item Label)} (h : codeBefore kind = some is) :
    (emitter enc).lookup ⟨kind,0⟩ = some (enc.size is) := by
  rw [Emitter.lookup, emitter_labels]
  cases kind <;> cases h <;> rfl

end

def word (crc : UInt32) : Word := crc.toBitVec.setWidth 64

section
variable (a b : UInt32)

theorem toNat_word : (word a).toNat = a.toNat := by
  have h := a.toNat_lt
  rw [word, toNat_setWidth, UInt32.toNat_toBitVec, Nat.mod_eq_of_lt (by omega)]

theorem word_inj : word a = word b ↔ a = b := by
  rw [← toNat_inj, toNat_word, toNat_word, UInt32.toNat_inj]

theorem word_xor : word a ^^^ word b = word (a ^^^ b) := by
  simp [word, setWidth_xor]

theorem word_and : word a &&& word b = word (a &&& b) := by
  simp [word, setWidth_and]

theorem word_shift : word a >>> 1 = word (a >>> 1) := by
  apply eq_of_toNat_eq
  rw [toNat_ushiftRight, toNat_word, toNat_word, UInt32.toNat_shiftRight]
  rfl

theorem word_lowBit : word a &&& 1 = 0 ↔ a &&& 1 = 0 := by
  rw [show (1 : Word) = word 1 from rfl, show (0 : Word) = word 0 from rfl, word_and, word_inj]

theorem load_byte (m : Mem) (x : Word) : load m x 1 = word (UInt8.ofBitVec (m x)).toUInt32 := by
  rw [load, load, show (0 : Word) <<< 8 = 0 from rfl]
  exact or_zero

end

theorem run_byteTest (s : State) :
    ∃ t f, run s byteTest = some t ∧ t.flags = some f ∧
      (holds 0x83 f ↔ (s.reg .rsi).toNat ≤ (s.reg .rdx).toNat) ∧ Changes s t [] := by
  refine ⟨_,_,rfl,rfl,holds_notBelow _ _,rfl,fun r _ => ?_⟩
  simp

theorem run_loadByte (hrax : s.reg .rax = word crc) :
    ∃ t, run s loadByte = some t ∧ t.reg .r9 = 0 ∧
      t.reg .rax = word (crc ^^^ (UInt8.ofBitVec (s.mem (s.reg .rdi+s.reg .rdx))).toUInt32) ∧
      Changes s t [.rax,.rcx,.r9,.r11] := by
  refine ⟨_,rfl,rfl,?_,rfl,fun r hr => by simp_all⟩
  rw [← word_xor, ← load_byte, ← hrax]
  simp only [update_self, update_of_ne, ne_eq, reduceCtorEq, not_false_eq_true,
    State.setReg_reg, State.setFlags_reg, State.setReg_mem, State.setFlags_mem, writeLow_eight,
    State.address]
  rw [show (disp32 0).signExtend 64 = 0#64 from rfl, BitVec.add_zero, writeLow_zero, lowBytes_load]

theorem accesses_loadByte (s : State) :
    runAccesses s loadByte = [.read (s.reg .rdi+s.reg .rdx)] := by
  have h : runAccesses s loadByte = [.read (s.reg .rdi+s.reg .rdx+(disp32 0).signExtend 64)] := rfl
  rw [h, show (disp32 0).signExtend 64 = 0#64 from rfl, BitVec.add_zero]

theorem run_bitTest (s : State) :
    ∃ t f, run s bitTest = some t ∧ t.flags = some f ∧
      (holds 0x83 f ↔ 8 ≤ (s.reg .r9).toNat) ∧ Changes s t [] :=
  ⟨_,_,rfl,rfl,holds_notBelow _ _,rfl,fun _ _ => rfl⟩

section
variable (hrax : s.reg .rax = word crc)
include hrax

theorem run_lowBit :
    ∃ t f, run s lowBit = some t ∧ t.flags = some f ∧ (holds 0x84 f ↔ crc &&& 1 = 0) ∧
      Changes s t [.rcx,.r8] := by
  refine ⟨_,_,rfl,rfl,?_,rfl,fun r hr => by simp_all⟩
  rw [holds_equal, ← word_lowBit, ← hrax]
  simp [writeLow_eight, disp32]

theorem run_shiftPoly :
    ∃ t, run s shiftPoly = some t ∧ t.reg .rax = word ((crc >>> 1) ^^^ castagnoli) ∧
      Changes s t [.rax,.r8] := by
  refine ⟨_,rfl,?_,rfl,fun r hr => by simp_all⟩
  rw [← word_xor, ← word_shift, ← hrax]
  simp [shiftResult, lowBytes_eight]
  rfl

theorem run_shift :
    ∃ t, run s shift = some t ∧ t.reg .rax = word (crc >>> 1) ∧ Changes s t [.rax] := by
  refine ⟨_,rfl,?_,rfl,fun r hr => by simp_all⟩
  rw [← word_shift, ← hrax]
  simp [shiftResult, lowBytes_eight]

end

theorem run_next (s : State) (r : Reg) :
    ∃ t, run s (emitAddImm r 1) = some t ∧ t.reg r = s.reg r+1 ∧ Changes s t [r] := by
  refine ⟨_,rfl,?_,rfl,fun r hr => by simp_all⟩
  simp
  rfl

theorem run_finish (hrax : s.reg .rax = word crc) :
    ∃ t, run s finish = some t ∧ t.reg .rax = word (crc ^^^ 0xffffffff) ∧
      Changes s t [.rax,.r8] := by
  refine ⟨_,rfl,?_,rfl,fun r hr => by simp_all⟩
  rw [← word_xor, ← hrax]
  simp
  rfl

section
variable {enc : Encoding} {code : List (Item ℤ)}

section
variable (hres : resolveJumps enc (emitter enc).lookup 0 items = .ok code)
include hres

theorem poly_step (hrax : s.reg .rax = word crc) :
    ∃ t, enc.Performs code (enc.size toLowBit, s) (enc.size toBitNext, t) [] ∧
      t.reg .rax = word (crcBit crc) ∧ Changes s t [.rax,.rcx,.r8] := by
  obtain ⟨s1,f,h1,hf,hb,c1⟩ := run_lowBit hrax
  have hrax1 := (c1.reg .rax (by decide)).trans hrax
  have r1 := (show Stands items toLowBit (lowBit.map .instr) by decide).run hres h1 (by decide)
  have r2 := (show Stands items toLowJump [.jcc 0x84 ⟨.crc32cNoPoly,0⟩] by decide).jcc hres
    (lookup_label enc .crc32cNoPoly rfl) hf
  have r := r1.trans r2
  rw [crcBit]
  by_cases hlow : crc &&& 1 = 0
  · rw [if_pos (hb.mpr hlow)] at r
    obtain ⟨t,h,hrax,c⟩ := run_shift hrax1
    have r3 := (show Stands items toNoPoly (shift.map .instr) by decide).run hres h (by decide)
    refine ⟨t,r.trans r3,?_,(c1.trans c).mono (by decide)⟩
    rw [if_pos hlow, hrax]
  · rw [if_neg (fun h => hlow (hb.mp h))] at r
    obtain ⟨t,h,hrax,c⟩ := run_shiftPoly hrax1
    have r3 := (show Stands items toPoly (shiftPoly.map .instr) by decide).run hres h (by decide)
    have r4 := (show Stands items toPolyEnd [.jmp ⟨.crc32cBitNext,0⟩] by decide).jmp (s := t) hres
      (lookup_label enc .crc32cBitNext rfl)
    refine ⟨t,(r.trans r3).trans r4,?_,(c1.trans c).mono (by decide)⟩
    rw [if_neg hlow, hrax]

theorem bit_turn (hk : (s.reg .r9).toNat < 8) (hrax : s.reg .rax = word crc) :
    ∃ t, enc.Performs code (enc.size toBit, s) (enc.size toBit, t) [] ∧
      t.reg .r9 = s.reg .r9+1 ∧ t.reg .rax = word (crcBit crc) ∧ Changes s t [.rax,.rcx,.r8,.r9] := by
  obtain ⟨s1,f,h1,hf,hb,c1⟩ := run_bitTest s
  obtain ⟨s2,r3,hrax2,c2⟩ := poly_step hres ((c1.reg .rax (by decide)).trans hrax)
  obtain ⟨t,h,hr9,c⟩ := run_next s2 .r9
  have r1 := (show Stands items toBit (bitTest.map .instr) by decide).run hres h1 (by decide)
  have r2 := (show Stands items toBitJump [.jcc 0x83 ⟨.crc32cByteDone,0⟩] by decide).jcc hres
    (lookup_label enc .crc32cByteDone rfl) hf
  rw [if_neg (by rw [hb]; omega)] at r2
  have r4 := (show Stands items toBitNext (nextBit.map .instr) by decide).run hres h (by decide)
  have r5 := (show Stands items toBitEnd [.jmp ⟨.crc32cBit,0⟩] by decide).jmp (s := t) hres
    (lookup_label enc .crc32cBit rfl)
  refine ⟨t,(((r1.trans r2).trans r3).trans r4).trans r5,?_,?_,
    ((c1.trans c2).trans c).mono (by decide)⟩
  · rw [hr9, c2.reg .r9 (by decide), c1.reg .r9 (by decide)]
  · rw [c.reg .rax (by decide), hrax2]

theorem bit_loop {n : ℕ}
    (hn : n ≤ 8) (hr9 : s.reg .r9 = BitVec.ofNat 64 (8-n)) (hrax : s.reg .rax = word crc) :
    ∃ t, enc.Performs code (enc.size toBit, s) (enc.size toByteDone, t) [] ∧
      t.reg .rax = word (Nat.iterate crcBit n crc) ∧ Changes s t [.rax,.rcx,.r8,.r9] := by
  induction n generalizing s crc with
  | zero =>
    obtain ⟨t,f,h,hf,hb,c⟩ := run_bitTest s
    have r1 := (show Stands items toBit (bitTest.map .instr) by decide).run hres h (by decide)
    have r2 := (show Stands items toBitJump [.jcc 0x83 ⟨.crc32cByteDone,0⟩] by decide).jcc hres
      (lookup_label enc .crc32cByteDone rfl) hf
    rw [if_pos (by rw [hb, hr9]; decide)] at r2
    exact ⟨t,r1.trans r2,(c.reg .rax (by decide)).trans hrax,c.mono (by decide)⟩
  | succ n ih =>
    obtain ⟨s1,r1,hr9',hrax1,c1⟩ := bit_turn hres
      (by rw [hr9, toNat_ofNat]; omega) hrax
    obtain ⟨t,r,hrax,c⟩ := ih (by omega) (by
      rw [hr9', hr9, show 8-n = 8-(n+1)+1 by omega, ofNat_add]
      rfl) hrax1
    refine ⟨t,r1.trans r,?_,(c1.trans c).mono (by decide)⟩
    rw [hrax, iterate_succ_apply]

end

def clobbered : List Reg := [.rax,.rcx,.rdx,.r8,.r9,.r11]

section
variable (hres : resolveJumps enc (emitter enc).lookup 0 items = .ok code)
include hres

theorem byte_turn (hi : (s.reg .rdx).toNat < (s.reg .rsi).toNat) (hrax : s.reg .rax = word crc) :
    ∃ t, enc.Performs code (enc.size toByte, s) (enc.size toByte, t)
        [.read (s.reg .rdi+s.reg .rdx)] ∧ t.reg .rdx = s.reg .rdx+1 ∧
      t.reg .rax = word (crcByte crc (UInt8.ofBitVec (s.mem (s.reg .rdi+s.reg .rdx)))) ∧
      Changes s t clobbered := by
  obtain ⟨s1,f,h1,hf,hb,c1⟩ := run_byteTest s
  obtain ⟨s2,h2,hr9,hrax2,c2⟩ := run_loadByte ((c1.reg .rax (by decide)).trans hrax)
  obtain ⟨s3,r4,hrax3,c3⟩ := bit_loop hres (n := 8) (by decide) hr9 hrax2
  obtain ⟨t,h,hrdx,c⟩ := run_next s3 .rdx
  have r1 := (show Stands items toByte (byteTest.map .instr) by decide).run hres h1 (by decide)
  have r2 := (show Stands items toByteJump [.jcc 0x83 ⟨.crc32cDone,0⟩] by decide).jcc hres
    (lookup_label enc .crc32cDone rfl) hf
  rw [if_neg (by rw [hb]; omega)] at r2
  have r3 := (show Stands items toLoad (loadByte.map .instr) by decide).performs hres h2
  rw [accesses_loadByte, c1.reg .rdi (by decide), c1.reg .rdx (by decide)] at r3
  have r5 := (show Stands items toByteDone (nextByte.map .instr) by decide).run hres h (by decide)
  have r6 := (show Stands items toByteEnd [.jmp ⟨.crc32cByte,0⟩] by decide).jmp (s := t) hres
    (lookup_label enc .crc32cByte rfl)
  refine ⟨t,((((r1.trans r2).trans r3).trans r4).trans r5).trans r6,?_,?_,
    (((c1.trans c2).trans c3).trans c).mono (by decide)⟩
  · rw [hrdx, c3.reg .rdx (by decide), c2.reg .rdx (by decide), c1.reg .rdx (by decide)]
  · rw [c.reg .rax (by decide), hrax3, c1.mem, c1.reg .rdi (by decide), c1.reg .rdx (by decide),
      crcByte]

theorem byte_loop {n : ℕ}
    (hn : (s.reg .rsi).toNat = (s.reg .rdx).toNat+n) (hrax : s.reg .rax = word crc) :
    ∃ t, enc.Performs code (enc.size toByte, s) (enc.size toDone, t)
        (Access.span .read (s.reg .rdi+s.reg .rdx) n) ∧
      t.reg .rax = word (((bytes s.mem (s.reg .rdi+s.reg .rdx) n).map UInt8.ofBitVec).foldl
        crcByte crc) ∧ Changes s t clobbered := by
  induction n generalizing s crc with
  | zero =>
    obtain ⟨t,f,h,hf,hb,c⟩ := run_byteTest s
    have r1 := (show Stands items toByte (byteTest.map .instr) by decide).run hres h (by decide)
    have r2 := (show Stands items toByteJump [.jcc 0x83 ⟨.crc32cDone,0⟩] by decide).jcc hres
      (lookup_label enc .crc32cDone rfl) hf
    rw [if_pos (by rw [hb]; omega)] at r2
    exact ⟨t,r1.trans r2,(c.reg .rax (by decide)).trans hrax,c.mono (by decide)⟩
  | succ n ih =>
    obtain ⟨s1,r1,hrdx,hrax1,c1⟩ := byte_turn hres (by omega) hrax
    have hrsi := c1.reg .rsi (by decide)
    have hlt := (s.reg .rsi).isLt
    obtain ⟨t,r,hrax,c⟩ := ih (by
      rw [hrsi, hrdx, toNat_add, show (1 : Word).toNat = 1 from rfl, Nat.mod_eq_of_lt (by omega)]
      omega) hrax1
    have hnext : s1.reg .rdi+s1.reg .rdx = s.reg .rdi+s.reg .rdx+1 := by
      rw [c1.reg .rdi (by decide), hrdx, ← BitVec.add_assoc]
    rw [hnext] at r hrax
    refine ⟨t,r1.trans r,?_,(c1.trans c).mono (by decide)⟩
    rw [hrax, c1.mem]
    rfl

end

theorem halts_reading (hcode : compileStorageCRC32CHelperUnit enc = .ok code) (s : State) :
    ∃ n t, enc.HaltsIn code n (0, s) t ∧
      t.reg .rax = word (crc32c ((bytes s.mem (s.reg .rdi) (s.reg .rsi).toNat).map
        UInt8.ofBitVec)) ∧
      Changes s t clobbered ∧
      enc.trace code n (0, s) = Access.span .read (s.reg .rdi) (s.reg .rsi).toNat := by
  have hres : resolveJumps enc (emitter enc).lookup 0 items = .ok code := hcode
  let s1 := (s.setReg .rax 0xffffffff).setReg .rdx 0
  have h1 : run s start = some s1 := rfl
  have c1 : Changes s s1 [.rax,.rdx] := ⟨rfl,fun r hr => by simp_all [s1]⟩
  have hn : (s1.reg .rsi).toNat = (s1.reg .rdx).toNat+(s.reg .rsi).toNat := by simp [s1]
  have hstart : s1.reg .rdi+s1.reg .rdx = s.reg .rdi := by
    rw [c1.reg .rdi (by decide), show s1.reg .rdx = 0#64 from rfl, BitVec.add_zero]
  obtain ⟨s2,r2,hrax2,c2⟩ := byte_loop hres hn (show s1.reg .rax = word 0xffffffff from rfl)
  obtain ⟨t,h3,hrax,c3⟩ := run_finish hrax2
  have r1 := (show Stands items [] (start.map .instr) by decide).run hres h1 (by decide)
  have r3 := (show Stands items toDone (finish.map .instr) by decide).run hres h3 (by decide)
  obtain ⟨n,hn,htrace⟩ := (r1.trans r2).trans r3
  refine ⟨n,t,?_,?_,((c1.trans c2).trans c3).mono (by decide),?_⟩
  · rw [Encoding.HaltsIn, resolveJumps_size hres]
    exact hn
  · rw [hrax, crc32c, c1.mem, hstart]
  · rw [hstart, append_nil, nil_append] at htrace
    exact htrace

theorem halts (hcode : compileStorageCRC32CHelperUnit enc = .ok code) (s : State) :
    ∃ t, enc.Halts code s t ∧
      t.reg .rax = word (crc32c ((bytes s.mem (s.reg .rdi) (s.reg .rsi).toNat).map
        UInt8.ofBitVec)) ∧
      Changes s t clobbered := by
  obtain ⟨n,t,hn,hrax,hchanges,-⟩ := halts_reading hcode s
  exact ⟨t,⟨n,hn⟩,hrax,hchanges⟩

/-- An x86 instruction has at most 15 bytes, so all jumps of the routine are near. -/
theorem compiles (henc : ∀ i, enc.length i ≤ 15) :
    ∃ code, compileStorageCRC32CHelperUnit enc = .ok code := by
  have hsize : ∀ is : List (Item Label), enc.size is ≤ 15*is.length := by
    intro is
    induction is with
    | nil => rfl
    | cons i is ih =>
      have hi : enc.itemSize i ≤ 15 := by
        cases i with
        | instr i => exact henc i
        | jmp _ | jcc _ _ => exact Nat.le_of_ble_eq_true rfl
      rw [Encoding.size_cons, length_cons]
      omega
  have hnear : ∀ is : List (Item Label), is.length ≤ 100 → enc.size is < 2^31 := by
    intro is hlen
    have := hsize is
    omega
  refine resolveJumps_ok (by rw [zero_add]; exact hnear items (by decide)) fun l hl => ?_
  rw [emitter_code, show items.filterMap jumpTarget = [⟨.crc32cDone,0⟩,⟨.crc32cByteDone,0⟩,⟨.crc32cNoPoly,0⟩,
    ⟨.crc32cBitNext,0⟩,⟨.crc32cBit,0⟩,⟨.crc32cByte,0⟩] from rfl] at hl
  simp only [mem_cons, not_mem_nil, or_false] at hl
  rcases hl with rfl | rfl | rfl | rfl | rfl | rfl
  · exact ⟨_,hnear _ (by decide),lookup_label enc .crc32cDone rfl⟩
  · exact ⟨_,hnear _ (by decide),lookup_label enc .crc32cByteDone rfl⟩
  · exact ⟨_,hnear _ (by decide),lookup_label enc .crc32cNoPoly rfl⟩
  · exact ⟨_,hnear _ (by decide),lookup_label enc .crc32cBitNext rfl⟩
  · exact ⟨_,hnear _ (by decide),lookup_label enc .crc32cBit rfl⟩
  · exact ⟨_,hnear _ (by decide),lookup_label enc .crc32cByte rfl⟩

/-- Whatever the memory, the start address and the length, the routine ends with
the checksum in rax, having read the bytes and written none. -/
theorem helper_computes_crc32c (enc : Encoding) (henc : ∀ i, enc.length i ≤ 15) :
    ∃ code, compileStorageCRC32CHelperUnit enc = .ok code ∧ ∀ s : State,
      ∃ n t, enc.HaltsIn code n (0, s) t ∧
        t.reg .rax = word (crc32c ((bytes s.mem (s.reg .rdi) (s.reg .rsi).toNat).map
          UInt8.ofBitVec)) ∧
        t.mem = s.mem ∧
        enc.trace code n (0, s) = Access.span .read (s.reg .rdi) (s.reg .rsi).toNat := by
  obtain ⟨code,hcode⟩ := compiles henc
  refine ⟨code,hcode,fun s => ?_⟩
  obtain ⟨n,t,hn,hrax,hchanges,htrace⟩ := halts_reading hcode s
  exact ⟨n,t,hn,hrax,hchanges.mem,htrace⟩

/-- With instructions of seven bytes. -/
theorem helper_computes_crc32c_fixed :
    ∃ code, compileStorageCRC32CHelperUnit fixedEncoding = .ok code ∧ ∀ s : State,
      ∃ n t, fixedEncoding.HaltsIn code n (0, s) t ∧
        t.reg .rax = word (crc32c ((bytes s.mem (s.reg .rdi) (s.reg .rsi).toNat).map
          UInt8.ofBitVec)) ∧
        t.mem = s.mem ∧
        fixedEncoding.trace code n (0, s) =
          Access.span .read (s.reg .rdi) (s.reg .rsi).toNat :=
  helper_computes_crc32c fixedEncoding fun _ => show 7 ≤ 15 by decide

end

end Wrela.Codegen.Crc32c

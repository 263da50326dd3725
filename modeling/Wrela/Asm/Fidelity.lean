import Wrela.Asm.Operands

/-!
# What the assembler's bytes say

The bytes emitted for an instruction name the written operation and operands
exactly when each operand is one that the chosen encoding can carry. The encoder
itself checks fewer conditions.
-/

set_option autoImplicit false

namespace Wrela.Asm
open X86 X86.Decode List Option

variable {reaches : String → ℤ → Prop} {m : Mnemonic} {op : Operation} {bs : List ℕ}
  {operands : List Operand} {select : ℕ → Option Operation} {v : Int64}
  {opcode w ext regField : ℕ} {form : String}

/-! ## What the encodings can carry -/

/-- A register beside a memory operand. A high byte cannot be named next to a REX
prefix. -/
def MemReg (r : RegName) (m : MemOperand) : Prop :=
  (r.isGeneral ∧ (m.width = 0 ∨ m.width = r.reg.width) ∧
    (r.isHighByte → rexForOperand false r.reg m.base.reg = [])) ∧ m.Addressable

/-- An immediate that the operation takes at its own width, from at most four
bytes. -/
def ImmFits (w : ℕ) (v : ℤ) : Prop := if w = 64 then FitsInt32 v else FitsIn w v

/-- Moves between registers. The moves of cr3 have no REX prefix. -/
def MovRegs (dst src : RegName) : Prop :=
  if dst.reg.segment then True
  else if dst.reg.control then src.is64 ∧ src.reg.high = false
  else if src.reg.control then dst.is64 ∧ dst.reg.high = false
  else src.isGeneral ∧ dst.reg.width = src.reg.width ∧
    (dst.isHighByte ∨ src.isHighByte → rexForOperand false dst.reg src.reg = [])

/-- Two bytes of immediate follow a 16-bit store, of which the encoder emits
four. -/
def MovCarried : List Operand → Prop
  | [.reg dst, .reg src] => MovRegs dst src
  | [.reg dst, .imm v] => FitsIn dst.reg.width v.toInt
  | [.reg r, .mem m] => MemReg r m
  | [.mem m, .reg r] => MemReg r m
  | [.mem m, .imm v] =>
    m.Addressable ∧ m.width ≠ 16 ∧ ImmFits (defaultWidth m.width 64) v.toInt
  | _ => True

def BinaryCarried : List Operand → Prop
  | [.reg dst, .reg src] =>
    dst.isGeneral ∧ src.isGeneral ∧ dst.reg.width = src.reg.width
  | [.reg r, .mem m] => MemReg r m
  | [.reg r, .imm v] => r.isGeneral ∧ ImmFits r.reg.width v.toInt
  | _ => True

/-- The operands that the encoding chosen for an accepted instruction can carry. -/
def Carried (mnemonic : Mnemonic) (operands : List Operand) : Prop :=
  match mnemonic, operands with
  | .mov, _ => MovCarried operands
  | .add, _ | .and, _ | .sub, _ | .cmp, _ => BinaryCarried operands
  | .shr, [.reg r, _] => r.isGeneral
  | .push, [.reg r] | .pop, [.reg r] | .call, [.reg r] => r.is64
  | .call, [.mem m] => m.Addressable ∧ (m.width = 0 ∨ m.width = 64)
  | .lgdt, [.mem m] | .lidt, [.mem m] => m.Addressable
  | .hlt, _ | .pause, _ | .ret, _ | .retfq, _ | .iretq, _ | .cli, _ | .sti, _ => operands = []
  | _, _ => True

/-! ## Forms -/

section
variable {opcode : ℕ}

section
variable (w width : ℕ) (a b r : RegName) (mem : MemOperand)

theorem modRM_names : modRM (prefixes w a.reg b.reg) [modrm 3 a.reg.low3 b.reg.low3] =
    some (a.reg.low3, .reg b.reg.number, []) := by
  rw [modrm_eq (by decide) a.low3_lt b.low3_lt, modRM_register _ _ a.low3_lt b.low3_lt, prefixes,
    extend_rm]

theorem modRM_memory : modRM (prefixes w r.reg mem.base.reg) (encodeMemModRM r.reg.low3 mem) =
    some (r.reg.low3,
      .mem ⟨.register mem.base.reg.number,none,mem.disp.toInt.bmod (256^4)⟩, []) := by
  have hmem := modRM_mem (w = 16) (w = 64) r.reg r.low3_lt mem []
  rwa [append_nil] at hmem

theorem same_rm_iff : SameOperand reaches (.reg b)
    (RegMem.operand (prefixes w a.reg b.reg) width (.reg b.reg.number)) ↔
      Named (prefixes w a.reg b.reg) width b :=
  same_register_iff width b (prefixes_rex_rm w a.reg b.reg)

end

section
variable (hop : m.operation = some op) (h4 : opcode/16 ≠ 4) (h66 : opcode ≠ 0x66)
  {w width : ℕ} {r : RegName} {rm : Reg} {rest : List ℕ} {x : RegMem} {y : Operand} {P : Prop}
  (hmod : modRM (prefixes w r.reg rm) rest = some (r.reg.low3, x, []))
  (hsame : SameOperand reaches y (x.operand (prefixes w r.reg rm) width) ↔ P)
include hop h4 h66 hmod hsame

theorem faithful_regRm (hform : ∀ bs, oneByte (prefixes w r.reg rm) opcode bs =
      regRm (prefixes w r.reg rm) op width bs) :
    Faithful reaches m [.reg r, y] (sized w r.reg rm opcode rest) ↔
      Named (prefixes w r.reg rm) width r ∧ P := by
  have hdec := decode_sized w r.reg rm h4 h66 rest
  rw [hform, regRm, hmod] at hdec
  simp only [map_some] at hdec
  rw [prefixes, extend_reg, ← prefixes] at hdec
  rw [faithful_two_iff hdec hop, hsame, same_register_iff width r (prefixes_rex_reg w r.reg rm)]

theorem faithful_rmReg (hform : ∀ bs, oneByte (prefixes w r.reg rm) opcode bs =
      rmReg (prefixes w r.reg rm) op width bs) :
    Faithful reaches m [y, .reg r] (sized w r.reg rm opcode rest) ↔
      P ∧ Named (prefixes w r.reg rm) width r := by
  have hdec := decode_sized w r.reg rm h4 h66 rest
  rw [hform, rmReg, hmod] at hdec
  simp only [map_some] at hdec
  rw [prefixes, extend_reg, ← prefixes] at hdec
  rw [faithful_two_iff hdec hop, hsame, same_register_iff width r (prefixes_rex_reg w r.reg rm)]

end

section
variable (w width size immWidth : ℕ) {digit : ℕ} (r : RegName) (mem : MemOperand) (v : Int64)

theorem decode_rmImm (hdigit : digit < 8) (hselect : select digit = some op) (h4 : opcode/16 ≠ 4)
    (h66 : opcode ≠ 0x66) (hform : ∀ bs, oneByte (prefixes w {} r.reg) opcode bs =
      rmImm (prefixes w {} r.reg) width bs select size immWidth) :
    decode (sized w {} r.reg opcode (modrm 3 digit r.reg.low3::bytes size v.toInt)) =
      some (⟨op,[.reg ((prefixes w {} r.reg).general width r.reg.number),
        .imm immWidth (v.toInt.bmod (256^size))]⟩, []) := by
  have hbytes := signed_bytes size v.toInt []
  rw [append_nil] at hbytes
  rw [decode_sized w {} r.reg h4 h66, hform, rmImm, modrm_eq (by decide) hdigit r.low3_lt,
    modRM_register _ _ hdigit r.low3_lt]
  simp only [bind_eq_bind, bind_some, hselect, hbytes, RegMem.operand]
  rw [prefixes, extend_rm]

theorem decode_storeImm (opcode : ℕ) (h4 : opcode/16 ≠ 4) (h66 : opcode ≠ 0x66)
    (hform : ∀ bs, oneByte (prefixes w {} mem.base.reg) opcode bs =
      rmImm (prefixes w {} mem.base.reg) w bs (onlyAt 0 .mov) size w) (rest : List ℕ) :
    decode (sized w {} mem.base.reg opcode
        (encodeMemModRM 0 mem ++ (bytes size v.toInt ++ rest))) =
      some (⟨.mov,[.mem w ⟨.register mem.base.reg.number,none,mem.disp.toInt.bmod (256^4)⟩,
        .imm w (v.toInt.bmod (256^size))]⟩, rest) := by
  rw [decode_sized w {} mem.base.reg h4 h66, hform, rmImm, prefixes, modRM_mem _ _ _ (by decide)]
  simp [onlyAt, signed_bytes, RegMem.operand]

theorem faithful_storeImm (opcode : ℕ) (h4 : opcode/16 ≠ 4) (h66 : opcode ≠ 0x66)
    (hform : ∀ bs, oneByte (prefixes w {} mem.base.reg) opcode bs =
      rmImm (prefixes w {} mem.base.reg) w bs (onlyAt 0 .mov) size w)
    (hw : mem.width = 0 ∨ mem.width = w) :
    Faithful reaches .mov [.mem mem, .imm v]
        (sized w {} mem.base.reg opcode (encodeMemModRM 0 mem ++ bytes size v.toInt)) ↔
      mem.Addressable ∧ SameOperand reaches (.imm v) (.imm w (v.toInt.bmod (256^size))) := by
  have hdec := decode_storeImm w size mem v opcode h4 h66 hform []
  rw [append_nil] at hdec
  rw [faithful_two_iff hdec rfl, same_memory_iff, and_iff_left hw]

end

end

/-! ## Moves -/

section

variable {dst src : RegName} {r : RegName} {mem : MemOperand}

theorem faithful_movRegReg (h : encodeMovRegReg dst.reg src.reg = some bs) :
    Faithful reaches .mov [.reg dst, .reg src] bs ↔
      dst.isGeneral ∧ src.isGeneral ∧ dst.reg.width = src.reg.width ∧
        (dst.isHighByte ∨ src.isHighByte →
          rexForOperand false dst.reg src.reg = []) := by
  have hnamed : Faithful reaches .mov [.reg dst, .reg src] bs ↔
      Named (prefixes (max dst.reg.width src.reg.width) dst.reg src.reg)
          (max dst.reg.width src.reg.width) dst ∧
        Named (prefixes (max dst.reg.width src.reg.width) dst.reg src.reg)
          (max dst.reg.width src.reg.width) src := by
    unfold encodeMovRegReg at h
    generalize max dst.reg.width src.reg.width = w at h ⊢
    simp only at h
    split at h
    all_goals cases h
    · exact faithful_regRm rfl (by decide) (by decide) (modRM_names 8 dst src)
        (same_rm_iff 8 8 dst src) fun _ => rfl
    · refine faithful_regRm rfl (by decide) (by decide) (modRM_names 16 dst src)
        (same_rm_iff 16 16 dst src) fun bs => ?_
      rw [oneByte, prefixes_width _ _ _ (by decide)]
    · refine faithful_regRm rfl (by decide) (by decide) (modRM_names 32 dst src)
        (same_rm_iff 32 32 dst src) fun bs => ?_
      rw [oneByte, prefixes_width _ _ _ (by decide)]
    · refine faithful_regRm rfl (by decide) (by decide) (modRM_names 64 dst src)
        (same_rm_iff 64 64 dst src) fun bs => ?_
      rw [oneByte, prefixes_width _ _ _ (by decide)]
  rw [hnamed, named_iff, named_iff]
  have hmax : dst.reg.width = max dst.reg.width src.reg.width ∧
      src.reg.width = max dst.reg.width src.reg.width ↔ dst.reg.width = src.reg.width := by omega
  tauto

theorem RegName.eq_cr3 (h : r.reg.control) : r = .cr3 := by
  cases r with
  | cr3 => rfl
  | _ => cases h

theorem decode_control (load : Bool) (r : RegName) :
    decode [0x0F, if load then 0x22 else 0x20, modrm 3 RegName.cr3.reg.low3 r.reg.low3] =
      some (⟨.mov,if load then [.reg (.control 3), .reg (.general 64 r.reg.low3)]
        else [.reg (.general 64 r.reg.low3), .reg (.control 3)]⟩, []) := by
  have hdec := decode_encoded false none (show 0x0F/16 ≠ 4 by decide) (by decide)
    [if load then 0x22 else 0x20, modrm 3 RegName.cr3.reg.low3 r.reg.low3]
  refine hdec.trans ?_
  rw [modrm_eq (by decide) RegName.cr3.low3_lt r.low3_lt]
  cases load <;>
  · simp only [oneByte, twoByte, if_true, Bool.false_eq_true, if_false]
    simp only [moveControl, modRM_register _ _ RegName.cr3.low3_lt r.low3_lt, bind_eq_bind,
      bind_some]
    rfl

theorem faithful_movRegControl (h : encodeMovRegControl dst.reg src.reg = some bs) :
    Faithful reaches .mov [.reg dst, .reg src] bs ↔ dst.is64 ∧ dst.reg.high = false := by
  unfold encodeMovRegControl at h
  split at h
  · cases h
  · rename_i hcontrol
    obtain rfl := RegName.eq_cr3 (by simpa using hcontrol)
    cases h
    refine (faithful_two_iff (m := .mov) (decode_control false dst) rfl).trans ?_
    rw [same_low_iff]
    exact and_iff_left rfl

theorem faithful_movControlReg (h : encodeMovControlReg dst.reg src.reg = some bs) :
    Faithful reaches .mov [.reg dst, .reg src] bs ↔ src.is64 ∧ src.reg.high = false := by
  unfold encodeMovControlReg at h
  split at h
  · cases h
  · rename_i hcontrol
    obtain rfl := RegName.eq_cr3 (by simpa using hcontrol)
    cases h
    refine (faithful_two_iff (m := .mov) (decode_control true src) rfl).trans ?_
    rw [same_low_iff]
    exact and_iff_right rfl

theorem faithful_movSegmentReg (h : encodeMovSegmentReg dst src = some bs) :
    Faithful reaches .mov [.reg dst, .reg src] bs := by
  unfold encodeMovSegmentReg at h
  split at h
  · cases h
  · rename_i hseg
    simp only [Bool.or_eq_true, Bool.not_eq_true', decide_eq_true_eq, not_or, not_not,
      Bool.not_eq_false, ne_eq] at hseg
    obtain ⟨hseg,rfl⟩ := hseg
    cases dst with
    | segment s =>
      cases h
      have hdec : decode [0x8E, modrm 3 s.low3 0] =
          some (⟨.mov,[.reg (.segment s.low3), .reg (.general 16 0)]⟩, []) := by
        cases s <;> decide
      exact (faithful_two_iff hdec rfl).mpr ⟨rfl,rfl⟩
    | general w n | highByte n | cr3 => cases hseg

theorem faithful_fullImm (opcode n : ℕ) (hn : 0 < n) {dst : RegName} (v : Int64)
    (hgeneral : dst.isGeneral) (hwidth : dst.reg.width = 8*n)
    (h4 : (opcode+dst.reg.low3)/16 ≠ 4) (h66 : opcode+dst.reg.low3 ≠ 0x66)
    (hform : ∀ bs, oneByte (prefixes (8*n) {} dst.reg) (opcode+dst.reg.low3) bs =
      (signed n bs).map fun (v,rest) =>
        (⟨.mov,[.reg ((prefixes (8*n) {} dst.reg).general (8*n)
          ((prefixes (8*n) {} dst.reg).extend Rex.b dst.reg.low3)), .imm (8*n) v]⟩, rest)) :
    Faithful reaches .mov [.reg dst, .imm v]
        (sized (8*n) {} dst.reg (opcode+dst.reg.low3) (bytes n v.toInt)) ↔
      FitsIn dst.reg.width v.toInt := by
  have hbytes := signed_bytes n v.toInt []
  rw [append_nil] at hbytes
  have hdec := decode_sized (8*n) {} dst.reg h4 h66 (bytes n v.toInt)
  rw [hform, hbytes] at hdec
  rw [prefixes, extend_rm, ← prefixes] at hdec
  rw [faithful_two_iff hdec rfl, same_immediate_iff v hn, hwidth,
    same_register_iff _ dst (prefixes_rex_rm _ _ _), named_iff]
  refine and_iff_right ⟨hgeneral,hwidth,fun hbyte => ?_⟩
  cases dst with
  | highByte k => rfl
  | _ => cases hbyte

theorem faithful_movRegImm {dst : RegName} (hgeneral : dst.isGeneral)
    (h : encodeMovRegImm dst.reg v.toInt = some bs) :
    Faithful reaches .mov [.reg dst, .imm v] bs ↔ FitsIn dst.reg.width v.toInt := by
  have hlow := dst.low3_lt
  have hwide : ∀ n, (8*n = 16 ∨ 8*n = 32 ∨ 8*n = 64) → dst.reg.width = 8*n →
      (Faithful reaches .mov [.reg dst, .imm v]
          (sized (8*n) {} dst.reg (0xB8+dst.reg.low3) (bytes n v.toInt)) ↔
        FitsIn dst.reg.width v.toInt) := by
    intro n hn hwidth
    refine faithful_fullImm 0xB8 n (by omega) v hgeneral hwidth (by omega) (by omega) fun bs => ?_
    rw [oneByte_mov _ hlow, prefixes_width _ _ _ hn, Nat.mul_div_cancel_left n (by decide)]
  unfold encodeMovRegImm at h
  split at h
  · rename_i hwidth
    cases h
    rw [append_assoc]
    exact faithful_fullImm 0xB0 1 (by decide) v hgeneral hwidth (by omega) (by omega)
      fun bs => oneByte_movByte _ hlow bs
  · rename_i hwidth
    cases h
    rw [append_assoc, append_assoc]
    exact hwide 2 (by decide) hwidth
  · rename_i hwidth
    cases h
    rw [append_assoc]
    exact hwide 4 (by decide) hwidth
  · rename_i hwidth
    cases h
    exact hwide 8 (by decide) hwidth
  · cases h

theorem defaultWidth_same {a b : ℕ} :
    b = defaultWidth a b ∧ (a = 0 ∨ a = defaultWidth a b) ↔ a = 0 ∨ a = b := by
  unfold defaultWidth
  split_ifs <;> omega

theorem memReg_iff (r : RegName) (mem : MemOperand) :
    Named (prefixes (defaultWidth mem.width r.reg.width) r.reg mem.base.reg)
        (defaultWidth mem.width r.reg.width) r ∧
        mem.Addressable ∧ (mem.width = 0 ∨ mem.width = defaultWidth mem.width r.reg.width) ↔
      MemReg r mem := by
  have hsame : r.reg.width = defaultWidth mem.width r.reg.width ∧
      (mem.width = 0 ∨ mem.width = defaultWidth mem.width r.reg.width) ↔
      mem.width = 0 ∨ mem.width = r.reg.width := defaultWidth_same
  rw [named_iff, MemReg]
  tauto

theorem encodeMovMem_eq_some (h : encodeMovMem opcode mem r.reg = some bs) :
    defaultWidth mem.width r.reg.width = 8 ∧
        bs = sized 8 r.reg mem.base.reg (opcode-1) (encodeMemModRM r.reg.low3 mem) ∨
      ∃ w, (w = 16 ∨ w = 32 ∨ w = 64) ∧ defaultWidth mem.width r.reg.width = w ∧
        bs = sized w r.reg mem.base.reg opcode (encodeMemModRM r.reg.low3 mem) := by
  unfold encodeMovMem at h
  generalize defaultWidth mem.width r.reg.width = w at h ⊢
  simp only at h
  split at h
  · cases h
    left
    exact ⟨rfl,by simp [sized]⟩
  · cases h
    right
    exact ⟨16,by decide,rfl,by simp [sized]⟩
  · cases h
    right
    exact ⟨32,by decide,rfl,by simp [sized]⟩
  · cases h
    right
    exact ⟨64,by decide,rfl,by simp [sized]⟩
  · cases h

theorem faithful_movRegMem (h : encodeMovRegMem r.reg mem = some bs) :
    Faithful reaches .mov [.reg r, .mem mem] bs ↔ MemReg r mem := by
  rw [← memReg_iff]
  obtain ⟨hw,rfl⟩ | ⟨w,hwide,hw,rfl⟩ := encodeMovMem_eq_some h
  · rw [hw]
    exact faithful_regRm rfl (by decide) (by decide) (modRM_memory 8 r mem)
      (same_memory_iff mem 8) fun _ => rfl
  · rw [hw]
    refine faithful_regRm rfl (by decide) (by decide) (modRM_memory w r mem)
      (same_memory_iff mem w) fun bs => ?_
    rw [oneByte, prefixes_width _ _ _ hwide]

theorem faithful_movMemReg (h : encodeMovMemReg mem r.reg = some bs) :
    Faithful reaches .mov [.mem mem, .reg r] bs ↔ MemReg r mem := by
  rw [← memReg_iff, and_comm]
  obtain ⟨hw,rfl⟩ | ⟨w,hwide,hw,rfl⟩ := encodeMovMem_eq_some h
  · rw [hw]
    exact faithful_rmReg rfl (by decide) (by decide) (modRM_memory 8 r mem)
      (same_memory_iff mem 8) fun _ => rfl
  · rw [hw]
    refine faithful_rmReg rfl (by decide) (by decide) (modRM_memory w r mem)
      (same_memory_iff mem w) fun bs => ?_
    rw [oneByte, prefixes_width _ _ _ hwide]

theorem oneByte_storeImm (mem : MemOperand) (hw : w = 16 ∨ w = 32 ∨ w = 64) (bs : List ℕ) :
    oneByte (prefixes w {} mem.base.reg) 0xC7 bs =
      rmImm (prefixes w {} mem.base.reg) w bs (onlyAt 0 .mov) (min 4 (w/8)) w := by
  rw [oneByte, immSize, prefixes_width _ _ _ hw]

theorem defaultWidth_eq {a : ℕ} (h : defaultWidth a 64 = w) :
    (a = 0 ∨ a = w) ∧ (a ≠ 16 ↔ w ≠ 16) := by
  unfold defaultWidth at h
  split_ifs at h <;> omega

theorem faithful_movMemImm (h : encodeMovMemImm mem v.toInt = some bs) :
    Faithful reaches .mov [.mem mem, .imm v] bs ↔
      mem.Addressable ∧ mem.width ≠ 16 ∧ ImmFits (defaultWidth mem.width 64) v.toInt := by
  unfold encodeMovMemImm at h
  generalize hw : defaultWidth mem.width 64 = w at h ⊢
  obtain ⟨hwritten,h16⟩ := defaultWidth_eq hw
  simp only at h
  rw [h16]
  split at h
  · cases h
    rw [append_assoc, and_iff_right (show 8 ≠ 16 by decide)]
    refine (faithful_storeImm 8 1 mem v 0xC6 (by decide) (by decide) (fun _ => rfl)
      hwritten).trans (and_congr_right fun _ => ?_)
    exact same_immediate_iff v Nat.one_pos
  · cases h
    have hdec := decode_storeImm 16 2 mem v 0xC7 (by decide) (by decide)
      (oneByte_storeImm mem (by decide)) (bytes 2 (v.toInt/256/256))
    have hbytes : [0x66] ++ rexForOperand (decide (16 = 64)) {} mem.base.reg ++ [0xC7] ++
        (encodeMemModRM 0 mem ++ bytes 4 v.toInt) =
        sized 16 {} mem.base.reg 0xC7 (encodeMemModRM 0 mem ++
          (bytes 2 v.toInt ++ bytes 2 (v.toInt/256/256))) := by
      simp [sized, bytes]
    rw [hbytes, faithful_iff hdec]
    simp [bytes]
  · cases h
    rw [append_assoc, and_iff_right (show 32 ≠ 16 by decide)]
    refine (faithful_storeImm 32 4 mem v 0xC7 (by decide) (by decide)
      (oneByte_storeImm mem (by decide)) hwritten).trans (and_congr_right fun _ => ?_)
    exact same_immediate_iff v (show 0 < 4 by decide)
  · cases h
    rw [append_assoc, and_iff_right (show 64 ≠ 16 by decide)]
    refine (faithful_storeImm 64 4 mem v 0xC7 (by decide) (by decide)
      (oneByte_storeImm mem (by decide)) hwritten).trans (and_congr_right fun _ => ?_)
    exact same_extended_iff v
  · cases h

theorem faithful_mov {operands : List Operand} (h : encodeMov operands = some bs) :
    Faithful reaches .mov operands bs ↔ MovCarried operands := by
  unfold encodeMov at h
  split at h
  · rename_i dst right
    by_cases hseg : dst.reg.segment
    · rw [if_pos hseg] at h
      cases right with
      | reg src =>
        rw [MovCarried, MovRegs, if_pos hseg]
        exact iff_of_true (faithful_movSegmentReg h) trivial
      | _ => cases h
    rw [if_neg hseg] at h
    by_cases hcontrol : dst.reg.control
    · rw [if_pos hcontrol] at h
      cases right with
      | reg src =>
        rw [MovCarried, MovRegs, if_neg hseg, if_pos hcontrol]
        exact faithful_movControlReg h
      | _ => cases h
    rw [if_neg hcontrol] at h
    have hdst : dst.isGeneral := by
      simp [RegName.isGeneral, hseg, hcontrol]
    cases right with
    | reg src =>
      rw [MovCarried, MovRegs, if_neg hseg, if_neg hcontrol]
      by_cases hsrc : src.reg.control
      · simp only [if_pos hsrc] at h ⊢
        exact faithful_movRegControl h
      · simp only [if_neg hsrc] at h ⊢
        rw [faithful_movRegReg h, and_iff_right hdst]
    | imm v => exact faithful_movRegImm hdst h
    | mem m => exact faithful_movRegMem h
    | _ => cases h
  · exact faithful_movMemReg h
  · exact faithful_movMemImm h
  · cases h

end

/-! ## Arithmetic -/

theorem named_wide_iff (hw : w = 16 ∨ w = 32 ∨ w = 64) (p : Prefixes) (r : RegName) :
    Named p w r ↔ r.isGeneral ∧ r.reg.width = w := by
  refine and_congr_right fun _ => and_iff_left_of_imp ?_
  intro hwidth hbyte
  rw [RegName.width_of_isHighByte hbyte] at hwidth
  omega

section
variable (hop : m.operation = some op) (h4 : opcode/16 ≠ 4) (h66 : opcode ≠ 0x66)
include hop h4 h66

theorem faithful_binaryRegReg (hform : ∀ p bs, oneByte p opcode bs = rmReg p op p.width bs)
    (h : encodeBinaryRegReg opcode operands = some bs) :
    Faithful reaches m operands bs ↔ BinaryCarried operands := by
  unfold encodeBinaryRegReg at h
  split at h
  · rename_i dst src
    have hsized : ∀ w, (w = 16 ∨ w = 32 ∨ w = 64) → max dst.reg.width src.reg.width = w →
        (Faithful reaches m [.reg dst, .reg src]
            (sized w src.reg dst.reg opcode [modrm 3 src.reg.low3 dst.reg.low3]) ↔
          BinaryCarried [.reg dst, .reg src]) := by
      intro w hw hmax
      rw [faithful_rmReg hop h4 h66 (modRM_names w src dst) (same_rm_iff w w src dst) fun bs => by
          rw [hform, prefixes_width _ _ _ hw], named_wide_iff hw, named_wide_iff hw, BinaryCarried]
      have hwidths : dst.reg.width = w ∧ src.reg.width = w ↔ dst.reg.width = src.reg.width := by
        omega
      tauto
    generalize hmax : max dst.reg.width src.reg.width = w at h
    simp only at h
    split at h
    · cases h
      exact hsized 16 (by decide) hmax
    · cases h
      exact hsized 32 (by decide) hmax
    · cases h
      exact hsized 64 (by decide) hmax
    · cases h
  · cases h

theorem faithful_binaryRegMem (hform : ∀ p bs, oneByte p opcode bs = regRm p op p.width bs)
    (h : encodeBinaryRegMem opcode operands = some bs) :
    Faithful reaches m operands bs ↔ BinaryCarried operands := by
  unfold encodeBinaryRegMem at h
  split at h
  · rename_i dst src
    have hsized : ∀ w, (w = 16 ∨ w = 32 ∨ w = 64) → defaultWidth src.width dst.reg.width = w →
        (Faithful reaches m [.reg dst, .mem src]
            (sized w dst.reg src.base.reg opcode (encodeMemModRM dst.reg.low3 src)) ↔
          BinaryCarried [.reg dst, .mem src]) := by
      intro w hw hdefault
      rw [BinaryCarried, ← memReg_iff, hdefault]
      refine faithful_regRm hop h4 h66 (modRM_memory w dst src) (same_memory_iff src w) fun bs => ?_
      rw [hform, prefixes_width _ _ _ hw]
    generalize hdefault : defaultWidth src.width dst.reg.width = w at h
    simp only at h
    split at h
    · cases h
      rw [append_assoc, append_assoc]
      exact hsized 16 (by decide) hdefault
    · cases h
      rw [append_assoc]
      exact hsized 32 (by decide) hdefault
    · cases h
      exact hsized 64 (by decide) hdefault
    · cases h
  · cases h

end

theorem faithful_rmImm {digit : ℕ} (w size immWidth : ℕ)
    (r : RegName) (v : Int64) (hw : w = 16 ∨ w = 32 ∨ w = 64) (hop : m.operation = some op)
    (hdigit : digit < 8) (hselect : select digit = some op) (h4 : opcode/16 ≠ 4)
    (h66 : opcode ≠ 0x66) (hform : ∀ bs, oneByte (prefixes w {} r.reg) opcode bs =
      rmImm (prefixes w {} r.reg) w bs select size immWidth) :
    Faithful reaches m [.reg r, .imm v]
        (sized w {} r.reg opcode (modrm 3 digit r.reg.low3::bytes size v.toInt)) ↔
      (r.isGeneral ∧ r.reg.width = w) ∧
        SameOperand reaches (.imm v) (.imm immWidth (v.toInt.bmod (256^size))) := by
  have hdec := decode_rmImm w w size immWidth r v hdigit hselect h4 h66 hform
  rw [faithful_two_iff hdec hop, same_register_iff w r (prefixes_rex_rm w {} r.reg),
    named_wide_iff hw]

theorem immFits_byte {v : ℤ} (hw : w = 16 ∨ w = 32 ∨ w = 64) (hlo : -128 ≤ v)
    (hhi : v ≤ 127) : ImmFits w v := by
  unfold ImmFits FitsInt32 FitsIn
  obtain rfl | rfl | rfl := hw <;> norm_num <;> omega

theorem same_immFits (hw : w = 16 ∨ w = 32 ∨ w = 64) (v : Int64) :
    SameOperand reaches (.imm v) (.imm w (v.toInt.bmod (256^min 4 (w/8)))) ↔ ImmFits w v.toInt := by
  obtain rfl | rfl | rfl := hw
  · exact same_immediate_iff v (show 0 < 2 by decide)
  · exact same_immediate_iff v (show 0 < 4 by decide)
  · exact same_extended_iff v

theorem encodeBinaryImm_eq_some {op8 op32 : ℕ} {r : RegName}
    (h : encodeBinaryImm ext op8 op32 [.reg r, .imm v] = some bs) :
    ∃ w, (w = 16 ∨ w = 32 ∨ w = 64) ∧ r.reg.width = w ∧
      bs = if v.toInt ≥ -128 ∧ v.toInt ≤ 127 then
          sized w {} r.reg op8 (modrm 3 ext r.reg.low3::bytes 1 v.toInt)
        else sized w {} r.reg op32 (modrm 3 ext r.reg.low3::bytes (min 4 (w/8)) v.toInt) := by
  unfold encodeBinaryImm at h
  simp only at h
  split at h
  · rename_i hwidth
    refine ⟨16,by decide,hwidth,?_⟩
    cases h
    rw [hwidth]
    split_ifs <;> first | rfl | omega
  · rename_i hwidth
    refine ⟨32,by decide,hwidth,?_⟩
    cases h
    rw [hwidth]
    split_ifs <;> first | rfl | omega
  · rename_i hwidth
    refine ⟨64,by decide,hwidth,?_⟩
    cases h
    rw [hwidth]
    split_ifs <;> first | rfl | omega
  · cases h

theorem faithful_binaryImm (hop : m.operation = some op) (hext : ext < 8)
    (hselect : arithmetic ext = some op) (h : encodeBinaryImm ext 0x83 0x81 operands = some bs) :
    Faithful reaches m operands bs ↔ BinaryCarried operands := by
  obtain ⟨r,v,rfl⟩ : ∃ r v, operands = [.reg r, .imm v] := by
    unfold encodeBinaryImm at h
    split at h
    · exact ⟨_,_,rfl⟩
    · cases h
  obtain ⟨w,hw,hwidth,rfl⟩ := encodeBinaryImm_eq_some h
  rw [BinaryCarried, hwidth]
  split_ifs with hbyte
  · rw [faithful_rmImm w 1 w r v hw hop hext hselect (by decide) (by decide) fun bs => by
      rw [oneByte, prefixes_width _ _ _ hw]]
    exact ⟨fun hf => ⟨hf.1.1,immFits_byte hw hbyte.1 hbyte.2⟩,
      fun hf => ⟨⟨hf.1,hwidth⟩,same_byte v hbyte.1 hbyte.2 w⟩⟩
  · rw [faithful_rmImm w (min 4 (w/8)) w r v hw hop hext hselect (by decide) (by decide)
      fun bs => by rw [oneByte, immSize, prefixes_width _ _ _ hw]]
    rw [same_immFits hw, and_iff_left hwidth]

theorem faithful_shiftImm (h : encodeShiftImm 5 operands = some bs) :
    Faithful reaches .shr operands bs ↔ Carried .shr operands := by
  unfold encodeShiftImm at h
  split at h
  · rename_i r v
    by_cases hrange : v.toInt < 0 ∨ v.toInt > 255
    · rw [if_pos hrange] at h
      cases h
    rw [if_neg hrange] at h
    have hfits : SameOperand reaches (.imm v) (.imm 8 (v.toInt.bmod (256^1))) := by
      refine (same_immediate_iff v Nat.one_pos).mpr ?_
      unfold FitsIn
      omega
    have hsized : ∀ w, (w = 16 ∨ w = 32 ∨ w = 64) → r.reg.width = w →
        (Faithful reaches .shr [.reg r, .imm v]
            (sized w {} r.reg 0xC1 (modrm 3 5 r.reg.low3::bytes 1 v.toInt)) ↔
          r.isGeneral) := by
      intro w hw hwidth
      have hop : Mnemonic.operation .shr = some .shr := rfl
      rw [faithful_rmImm w 1 8 r v hw hop (by decide) rfl (by decide) (by decide)
        fun bs => by rw [oneByte, prefixes_width _ _ _ hw], and_iff_left hfits,
        and_iff_left hwidth]
    simp only at h
    split at h
    · rename_i hwidth
      cases h
      rw [hwidth]
      exact hsized 16 (by decide) hwidth
    · rename_i hwidth
      cases h
      rw [hwidth]
      exact hsized 32 (by decide) hwidth
    · rename_i hwidth
      cases h
      rw [hwidth]
      exact hsized 64 (by decide) hwidth
    · cases h
  · cases h

/-! ## Stacks, descriptor tables and branches -/

theorem decode_lone (r : RegName) (h4 : opcode/16 ≠ 4) (h66 : opcode ≠ 0x66) (rest : List ℕ) :
    decode (rexForOperand false {} r.reg ++ opcode::rest) =
      oneByte (prefixes 32 {} r.reg) opcode rest := decode_sized 32 {} r.reg h4 h66 rest

theorem faithful_push (h : encodePushPop true operands = some bs) :
    Faithful reaches .push operands bs ↔ Carried .push operands := by
  unfold encodePushPop at h
  split at h
  · rename_i v
    split_ifs at h with hrange
    cases h
    have hbytes := signed_bytes 1 v.toInt []
    rw [append_nil] at hbytes
    have hdec := decode_encoded false none (show 0x6A/16 ≠ 4 by decide) (by decide)
      (bytes 1 v.toInt)
    simp only [oneByte, hbytes, map_some] at hdec
    refine iff_of_true ((faithful_one_iff hdec rfl).mpr ?_) trivial
    exact same_byte v (by omega) (by omega) 64
  · rename_i r
    cases h
    have hlow := r.low3_lt
    have hdec := decode_lone r (show (0x50+r.reg.low3)/16 ≠ 4 by omega) (by omega) []
    rw [oneByte_push _ hlow, prefixes, extend_rm] at hdec
    exact (faithful_one_iff hdec rfl).trans (same_wide_iff r)
  · cases h

theorem faithful_pop (h : encodePushPop false operands = some bs) :
    Faithful reaches .pop operands bs ↔ Carried .pop operands := by
  unfold encodePushPop at h
  split at h
  · simp at h
  · rename_i r
    cases h
    have hlow := r.low3_lt
    have hdec := decode_lone r (show (0x58+r.reg.low3)/16 ≠ 4 by omega) (by omega) []
    rw [oneByte_pop _ hlow, prefixes, extend_rm] at hdec
    exact (faithful_one_iff hdec rfl).trans (same_wide_iff r)
  · cases h

theorem decode_desc (mem : MemOperand) (w : Bool)
    (hfield : regField = 2 ∧ op = .lgdt ∨ regField = 3 ∧ op = .lidt) :
    decode (rexForOperand w {} mem.base.reg ++ ([0x0F, 0x01] ++ encodeMemModRM regField mem)) =
      some (⟨op,[.descriptor ⟨.register mem.base.reg.number,none,
        mem.disp.toInt.bmod (256^4)⟩]⟩, []) := by
  have hdec := decode_encoded false (rexOperand w {} mem.base.reg) (show 0x0F/16 ≠ 4 by decide)
    (by decide) (0x01::encodeMemModRM regField mem)
  have hmem := modRM_mem false w {} (show regField < 8 by omega) mem []
  rw [append_nil] at hmem
  rw [← rexForOperand_eq] at hdec
  refine hdec.trans ?_
  rw [oneByte, twoByte, if_neg (by decide)]
  simp only [descriptorTable, hmem, bind_eq_bind, bind_some]
  obtain ⟨rfl,rfl⟩ | ⟨rfl,rfl⟩ := hfield <;> rfl

theorem faithful_desc {m : Mnemonic} (hop : m.operation = some op)
    (hfield : regField = 2 ∧ op = .lgdt ∨ regField = 3 ∧ op = .lidt)
    (h : encodeDesc regField operands = some bs) :
    ∃ mem, operands = [.mem mem] ∧ (Faithful reaches m operands bs ↔ mem.Addressable) := by
  unfold encodeDesc at h
  split at h
  · rename_i mem
    cases h
    refine ⟨mem,rfl,?_⟩
    rw [faithful_one_iff (decode_desc mem (mem.width = 64) hfield) hop, same_descriptor_iff]
  · cases h

theorem faithful_callReg (r : RegName) :
    Faithful reaches .call [.reg r]
        (rexForOperand false {} r.reg ++ [0xFF, modrm 3 2 r.reg.low3]) ↔ r.is64 := by
  have hdec := decode_lone r (show 0xFF/16 ≠ 4 by decide) (by decide) [modrm 3 2 r.reg.low3]
  rw [modrm_eq (by decide) (by decide) r.low3_lt] at hdec ⊢
  simp only [oneByte, rmOnly, modRM_register _ _ (show 2 < 8 by decide) r.low3_lt,
    bind_eq_bind, bind_some, onlyAt, if_true, RegMem.operand] at hdec
  rw [prefixes, extend_rm] at hdec
  exact (faithful_one_iff hdec rfl).trans (same_wide_iff r)

theorem faithful_callMem (mem : MemOperand) :
    Faithful reaches .call [.mem mem]
        (rexForOperand false {} mem.base.reg ++ [0xFF] ++ encodeMemModRM 2 mem) ↔
      mem.Addressable ∧ (mem.width = 0 ∨ mem.width = 64) := by
  have hdec := decode_lone mem.base (show 0xFF/16 ≠ 4 by decide) (by decide)
    (encodeMemModRM 2 mem)
  have hmem := modRM_mem (32 = 16) (32 = 64) {} (show 2 < 8 by decide) mem []
  rw [append_nil] at hmem
  rw [oneByte, rmOnly, prefixes, hmem] at hdec
  rw [append_assoc]
  exact (faithful_one_iff hdec rfl).trans (same_memory_iff mem 64)

def branchBytes (opcode : ℕ) (cond : Bool) (rel : ℤ) : List ℕ :=
  (if cond then [0x0F, opcode] else [opcode]) ++ bytes 4 rel

theorem decode_near (h4 : opcode/16 ≠ 4) (h66 : opcode ≠ 0x66)
    (hform : ∀ p bs, oneByte p opcode bs = distance op bs) (rel : ℤ) :
    decode (branchBytes opcode false rel) = some (⟨op,[.distance (rel.bmod (256^4))]⟩, []) := by
  have hdec := decode_encoded false none h4 h66 (bytes 4 rel)
  have hbytes := signed_bytes 4 rel []
  rw [append_nil] at hbytes
  rw [hform, distance, hbytes] at hdec
  exact hdec

theorem decode_cond (c : Condition) (rel : ℤ) :
    decode (branchBytes (condOpcode c) true rel) =
      some (⟨.jcc c.code,[.distance (rel.bmod (256^4))]⟩, []) := by
  have hdec := decode_encoded false none (show 0x0F/16 ≠ 4 by decide) (by decide)
    (condOpcode c::bytes 4 rel)
  have hbytes := signed_bytes 4 rel []
  rw [append_nil] at hbytes
  have hcode : condOpcode c/16 = 8 ∧ condOpcode c%16 = c.code := by cases c <;> decide
  rw [oneByte, twoByte_branch _ hcode.1, hcode.2, distance, hbytes] at hdec
  exact hdec

theorem faithful_branch {m : Mnemonic} {l : String} {rel : ℤ} (hop : m.operation = some op)
    (hrel : FitsInt32 rel) (hdec : decode bs = some (⟨op,[.distance (rel.bmod (256^4))]⟩, [])) :
    Faithful reaches m [.label l] bs ↔ reaches l rel := by
  rw [faithful_one_iff hdec hop, (fits_iff_bmod rel).mpr hrel, SameOperand]

/-! ## Instructions -/

inductive Emitted (start : ℕ) (m : Mnemonic) : List Operand → List ℕ → List BranchFixup → Prop
  | complete {operands : List Operand} {b : List ℕ} :
    (∀ reaches, Faithful reaches m operands b ↔ Carried m operands) → Emitted start m operands b []
  | branch {l : String} (opcode : ℕ) (cond : Bool) :
    Carried m [.label l] →
    (∀ reaches rel, FitsInt32 rel →
      (Faithful reaches m [.label l] (branchBytes opcode cond rel) ↔ reaches l rel)) →
    Emitted start m [.label l] (branchBytes opcode cond 0)
      [⟨m,start+if cond then 2 else 1,l,start+if cond then 6 else 5⟩]

variable {b : List ℕ} {fixups : List BranchFixup} {start : ℕ}

theorem Emitted.of_plain {encoded : Option (List ℕ)}
    (h : supported form (plain encoded) = .ok (b,fixups))
    (hfaithful : ∀ reaches, encoded = some b → (Faithful reaches m operands b ↔ Carried m operands)) :
    Emitted start m operands b fixups := by
  cases encoded with
  | none => cases h
  | some b' =>
    cases h
    exact .complete fun reaches => hfaithful reaches rfl

theorem Emitted.of_branch {start size : ℕ} {cond : Bool} (hsize : size = if cond then 6 else 5)
    (h : encodeNearBranch m start size opcode cond operands = some (b,fixups))
    (hcarried : ∀ l, Carried m [.label l]) (hfaithful : ∀ reaches l rel, FitsInt32 rel →
      (Faithful reaches m [.label l] (branchBytes opcode cond rel) ↔ reaches l rel)) :
    Emitted start m operands b fixups := by
  unfold encodeNearBranch at h
  split at h
  · rename_i l
    have hemitted : Emitted start m [.label l] (branchBytes opcode cond 0) _ :=
      .branch opcode cond (hcarried l) fun reaches rel => hfaithful reaches l rel
    cases cond <;>
    · cases hsize
      cases h
      exact hemitted
  · cases h

theorem Emitted.of_fixed (op : Operation) {b b' : List ℕ} (hdec : decode b' = some (⟨op,[]⟩,[]))
    (hop : m.operation = some op) (hcarried : Carried m operands ↔ operands = [])
    (h : (Except.ok (b',[]) : Except Diagnostic _) = .ok (b,fixups)) :
    Emitted start m operands b fixups := by
  cases h
  exact .complete fun reaches => (faithful_none_iff hdec hop).trans hcarried.symm

theorem supported_eq_ok {encoded : Option (List ℕ × List BranchFixup)}
    {r : List ℕ × List BranchFixup} (h : supported form encoded = .ok r) : encoded = some r := by
  cases encoded with
  | none => cases h
  | some r' =>
    cases h
    rfl

theorem or_eq_some {x y : Option (List ℕ)} (h : (x <|> y) = some b) : x = some b ∨ y = some b := by
  cases x with
  | none => exact Or.inr h
  | some b' => exact Or.inl h

theorem faithful_out {reaches : String → ℤ → Prop}
    (h : encodeOut operands = some b) : Faithful reaches .out operands b := by
  unfold encodeOut at h
  split at h
  all_goals cases h
  all_goals exact ⟨_,rfl,rfl,.cons rfl (.cons rfl .nil)⟩

theorem faithful_in {reaches : String → ℤ → Prop}
    (h : encodeIn operands = some b) : Faithful reaches .input operands b := by
  unfold encodeIn at h
  split at h
  all_goals cases h
  all_goals exact ⟨_,rfl,rfl,.cons rfl (.cons rfl .nil)⟩

theorem emitted_of_encodeInstruction (h : encodeInstruction start m operands = .ok (b,fixups)) :
    Emitted start m operands b fixups := by
  cases m with
  | hlt => exact .of_fixed .hlt rfl rfl Iff.rfl h
  | pause => exact .of_fixed .pause rfl rfl Iff.rfl h
  | ret => exact .of_fixed .ret rfl rfl Iff.rfl h
  | retfq => exact .of_fixed .retfq rfl rfl Iff.rfl h
  | iretq => exact .of_fixed .iretq rfl rfl Iff.rfl h
  | cli => exact .of_fixed .cli rfl rfl Iff.rfl h
  | sti => exact .of_fixed .sti rfl rfl Iff.rfl h
  | out => exact .of_plain h fun _ henc => iff_of_true (faithful_out henc) trivial
  | input => exact .of_plain h fun _ henc => iff_of_true (faithful_in henc) trivial
  | mov => exact .of_plain h fun _ henc => faithful_mov henc
  | add | cmp =>
    refine .of_plain h fun _ henc => ?_
    obtain henc | henc := or_eq_some henc
    · exact faithful_binaryRegReg rfl (by decide) (by decide) (fun _ _ => rfl) henc
    obtain henc | henc := or_eq_some henc
    · exact faithful_binaryRegMem rfl (by decide) (by decide) (fun _ _ => rfl) henc
    · exact faithful_binaryImm rfl (by decide) rfl henc
  | and =>
    exact .of_plain h fun _ henc =>
      faithful_binaryRegReg rfl (by decide) (by decide) (fun _ _ => rfl) henc
  | sub =>
    refine .of_plain h fun _ henc => ?_
    obtain henc | henc := or_eq_some henc
    · exact faithful_binaryRegMem rfl (by decide) (by decide) (fun _ _ => rfl) henc
    · exact faithful_binaryImm rfl (by decide) rfl henc
  | shr => exact .of_plain h fun _ henc => faithful_shiftImm henc
  | call =>
    have henc := supported_eq_ok h
    unfold encodeCall at henc
    split at henc
    · cases henc
      exact .complete fun _ => faithful_callReg _
    · cases henc
      exact .complete fun _ => faithful_callMem _
    · refine .of_branch rfl henc (fun _ => trivial) fun _ _ rel hrel => ?_
      exact faithful_branch rfl hrel (decode_near (by decide) (by decide) (fun _ _ => rfl) rel)
  | jmp =>
    refine .of_branch rfl (supported_eq_ok h) (fun _ => trivial) fun _ _ rel hrel => ?_
    exact faithful_branch rfl hrel (decode_near (by decide) (by decide) (fun _ _ => rfl) rel)
  | push => exact .of_plain h fun _ henc => faithful_push henc
  | pop => exact .of_plain h fun _ henc => faithful_pop henc
  | lgdt =>
    refine .of_plain h fun reaches henc => ?_
    obtain ⟨mem,rfl,hiff⟩ : ∃ mem, operands = [.mem mem] ∧
        (Faithful reaches .lgdt operands b ↔ mem.Addressable) :=
      faithful_desc rfl (Or.inl ⟨rfl,rfl⟩) henc
    exact hiff
  | lidt =>
    refine .of_plain h fun reaches henc => ?_
    obtain ⟨mem,rfl,hiff⟩ : ∃ mem, operands = [.mem mem] ∧
        (Faithful reaches .lidt operands b ↔ mem.Addressable) :=
      faithful_desc rfl (Or.inr ⟨rfl,rfl⟩) henc
    exact hiff
  | jcc c =>
    refine .of_branch rfl (supported_eq_ok h) (fun _ => trivial) fun _ _ rel hrel => ?_
    exact faithful_branch rfl hrel (decode_cond c rel)
  | unknown name => cases h

end Wrela.Asm

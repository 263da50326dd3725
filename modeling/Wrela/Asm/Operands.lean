import Wrela.Asm.Encode
import Wrela.X86.Decode
import Mathlib.Data.List.Forall2

/-!
# What the assembler's operand bytes say

The prefixes, ModRM bytes, displacements and immediates that the encoder emits,
read back by the x86-64 decoder: which register, memory operand or value each
of them names, and when that is the one that was written.
-/

set_option autoImplicit false

namespace Wrela.Asm
open X86 X86.Decode List Int

variable {reaches : String → ℤ → Prop} {operands : List Operand} {v : ℤ} {h : ℕ}

/-! ## The written instruction -/

def RegName.register : RegName → Register
  | .general w n => .general w.bits n
  | .highByte n => .highByte n
  | .cr3 => .control 3
  | .segment s => .segment s.low3

def Condition.code : Condition → ℕ
  | .b => 2
  | .e => 4
  | .ne => 5
  | .be => 6
  | .l => 12
  | .ge => 13
  | .le => 14
  | .g => 15

def Mnemonic.operation : Mnemonic → Option Operation
  | .hlt => some .hlt
  | .pause => some .pause
  | .ret => some .ret
  | .retfq => some .retfq
  | .iretq => some .iretq
  | .cli => some .cli
  | .sti => some .sti
  | .out => some .output
  | .input => some .input
  | .mov => some .mov
  | .add => some .add
  | .and => some .and
  | .sub => some .sub
  | .cmp => some .cmp
  | .shr => some .shr
  | .call => some .call
  | .jmp => some .jmp
  | .push => some .push
  | .pop => some .pop
  | .lgdt => some .lgdt
  | .lidt => some .lidt
  | .jcc c => some (.jcc c.code)
  | .unknown _ => none

variable (m : MemOperand)

def SameAddress (a : Address) : Prop :=
  ∃ n, m.base.register = .general 64 n ∧ a = ⟨.register n,none,m.disp.toInt⟩

/-- An immediate may be written signed or unsigned at the operand's width. A
memory operand may leave its width open. -/
def SameOperand (reaches : String → ℤ → Prop) : Operand → Decode.Operand → Prop
  | .reg r, .reg d => d = r.register
  | .imm v, .imm w s => v.toInt = s ∨ s < 0 ∧ v.toInt = s+2^w
  | .mem m, .mem w a => SameAddress m a ∧ (m.width = 0 ∨ m.width = w)
  | .mem m, .descriptor a => SameAddress m a
  | .label l, .distance d => reaches l d
  | _, _ => False

/-- All the bytes are one instruction, with the written operation and operands. -/
def Faithful (reaches : String → ℤ → Prop) (m : Mnemonic) (operands : List Operand)
    (bs : List ℕ) : Prop :=
  ∃ d, decode bs = some (d,[]) ∧ m.operation = some d.operation ∧
    List.Forall₂ (SameOperand reaches) operands d.operands

theorem faithful_iff {reaches : String → ℤ → Prop} {m : Mnemonic}
    {bs rest : List ℕ} {d : Decoded} (h : decode bs = some (d,rest)) :
    Faithful reaches m operands bs ↔ rest = [] ∧ m.operation = some d.operation ∧
      List.Forall₂ (SameOperand reaches) operands d.operands := by
  constructor
  · rintro ⟨e,he,hop,hsame⟩
    rw [h] at he
    cases he
    exact ⟨rfl,hop,hsame⟩
  · rintro ⟨rfl,hop,hsame⟩
    exact ⟨d,h,hop,hsame⟩

section
variable {m : Mnemonic} {op : Operation} {bs : List ℕ} {x : Operand} {d : Decode.Operand}

theorem faithful_none_iff (h : decode bs = some (⟨op,[]⟩,[]))
    (hop : m.operation = some op) : Faithful reaches m operands bs ↔ operands = [] := by
  rw [faithful_iff h, forall₂_nil_right_iff]
  exact ⟨fun hf => hf.2.2,fun hf => ⟨rfl,hop,hf⟩⟩

theorem faithful_one_iff (h : decode bs = some (⟨op,[d]⟩,[]))
    (hop : m.operation = some op) : Faithful reaches m [x] bs ↔ SameOperand reaches x d := by
  rw [faithful_iff h, forall₂_cons]
  exact ⟨fun hf => hf.2.2.1,fun hf => ⟨rfl,hop,hf,.nil⟩⟩

theorem faithful_two_iff {y : Operand} {e : Decode.Operand}
    (h : decode bs = some (⟨op,[d,e]⟩,[])) (hop : m.operation = some op) :
    Faithful reaches m [x,y] bs ↔ SameOperand reaches x d ∧ SameOperand reaches y e := by
  rw [faithful_iff h, forall₂_cons, forall₂_cons]
  exact ⟨fun hf => ⟨hf.2.2.1,hf.2.2.2.1⟩,fun hf => ⟨rfl,hop,hf.1,hf.2,.nil⟩⟩

end

/-! ## Fields of the encoding -/

def Reg.number (r : Reg) : ℕ := if r.high then r.low3+8 else r.low3

def rexOperand (w : Bool) (reg rm : Reg) : Option Rex :=
  if !w && !reg.high && !rm.high && !reg.rex && !rm.rex then none
  else some ⟨w,reg.high,false,rm.high⟩

theorem rexForOperand_eq (w : Bool) (reg rm : Reg) :
    rexForOperand w reg rm = ((rexOperand w reg rm).map Rex.byte).toList := by
  obtain ⟨_,_,high,rex,_,_⟩ := reg
  obtain ⟨_,_,high',rex',_,_⟩ := rm
  cases w <;> cases high <;> cases high' <;> cases rex <;> cases rex' <;>
    simp [rexForOperand, rexOperand, Rex.byte]

section
variable (b w : Bool) (reg rm : Reg)

theorem extend_reg : (⟨b,rexOperand w reg rm⟩ : Prefixes).extend Rex.r reg.low3 = reg.number := by
  unfold Prefixes.extend rexOperand Reg.number
  split_ifs <;> simp_all

theorem extend_rm : (⟨b,rexOperand w reg rm⟩ : Prefixes).extend Rex.b rm.low3 = rm.number := by
  unfold Prefixes.extend rexOperand Reg.number
  split_ifs <;> simp_all

theorem extend_index : (⟨b,rexOperand w reg rm⟩ : Prefixes).extend Rex.x 4 = 4 := by
  unfold Prefixes.extend rexOperand
  split_ifs <;> simp_all

theorem prefixed_width :
    (⟨b,rexOperand w reg rm⟩ : Prefixes).width = if w then 64 else if b then 16 else 32 := by
  unfold Prefixes.width rexOperand
  split_ifs <;> simp_all

end

theorem modrm_eq {mod reg rm : ℕ} (hmod : mod < 4) (hreg : reg < 8) (hrm : rm < 8) :
    modrm mod reg rm = 64*mod+8*reg+rm := by
  have hall : ∀ mod < 4, ∀ reg < 8, ∀ rm < 8, modrm mod reg rm = 64*mod+8*reg+rm := by decide
  exact hall mod hmod reg hreg rm hrm

variable (r : RegName)

theorem RegName.low3_lt : r.reg.low3 < 8 := by
  cases r with
  | general w n => exact Nat.mod_lt _ (by decide)
  | highByte n => exact (show 4+n.val < 8 by omega)
  | cr3 => decide
  | segment s => cases s <;> decide

theorem length_bytes (n : ℕ) (v : ℤ) : (bytes n v).length = n := by
  induction n generalizing v with
  | zero => rfl
  | succ n ih => rw [bytes, length_cons, ih]

theorem littleEndian_bytes (n : ℕ) (v : ℤ) : (littleEndian (bytes n v) : ℤ) = v%256^n := by
  induction n generalizing v with
  | zero => simp [bytes, littleEndian]
  | succ n ih =>
    rw [bytes, littleEndian]
    push_cast
    rw [ih, toNat_of_nonneg (emod_nonneg v (by decide)), pow_succ, mul_comm (256^n)]
    rw [emod_def v (256*256^n), emod_def (v/256), emod_def v 256,
      ← ediv_ediv_of_nonneg (by decide)]
    ring

theorem signed_bytes (n : ℕ) (v : ℤ) (rest : List ℕ) :
    signed n (bytes n v ++ rest) = some (v.bmod (256^n), rest) := by
  have htake : (bytes n v ++ rest).take n = bytes n v := by
    rw [take_append_of_le_length (length_bytes n v).ge, take_of_length_le]
    exact (length_bytes n v).le
  have hdrop : (bytes n v ++ rest).drop n = rest := by
    rw [drop_append, drop_of_length_le (length_bytes n v).le, length_bytes]
    simp
  rw [signed, if_pos (by rw [length_append, length_bytes]; omega), htake, hdrop, littleEndian_bytes]
  have hpow : (256:ℤ)^n = ((256^n:ℕ):ℤ) := by push_cast; rfl
  rw [hpow, emod_bmod]

theorem bmod_byte (hlo : -128 ≤ v) (hhi : v ≤ 127) : v.bmod (256^1) = v := by
  rw [bmod_eq_of_le] <;> norm_num <;> omega

theorem fits_iff_bmod (v : ℤ) : v.bmod (256^4) = v ↔ -2^31 ≤ v ∧ v < 2^31 := by
  constructor
  · intro h
    have hlo := le_bmod (show 0 < 256^4 by decide) (x := v)
    have hhi := bmod_lt (show 0 < 256^4 by decide) (x := v)
    rw [h] at hlo hhi
    norm_num at hlo hhi ⊢
    exact ⟨hlo,hhi⟩
  · rintro ⟨hlo,hhi⟩
    rw [bmod_eq_of_le] <;> norm_num at hlo hhi ⊢ <;> omega

theorem modRM_mem (b w : Bool) (reg : Reg) {regField : ℕ} (hfield : regField < 8) (m : MemOperand)
    (rest : List ℕ) :
    modRM ⟨b,rexOperand w reg m.base.reg⟩ (encodeMemModRM regField m ++ rest) =
      some (regField,
        .mem ⟨.register m.base.reg.number,none,m.disp.toInt.bmod (256^4)⟩, rest) := by
  obtain ⟨mode,disp,hdisp,hmode,hbase,hdec⟩ : ∃ mode disp, encodeMemDisp m = (mode,disp) ∧
      mode < 3 ∧ (m.base.reg.low3 ≠ 5 ∨ mode ≠ 0) ∧
      ∀ base index, displacement mode base index (disp ++ rest) =
        some (.mem ⟨base,index,m.disp.toInt.bmod (256^4)⟩, rest) := by
    by_cases hzero : m.disp.toInt = 0 ∧ m.base.reg.low3 ≠ 5
    · refine ⟨0,[],if_pos hzero,by decide,Or.inl hzero.2,?_⟩
      intro base index
      rw [hzero.1]
      rfl
    · by_cases hbyte : m.disp.toInt ≥ -128 ∧ m.disp.toInt ≤ 127
      · refine ⟨1,bytes 1 m.disp.toInt,?_,by decide,Or.inr (by decide),?_⟩
        · simp only [encodeMemDisp, if_neg hzero, if_pos hbyte]
        · intro base index
          have hwide : m.disp.toInt.bmod (256^4) = m.disp.toInt :=
            (fits_iff_bmod _).mpr ⟨by omega,by omega⟩
          simp only [displacement, one_ne_zero, if_false, if_true, signed_bytes, Option.map_some,
            bmod_byte hbyte.1 hbyte.2, hwide]
      · refine ⟨2,bytes 4 m.disp.toInt,?_,by decide,Or.inr (by decide),?_⟩
        · simp only [encodeMemDisp, if_neg hzero, if_neg hbyte]
        · intro base index
          simp [displacement, signed_bytes]
  have hlow := m.base.low3_lt
  have hnumber := extend_rm b w reg m.base.reg
  simp only [encodeMemModRM, hdisp]
  by_cases hsib : m.base.reg.low3 = 4
  · have hindex : sib 0 4 4 = 0x24 := by decide
    rw [if_pos hsib, modrm_eq (by omega) hfield (by decide), hsib, hindex, append_assoc]
    refine (modRM_sib _ _ hmode hfield (extend_index b w reg m.base.reg)).trans ?_
    rw [hsib] at hnumber
    rw [hnumber, append_eq, nil_append, hdec]
    rfl
  · rw [if_neg hsib, modrm_eq (by omega) hfield hlow, append_assoc]
    refine (modRM_base _ _ hmode hfield hlow hsib hbase).trans ?_
    rw [hnumber, append_eq, nil_append, hdec]
    rfl

/-! ## Which operands an encoding can carry -/

def RegName.isGeneral : Bool := !r.reg.control && !r.reg.segment

def RegName.isHighByte : RegName → Bool
  | .highByte _ => true
  | _ => false

def RegName.is64 : RegName → Bool
  | .general .w64 _ => true
  | _ => false

def FitsInt32 (v : ℤ) : Prop := -2^31 ≤ v ∧ v < 2^31

instance (v : ℤ) : Decidable (FitsInt32 v) := inferInstanceAs (Decidable (_ ∧ _))

def FitsIn (w : ℕ) (v : ℤ) : Prop := -2^(w-1) ≤ v ∧ v < 2^w

instance (w : ℕ) (v : ℤ) : Decidable (FitsIn w v) := inferInstanceAs (Decidable (_ ∧ _))

/-- An address without an address-size prefix. -/
def MemOperand.Addressable : Prop := m.base.is64 ∧ FitsInt32 m.disp.toInt

instance (m : MemOperand) : Decidable m.Addressable := inferInstanceAs (Decidable (_ ∧ _))

/-- What a general-register field at an operand width can name: a high byte only
without a REX prefix. -/
def Named (p : Prefixes) (w : ℕ) (r : RegName) : Prop :=
  r.isGeneral ∧ r.reg.width = w ∧ (r.isHighByte → p.rex = none)

theorem same_register_iff {p : Prefixes} (w : ℕ) (r : RegName)
    (hrex : r.reg.rex → p.rex ≠ none) :
    SameOperand reaches (.reg r) (.reg (p.general w r.reg.number)) ↔ Named p w r := by
  unfold SameOperand Named
  cases r with
  | general width n =>
    have hnumber : (RegName.general width n).reg.number = n.val := by
      simp only [Reg.number, RegName.reg, decide_eq_true_eq]
      split_ifs <;> omega
    rw [hnumber]
    simp only [RegName.register, RegName.isGeneral, RegName.isHighByte, RegName.reg,
      Prefixes.general]
    split_ifs with h
    · obtain ⟨rfl,hnone,hlo,hhi⟩ := h
      simp only [false_iff]
      rintro ⟨-,hwidth,-⟩
      refine hrex ?_ hnone
      cases width <;> simp_all [Width.bits, RegName.reg]
    · simp [eq_comm]
  | highByte n =>
    have hnumber : (RegName.highByte n).reg.number = 4+n.val := by
      simp [Reg.number, RegName.reg]
    rw [hnumber]
    simp only [RegName.register, RegName.isGeneral, RegName.isHighByte, RegName.reg,
      Prefixes.general]
    split_ifs with h
    · simp [h.1, h.2.1]
    · simp only [false_iff]
      rintro ⟨-,rfl,hnone⟩
      exact h ⟨rfl,hnone trivial,by omega,by omega⟩
  | cr3 =>
    simp only [RegName.register, p.general_ne_control, false_iff]
    exact fun h => absurd h.1 (by decide)
  | segment s =>
    simp only [RegName.register, p.general_ne_segment, false_iff]
    exact fun h => absurd h.1 (by simp [RegName.isGeneral, RegName.reg])

theorem same_address_iff :
    SameAddress m ⟨.register m.base.reg.number,none,m.disp.toInt.bmod (256^4)⟩ ↔ m.Addressable := by
  unfold SameAddress MemOperand.Addressable FitsInt32
  rw [← fits_iff_bmod]
  constructor
  · rintro ⟨n,hreg,heq⟩
    refine ⟨?_,(Address.mk.inj heq).2.2⟩
    cases hbase : m.base with
    | general w k =>
      rw [hbase] at hreg
      cases w <;> simp_all [RegName.register, Width.bits, RegName.is64]
    | highByte k | cr3 | segment s => rw [hbase] at hreg; cases hreg
  · rintro ⟨hwide,hdisp⟩
    rw [hdisp]
    refine ⟨m.base.reg.number,?_,rfl⟩
    cases hbase : m.base with
    | general w k =>
      rw [hbase] at hwide
      cases w with
      | w64 =>
        simp only [RegName.register, Width.bits, Reg.number, RegName.reg, decide_eq_true_eq]
        congr 1
        split_ifs <;> omega
      | _ => cases hwide
    | _ => rw [hbase] at hwide; cases hwide

theorem same_memory_iff (w : ℕ) :
    SameOperand reaches (.mem m)
        (.mem w ⟨.register m.base.reg.number,none,m.disp.toInt.bmod (256^4)⟩) ↔
      m.Addressable ∧ (m.width = 0 ∨ m.width = w) := by
  rw [SameOperand, same_address_iff]

theorem same_descriptor_iff :
    SameOperand reaches (.mem m)
        (.descriptor ⟨.register m.base.reg.number,none,m.disp.toInt.bmod (256^4)⟩) ↔
      m.Addressable := by
  rw [SameOperand, same_address_iff]

theorem same_wide_iff :
    SameOperand reaches (.reg r) (.reg (.general 64 r.reg.number)) ↔ r.is64 := by
  unfold SameOperand
  cases r with
  | general w n =>
    have hnumber : (RegName.general w n).reg.number = n.val := by
      simp only [Reg.number, RegName.reg, decide_eq_true_eq]
      split_ifs <;> omega
    rw [hnumber]
    cases w <;> simp [RegName.register, RegName.is64, Width.bits]
  | _ => simp [RegName.register, RegName.is64]

theorem same_low_iff :
    SameOperand reaches (.reg r) (.reg (.general 64 r.reg.low3)) ↔
      r.is64 ∧ r.reg.high = false := by
  unfold SameOperand
  cases r with
  | general w n =>
    have hlow : n.val%8 = n.val ↔ n.val < 8 := by omega
    cases w <;>
      simp [RegName.register, RegName.is64, RegName.reg, Width.bits, hlow]
  | _ => simp [RegName.register, RegName.is64]

/-! ## Immediates -/

theorem bmod_of_upper (hlo : h ≤ v) (hhi : v < 2*h) : v.bmod (2*h) = v-2*h := by
  have hshift : (v-(2*h:ℕ)).bmod (2*h) = v.bmod (2*h) := sub_bmod_right v (2*h)
  rw [← hshift, bmod_eq_of_le] <;> push_cast <;> omega

theorem immediate_iff (v : ℤ) (hpos : 0 < h) :
    (v = v.bmod (2*h) ∨ v.bmod (2*h) < 0 ∧ v = v.bmod (2*h)+2*h) ↔ -h ≤ v ∧ v < 2*h := by
  constructor
  · intro hv
    have hlo := le_bmod (show 0 < 2*h by omega) (x := v)
    have hhi := bmod_lt (show 0 < 2*h by omega) (x := v)
    push_cast at hlo hhi
    omega
  · rintro ⟨hlo,hhi⟩
    by_cases hneg : v < h
    · left
      rw [bmod_eq_of_le] <;> push_cast <;> omega
    · right
      rw [bmod_of_upper (by omega) hhi]
      omega

section
variable (v : Int64)

theorem same_immediate_iff {n : ℕ} (hn : 0 < n) :
    SameOperand reaches (.imm v) (.imm (8*n) (v.toInt.bmod (256^n))) ↔ FitsIn (8*n) v.toInt := by
  have hhalf : 256^n = 2*2^(8*n-1) := by
    rw [← pow_succ', Nat.sub_add_cancel (by omega), pow_mul]
    norm_num
  have htwo : (2:ℤ)^(8*n) = 2*((2^(8*n-1):ℕ):ℤ) := by
    push_cast
    rw [← pow_succ', Nat.sub_add_cancel (by omega)]
  rw [SameOperand, FitsIn, htwo, hhalf, immediate_iff _ (by positivity)]
  push_cast
  rfl

theorem same_extended_iff :
    SameOperand reaches (.imm v) (.imm 64 (v.toInt.bmod (256^4))) ↔ FitsInt32 v.toInt := by
  rw [SameOperand, FitsInt32, ← fits_iff_bmod]
  have hlo := le_bmod (show 0 < 256^4 by decide) (x := v.toInt)
  have hmax := v.toInt_lt
  constructor
  · rintro (heq | ⟨-,heq⟩)
    · exact heq.symm
    · norm_num at hlo hmax heq
      omega
  · exact fun heq => Or.inl heq.symm

theorem same_byte (hlo : -128 ≤ v.toInt) (hhi : v.toInt ≤ 127) (w : ℕ) :
    SameOperand reaches (.imm v) (.imm w (v.toInt.bmod (256^1))) :=
  Or.inl (bmod_byte hlo hhi).symm

end

/-! ## Prefixes of an operand width -/

section
variable (w : ℕ) (reg rm : Reg)

def prefixes : Prefixes := ⟨w = 16,rexOperand (w = 64) reg rm⟩

def sized (opcode : ℕ) (rest : List ℕ) : List ℕ :=
  (if w = 16 then [0x66] else []) ++ (rexForOperand (w = 64) reg rm ++ opcode::rest)

theorem decode_sized {opcode : ℕ} (h : opcode/16 ≠ 4) (h66 : opcode ≠ 0x66) (rest : List ℕ) :
    decode (sized w reg rm opcode rest) = oneByte (prefixes w reg rm) opcode rest := by
  have hdec := decode_encoded (decide (w = 16)) (rexOperand (w = 64) reg rm) h h66 rest
  simp only [decide_eq_true_eq] at hdec
  rw [sized, rexForOperand_eq, hdec, prefixes]

theorem prefixes_width (hw : w = 16 ∨ w = 32 ∨ w = 64) : (prefixes w reg rm).width = w := by
  rw [prefixes, prefixed_width]
  obtain rfl | rfl | rfl := hw <;> rfl

theorem prefixes_rex_reg (h : reg.rex) : (prefixes w reg rm).rex ≠ none := by
  simp [prefixes, rexOperand, h]

theorem prefixes_rex_rm (h : rm.rex) : (prefixes w reg rm).rex ≠ none := by
  simp [prefixes, rexOperand, h]

theorem prefixes_rex_eq_none (hw : w ≠ 64) :
    (prefixes w reg rm).rex = none ↔ rexForOperand false reg rm = [] := by
  rw [rexForOperand_eq]
  simp [prefixes, hw]

end

theorem RegName.width_of_isHighByte {r : RegName} (h : r.isHighByte) : r.reg.width = 8 := by
  cases r with
  | highByte n => rfl
  | _ => cases h

/-- High bytes are named at byte width, where a REX prefix is there for the
registers' sake only. -/
theorem named_iff (w : ℕ) (reg rm : Reg) (r : RegName) :
    Named (prefixes w reg rm) w r ↔ r.isGeneral ∧ r.reg.width = w ∧
      (r.isHighByte → rexForOperand false reg rm = []) := by
  unfold Named
  refine and_congr_right fun _ => and_congr_right fun hwidth => ?_
  refine imp_congr_right fun hbyte => prefixes_rex_eq_none w reg rm ?_
  rw [← hwidth, RegName.width_of_isHighByte hbyte]
  decide

end Wrela.Asm

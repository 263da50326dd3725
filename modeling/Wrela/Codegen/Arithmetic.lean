import Wrela.Codegen.Emit

/-!
# Binary operations

The code emitted for a binary operation against the arithmetic of the operand type:
operands are loaded zero-extended, the operation is done on quadwords, and the store
cuts the result. Every ordering uses the signed conditions on zero-extended quadwords,
so code and type agree exactly when both readings order the operands alike.
-/

set_option autoImplicit false

namespace Wrela.Codegen
open X86 Ir Option

/-- The operators by their names in the representation; `xor` and `mul` are
also spelled `^` and `*`, `div` and `rem` stand for `/` and `%`. -/
inductive BinaryOp where
  | or | add | sub | and | xor | mul | div | rem | shl | shr
  | eq | ne | lt | le | gt | ge
  | other (name : String)
  deriving DecidableEq, Repr

structure Binary where
  id : ℕ
  op : BinaryOp
  left : Value
  right : Value
  type : Ty

namespace BinaryOp

def name : BinaryOp → String
  | .or => "or" | .add => "add" | .sub => "sub" | .and => "and" | .xor => "xor" | .mul => "mul"
  | .div => "/" | .rem => "%" | .shl => "shl" | .shr => "shr"
  | .eq => "eq" | .ne => "ne" | .lt => "lt" | .le => "le" | .gt => "gt" | .ge => "ge"
  | .other name => name

def isLowerComparison : BinaryOp → Bool
  | .eq | .ne | .lt | .le | .gt | .ge => true
  | _ => false

end BinaryOp

def setccOpcode : BinaryOp → UInt8
  | .eq => 0x94
  | .ne => 0x95
  | .lt => 0x9C
  | .le => 0x9E
  | .gt => 0x9F
  | .ge => 0x9D
  | _ => 0x94

def unsupportedBinaryOp (op : BinaryOp) : Except Diagnostic (List Instr) :=
  .error ⟨.CG0001,"unsupported binary op: "++op.name⟩

/-- A constant count is checked and encoded; any other one goes through cl. -/
def emitBinaryShift (frame : Frame) (b : Binary) (opcode : UInt8) :
    Except Diagnostic (List Instr) :=
  match b.right.constInt with
  | some v =>
    if 63 < v.toNat then unsupportedBinaryOp b.op
    else .ok (emitShiftImm opcode .rax (UInt8.ofNat v.toNat))
  | none =>
    (emitLoadValue frame b.right .rcx).map (·++emitShiftCL opcode .rax b.type.valueWidthBits)

/-- The part of `emitBinary` after the left operand is in rax. -/
def emitBinaryOp (frame : Frame) (b : Binary) : Except Diagnostic (List Instr) :=
  let withRight (code : List Instr) : Except Diagnostic (List Instr) :=
    (emitLoadValue frame b.right .r10).map (·++code)
  match b.op with
  | .or => withRight (emitRegRegOp 0x09 .rax .r10)
  | .add => withRight (emitRegRegOp 0x01 .rax .r10)
  | .sub => withRight (emitRegRegOp 0x29 .rax .r10)
  | .and => withRight (emitRegRegOp 0x21 .rax .r10)
  | .xor => withRight (emitRegRegOp 0x31 .rax .r10)
  | .mul => withRight (emitRegRegIMul .rax .r10)
  | .div =>
    match b.type with
    | .prim .u64 => withRight (emitRegRegOp 0x31 .rdx .rdx++emitUnsignedDivReg .r10)
    | _ => unsupportedBinaryOp b.op
  | .rem =>
    match b.type with
    | .prim .u64 =>
      withRight (emitRegRegOp 0x31 .rdx .rdx++emitUnsignedDivReg .r10++emitRegRegMove .rax .rdx)
    | _ => unsupportedBinaryOp b.op
  | .shl => emitBinaryShift frame b 0x04
  | .shr => emitBinaryShift frame b 0x05
  | .eq | .ne | .lt | .le | .gt | .ge =>
    withRight (emitCmpRegReg .rax .r10++emitMovImmToReg .rax 0++emitSetccAl (setccOpcode b.op))
  | .other _ => unsupportedBinaryOp b.op

def emitBinary (frame : Frame) (b : Binary) : Except Diagnostic (List Instr) := do
  let left ← emitLoadValue frame b.left .rax
  let body ← emitBinaryOp frame b
  -- a result without a slot is computed and dropped
  let result := match frame.slots b.id with
    | some slot => emitStoreSlotFromReg .rax slot b.type.valueWidthBits
    | none => []
  return left++body++result

structure Binary.WellTyped (b : Binary) (p : Prim) : Prop where
  left : b.left.type = .prim p
  right : b.right.type = .prim p
  result : b.type = .prim (if b.op.isLowerComparison then .bool else p)
  leftFits : ∀ v, b.left.constInt = some v → v.toNat < 2^p.bits
  rightFits : ∀ v, b.right.constInt = some v → v.toNat < 2^p.bits

/-- The count's modulus for a shift by cl: doublewords below 64 bits. -/
def shiftModulus (p : Prim) : ℕ := if p.size = 8 then 64 else 32

def binaryWord (p : Prim) (constant : Bool) (a b : Word) (op : BinaryOp) : Option Word :=
  match op with
  | .or => some (a ||| b)
  | .add => some (a+b)
  | .sub => some (a-b)
  | .and => some (a &&& b)
  | .xor => some (a ^^^ b)
  | .mul => some (a*b)
  | .div => (divResult 0 a b).map (·.1)
  | .rem => (divResult 0 a b).map (·.2)
  | .shl => some (shiftResult 4 (if constant then 8 else shiftModulus p/8) a b.toNat)
  | .shr => some (shiftResult 5 (if constant then 8 else shiftModulus p/8) a b.toNat)
  | .eq | .ne | .lt | .le | .gt | .ge =>
    some (if holds (setccOpcode op) (subFlags a b) then 1 else 0)
  | .other _ => none

section
variable {frame : Frame} {b : Binary} {p : Prim} {code body : List Instr} {slot : ℤ}

theorem valueWidthBits_prim (p : Prim) : (Ty.prim p).valueWidthBits = p.bits := by
  cases p <;> rfl

variable (s : State)

theorem run_loaded {value : Value} {r : Reg} (hr : r ≠ .rbp)
    (h : (emitLoadValue frame value r).map (·++code) = .ok body) :
    run s body = run (s.setReg r (frame.word s value)) code := by
  cases hl : emitLoadValue frame value r with
  | error e => rw [hl] at h; cases h
  | ok load =>
    rw [hl] at h
    cases h
    exact run_append_some (run_emitLoadValue s hr hl)

def observe : Word × Word × Mem := (s.reg .rax, s.reg .rbp, s.mem)

theorem run_emitBinaryShift {opcode : UInt8}
    (ht : b.type = .prim p) (h : emitBinaryShift frame b opcode = .ok body) :
    (run s body).map observe =
      some (shiftResult opcode (if b.right.constInt.isSome then 8 else shiftModulus p/8)
        (s.reg .rax) (frame.word s b.right).toNat, s.reg .rbp, s.mem) := by
  rw [emitBinaryShift] at h
  cases hv : b.right.constInt with
  | some v =>
    simp only [hv, unsupportedBinaryOp] at h
    split_ifs at h with h63
    cases h
    have hw : frame.word s b.right = v := by rw [Frame.word, hv]
    have hn : v.toNat%256 = v.toNat := by omega
    simp [emitShiftImm, run, exec, observe, hw, hn]
  | none =>
    simp only [hv] at h
    rw [run_loaded s (by decide) h, ht, valueWidthBits_prim]
    have hm : (if p.bits = 64 then 8 else 4) = shiftModulus p/8 := by
      cases p <;> rfl
    simp [emitShiftCL, run, exec, observe, hm]

theorem writeLow_bit (c : Prop) [Decidable c] :
    writeLow 1 0#64 (if c then 1#64 else 0#64) = if c then 1#64 else 0#64 := by
  split_ifs <;> decide

theorem run_emitBinaryOp (ht : b.WellTyped p) (h : emitBinaryOp frame b = .ok body) :
    (run s body).map observe =
      (binaryWord p b.right.constInt.isSome (s.reg .rax) (frame.word s b.right) b.op).map
        fun w => (w, s.reg .rbp, s.mem) := by
  have hresult := ht.result
  rw [emitBinaryOp] at h
  generalize b.op = op at h hresult ⊢
  cases op with
  | or | add | sub | and | xor =>
    rw [run_loaded s (by decide) h]
    simp [emitRegRegOp, run, exec, aluResult, observe, binaryWord]
  | mul =>
    rw [run_loaded s (by decide) h]
    simp [emitRegRegIMul, run, exec, observe, binaryWord]
  | div | rem =>
    simp only at h
    split at h
    · rw [run_loaded s (by decide) h]
      simp [emitRegRegOp, emitUnsignedDivReg, emitRegRegMove, run, exec, aluResult, binaryWord]
      cases divResult 0 (s.reg .rax) (frame.word s b.right) with
      | none => rfl
      | some qr => rfl
    · cases h
  | shl | shr =>
    exact run_emitBinaryShift s hresult h
  | eq | ne | lt | le | gt | ge =>
    rw [run_loaded s (by decide) h]
    simp [emitCmpRegReg, emitRegRegOp, emitMovImmToReg, emitSetccAl, run, exec, aluResult, observe,
      binaryWord, writeLow_bit]
  | other name => cases h

theorem emitBinary_eq_ok (hs : frame.slots b.id = some slot) (h : emitBinary frame b = .ok code) :
    ∃ left body, emitLoadValue frame b.left .rax = .ok left ∧ emitBinaryOp frame b = .ok body ∧
      code = left++body++emitStoreSlotFromReg .rax slot b.type.valueWidthBits := by
  rw [emitBinary] at h
  cases hl : emitLoadValue frame b.left .rax with
  | error e => rw [hl] at h; cases h
  | ok left =>
    cases hb : emitBinaryOp frame b with
    | error e => rw [hl, hb] at h; cases h
    | ok body =>
      rw [hl, hb, hs] at h
      cases h
      exact ⟨left,body,rfl,rfl,rfl⟩

theorem run_emitBinary (ht : b.WellTyped p)
    (hs : frame.slots b.id = some slot) (h : emitBinary frame b = .ok code) :
    (run s code).map State.mem =
      (binaryWord p b.right.constInt.isSome (frame.word s b.left) (frame.word s b.right) b.op).map
        (store s.mem (s.address .rbp (disp32 slot)) (b.type.valueWidthBits/8)) := by
  obtain ⟨left,body,hl,hb,rfl⟩ := emitBinary_eq_ok hs h
  have hbody := run_emitBinaryOp (s.setReg .rax (frame.word s b.left)) ht hb
  rw [Frame.word_setReg frame s b.right _ (by decide), State.setReg_reg, Function.update_self,
    State.setReg_mem, Function.update_of_ne (by decide)] at hbody
  rw [List.append_assoc, run_append_some (run_emitLoadValue s (by decide) hl), run_append]
  cases hw : binaryWord p b.right.constInt.isSome (frame.word s b.left) (frame.word s b.right)
      b.op with
  | none =>
    rw [hw, map_none, map_eq_none_iff] at hbody
    rw [hbody]
    rfl
  | some w =>
    rw [hw, map_some, map_eq_some_iff] at hbody
    obtain ⟨t,hrun,ht⟩ := hbody
    obtain ⟨hax,hbp,hm⟩ : t.reg .rax = w ∧ t.reg .rbp = s.reg .rbp ∧ t.mem = s.mem := by
      simpa [observe] using ht
    simp [hrun, emitStoreSlotFromReg, run, exec, State.address, hax, hbp, hm]

end

/-! ### Against the operand types -/

open BitVec Nat

def truth (p : Prop) [Decidable p] : ℕ := if p then 1 else 0

/-- What an operation on two numbers of a type gives, as the unsigned content of
the result. Division by zero has no result. -/
def exactResult (p : Prim) (a b : Word) : BinaryOp → Option ℕ
  | .add => some (p.wrap (p.value a+p.value b))
  | .sub => some (p.wrap (p.value a-p.value b))
  | .mul => some (p.wrap (p.value a*p.value b))
  | .or => some (a.toNat ||| b.toNat)
  | .and => some (a.toNat &&& b.toNat)
  | .xor => some (a.toNat ^^^ b.toNat)
  | .div => if b = 0 then none else some (a.toNat/b.toNat)
  | .rem => if b = 0 then none else some (a.toNat%b.toNat)
  | .shl => some (p.wrap (p.value a*2^b.toNat))
  | .shr => some (p.wrap (p.value a/2^b.toNat))
  | .eq => some (truth (p.value a = p.value b))
  | .ne => some (truth (p.value a ≠ p.value b))
  | .lt => some (truth (p.value a < p.value b))
  | .le => some (truth (p.value a ≤ p.value b))
  | .gt => some (truth (p.value a > p.value b))
  | .ge => some (truth (p.value a ≥ p.value b))
  | .other _ => none

def BinaryCorrect (frame : Frame) (b : Binary) (p : Prim) (s : State) (slot : ℤ)
    (code : List Instr) : Prop :=
  ∀ r, exactResult p (frame.word s b.left) (frame.word s b.right) b.op = some r →
    ∃ t, run s code = some t ∧
      (load t.mem (s.address .rbp (disp32 slot)) (b.type.valueWidthBits/8)).toNat = r

/-- When the emitted code agrees with the type: an ordering where the operand
type is not the one the machine compares needs equal top bits; a shift needs a
count below the machine's modulus, and to the right a number that is not
negative, unless the result happens to be the same. -/
def Agrees (p : Prim) (constant : Bool) (a b : Word) : BinaryOp → Prop
  | .lt | .le | .gt | .ge =>
    p.ComparesSigned ∨ (p.negative a ↔ p.negative b)
  | .shl =>
    constant ∨ b.toNat < shiftModulus p ∨
      a.toNat*2^(b.toNat%shiftModulus p)%2^p.bits = 0
  | .shr =>
    if p.value a < 0 then
      b = 0 ∨ constant = false ∧ b.toNat%shiftModulus p = 0 ∧ p.value a = -1
    else constant ∨ b.toNat < shiftModulus p ∨ a.toNat/2^(b.toNat%shiftModulus p) = 0
  | _ => True

section
variable {p : Prim} {constant : Bool} {a b : Word} {op : BinaryOp} {n : ℕ}

def WordCorrect (p : Prim) (constant : Bool) (a b : Word) (op : BinaryOp) : Prop :=
  ∀ r, exactResult p a b op = some r → ∃ w, binaryWord p constant a b op = some w ∧
    w.toNat%2^(if op.isLowerComparison then 8 else p.bits) = r

theorem add_correct : WordCorrect p constant a b .add := by
  rintro r ⟨⟩
  refine ⟨a+b,rfl,(p.wrap_eq ?_).symm⟩
  have hw : (a.toNat:ℤ)+b.toNat ≡ (a+b).toNat [ZMOD (2^p.bits : ℕ)] := by
    rw [toNat_add, ← cast_add, Int.natCast_modEq_iff]
    exact (mod_modEq _ _).symm.of_dvd p.range_dvd
  exact ((p.value_modEq a).add (p.value_modEq b)).trans hw

theorem sub_correct : WordCorrect p constant a b .sub := by
  rintro r ⟨⟩
  refine ⟨a-b,rfl,(p.wrap_eq ?_).symm⟩
  have hw : (a.toNat:ℤ)-b.toNat ≡ (a-b).toNat [ZMOD (2^p.bits : ℕ)] := by
    have hd : ((2^p.bits : ℕ):ℤ) ∣ (2^64 : ℕ) := by exact_mod_cast p.range_dvd
    apply Int.ModEq.of_dvd hd
    rw [Int.ModEq, toNat_sub]
    omega
  exact ((p.value_modEq a).sub (p.value_modEq b)).trans hw

theorem mul_correct : WordCorrect p constant a b .mul := by
  rintro r ⟨⟩
  refine ⟨a*b,rfl,(p.wrap_eq ?_).symm⟩
  have hw : (a.toNat:ℤ)*b.toNat ≡ (a*b).toNat [ZMOD (2^p.bits : ℕ)] := by
    rw [toNat_mul, ← cast_mul, Int.natCast_modEq_iff]
    exact (mod_modEq _ _).symm.of_dvd p.range_dvd
  exact ((p.value_modEq a).mul (p.value_modEq b)).trans hw

theorem or_correct (ha : a.toNat < 2^p.bits) (hb : b.toNat < 2^p.bits) :
    WordCorrect p constant a b .or := by
  rintro r ⟨⟩
  exact ⟨a ||| b,rfl,by rw [toNat_or]; exact mod_eq_of_lt (or_lt_two_pow ha hb)⟩

theorem and_correct (ha : a.toNat < 2^p.bits) : WordCorrect p constant a b .and := by
  rintro r ⟨⟩
  refine ⟨a &&& b,rfl,?_⟩
  exact mod_eq_of_lt (lt_of_le_of_lt and_le_left ha)

theorem xor_correct (ha : a.toNat < 2^p.bits) (hb : b.toNat < 2^p.bits) :
    WordCorrect p constant a b .xor := by
  rintro r ⟨⟩
  exact ⟨a ^^^ b,rfl,by rw [toNat_xor]; exact mod_eq_of_lt (xor_lt_two_pow ha hb)⟩

theorem divResult_of_ne (hb : b ≠ 0) :
    divResult 0 a b =
      some (BitVec.ofNat 64 (a.toNat/b.toNat), BitVec.ofNat 64 (a.toNat%b.toNat)) := by
  have hq : a.toNat/b.toNat < 2^64 := lt_of_le_of_lt (div_le_self _ _) a.isLt
  have hn : (0 : Word).toNat*2^64+a.toNat = a.toNat := by simp
  rw [divResult, hn, if_neg]
  rintro (h | h)
  · exact hb h
  · omega

theorem div_correct (hop : op = .div ∨ op = .rem) : WordCorrect .u64 constant a b op := by
  intro r hr
  have hq : a.toNat/b.toNat < 2^64 := lt_of_le_of_lt (div_le_self _ _) a.isLt
  have hm : a.toNat%b.toNat < 2^64 := lt_of_le_of_lt (mod_le _ _) a.isLt
  obtain rfl | rfl := hop
  all_goals
    rw [exactResult] at hr
    split_ifs at hr with hb
    cases hr
    refine ⟨_,by rw [binaryWord, divResult_of_ne hb]; rfl,?_⟩
    simp [BinaryOp.isLowerComparison, Prim.bits, Prim.size]
    omega

theorem compare_correct_iff {P : Prop} [Decidable P]
    (hop : op.isLowerComparison) (he : exactResult p a b op = some (truth P))
    (hw : binaryWord p constant a b op = some (if holds (setccOpcode op) (subFlags a b) then 1 else 0)) :
    WordCorrect p constant a b op ↔ (holds (setccOpcode op) (subFlags a b) ↔ P) := by
  have hbit : ∀ c : Bool, (if c then (1 : Word) else 0).toNat%2^8 = truth (c = true) := by decide
  rw [WordCorrect, he, hw]
  simp only [hop, if_true, some.injEq, forall_eq', exists_eq_left', hbit, truth]
  by_cases hc : holds (setccOpcode op) (subFlags a b) <;> by_cases hP : P <;> simp [hc, hP]

section
variable (ha : a.toNat < 2^p.bits) (hb : b.toNat < 2^p.bits)
include ha hb

theorem eq_correct : WordCorrect p constant a b .eq := by
  have hc : holds (setccOpcode .eq) (subFlags a b) = decide (a = b) := subFlags_equal a b
  rw [compare_correct_iff rfl rfl rfl, hc, decide_eq_true_iff, p.value_inj ha hb]

theorem ne_correct : WordCorrect p constant a b .ne := by
  have hc : holds (setccOpcode .ne) (subFlags a b) = !decide (a = b) :=
    congrArg (!·) (subFlags_equal a b)
  rw [compare_correct_iff rfl rfl rfl, hc, ne_eq, p.value_inj ha hb]
  simp

theorem order_cases :
    (p.ComparesSigned ∨ (p.negative a ↔ p.negative b)) ∧
        (p.value a < p.value b ↔ a.toInt < b.toInt) ∧ (p.value b < p.value a ↔ b.toInt < a.toInt) ∨
      ¬ (p.ComparesSigned ∨ (p.negative a ↔ p.negative b)) ∧
        (p.value a < p.value b ↔ b.toInt < a.toInt) ∧
        (p.value b < p.value a ↔ a.toInt < b.toInt) ∧ a.toInt ≠ b.toInt := by
  by_cases h : p.ComparesSigned ∨ (p.negative a ↔ p.negative b)
  · exact .inl ⟨h,p.value_lt_iff ha hb h,p.value_lt_iff hb ha (h.imp_right Iff.symm)⟩
  · have hne : a.toInt ≠ b.toInt := by
      intro he
      rw [eq_of_toInt_eq he] at h
      exact h (.inr Iff.rfl)
    have hs : ¬ p.ComparesSigned := fun hs => h (.inl hs)
    have hn : ¬ (p.negative a ↔ p.negative b) := fun hn => h (.inr hn)
    exact .inr ⟨h,p.value_lt_opposite ha hb hs hn,
      p.value_lt_opposite hb ha hs fun hn' => hn hn'.symm,hne⟩

theorem order_correct_iff (hop : op = .lt ∨ op = .ge ∨ op = .le ∨ op = .gt) :
    WordCorrect p constant a b op ↔ Agrees p constant a b op := by
  have hlt : holds (setccOpcode .lt) (subFlags a b) = decide (a.toInt < b.toInt) := subFlags_less a b
  have hge : holds (setccOpcode .ge) (subFlags a b) = !decide (a.toInt < b.toInt) :=
    subFlags_notLess a b
  have hle : holds (setccOpcode .le) (subFlags a b) =
      (decide (a = b) || decide (a.toInt < b.toInt)) := by
    rw [← subFlags_less, ← subFlags_equal]
    rfl
  have hgt : holds (setccOpcode .gt) (subFlags a b) =
      (!decide (a = b) && !decide (a.toInt < b.toInt)) := by
    rw [← subFlags_notLess, ← subFlags_equal]
    rfl
  obtain rfl | rfl | rfl | rfl := hop
  all_goals
    rw [compare_correct_iff rfl rfl rfl, Agrees]
    simp only [hlt, hge, hle, hgt, ← toInt_inj, Bool.or_eq_true, Bool.and_eq_true,
      Bool.not_eq_true', decide_eq_true_iff, decide_eq_false_iff_not]
    obtain ⟨h,hless,hmore⟩ | ⟨h,hless,hmore,hne⟩ := order_cases ha hb
    · simp only [h, iff_true]
      omega
    · simp only [h, iff_false]
      omega

end

theorem shiftSize_bounds (p : Prim) (constant : Bool) :
    p.bits ≤ 8*(if constant then 8 else shiftModulus p/8) ∧
      (if constant then 8 else shiftModulus p/8) ≤ 8 := by
  cases p <;> cases constant <;> decide

theorem shiftModulus_mul (p : Prim) : 8*(shiftModulus p/8) = shiftModulus p := by
  cases p <;> rfl

theorem bits_le_shiftModulus (p : Prim) : p.bits ≤ shiftModulus p := by
  cases p <;> decide

theorem toNat_shl {size : ℕ} (hp : p.bits ≤ 8*size) (h8 : size ≤ 8) :
    (shiftResult 4 size a n).toNat%2^p.bits = a.toNat*2^(n%(8*size))%2^p.bits := by
  rw [shiftResult, if_pos rfl, toNat_lowBytes size h8, toNat_shiftLeft, Nat.shiftLeft_eq,
    mod_mod_of_dvd _ (Nat.pow_dvd_pow 2 hp), mod_mod_of_dvd _ p.range_dvd]

theorem toNat_shr {size : ℕ} (ha : a.toNat < 2^p.bits) (hp : p.bits ≤ 8*size) (h8 : size ≤ 8) :
    (shiftResult 5 size a n).toNat%2^p.bits = a.toNat/2^(n%(8*size)) := by
  have hs : a.toNat < 2^(8*size) := lt_of_lt_of_le ha (Nat.pow_le_pow_right (by decide) hp)
  rw [shiftResult, if_neg (by decide), toNat_ushiftRight, shiftRight_eq_div_pow,
    toNat_lowBytes size h8, mod_eq_of_lt hs]
  exact mod_eq_of_lt (lt_of_le_of_lt (div_le_self _ _) ha)

theorem shl_correct_iff (hc : constant → b.toNat ≤ 63) :
    WordCorrect p constant a b .shl ↔ Agrees p constant a b .shl := by
  have he : p.wrap (p.value a*2^b.toNat) = a.toNat*2^b.toNat%2^p.bits := by
    apply p.wrap_eq
    exact (p.value_modEq a).mul_right _
  obtain ⟨hp,h8⟩ := shiftSize_bounds p constant
  have hw := toNat_shl (a := a) (n := b.toNat) hp h8
  simp only [WordCorrect, exactResult, binaryWord, some.injEq, forall_eq', exists_eq_left',
    BinaryOp.isLowerComparison, Bool.false_eq_true, if_false, hw, he, Agrees]
  cases constant with
  | true =>
    have hm : b.toNat%64 = b.toNat := mod_eq_of_lt (by have := hc rfl; omega)
    simp [hm]
  | false =>
    simp only [Bool.false_eq_true, if_false, shiftModulus_mul, false_or]
    by_cases hn : b.toNat < shiftModulus p
    · simp [hn, mod_eq_of_lt hn]
    · -- the whole word is shifted out
      have hz : a.toNat*2^b.toNat%2^p.bits = 0 := by
        apply mod_eq_zero_of_dvd
        have := bits_le_shiftModulus p
        exact Dvd.dvd.mul_left (Nat.pow_dvd_pow 2 (by omega)) _
      simp [hn, hz]

theorem shr_exact_nonneg (ha : a.toNat < 2^p.bits) (h : 0 ≤ p.value a) :
    p.wrap (p.value a/2^b.toNat) = a.toNat/2^b.toNat := by
  have he : p.wrap (p.value a/2^b.toNat) = a.toNat/2^b.toNat%2^p.bits := by
    apply p.wrap_eq
    rw [p.value_of_nonneg ha h]
    rfl
  rw [he]
  exact mod_eq_of_lt (lt_of_le_of_lt (div_le_self _ _) ha)

theorem shr_exact_neg (n : ℕ) (h : p.value a < 0) :
    (p.wrap (p.value a/2^n) : ℤ) = p.value a/2^n+(2^p.bits : ℕ) ∧
      p.value a ≤ p.value a/2^n ∧ p.value a/2^n < 0 := by
  have hpos : (0:ℤ) < 2^n := Int.pow_pos (by decide)
  have hq : p.value a/2^n < 0 := Int.ediv_neg_of_neg_of_pos h hpos
  have hl : p.value a ≤ p.value a/2^n := by
    rw [Int.le_ediv_iff_mul_le hpos]
    have := Int.mul_le_mul_of_nonpos_left (le_of_lt h) (show 1 ≤ (2:ℤ)^n by omega)
    omega
  obtain ⟨hv,hhalf⟩ := p.value_of_neg h
  refine ⟨p.wrap_of_neg hq ?_,hl,hq⟩
  have hr := p.range_eq
  omega

theorem shr_neg_ne {m : ℕ} (h : p.value a < 0) (hm : m ≠ 0) :
    a.toNat/2^m ≠ p.wrap (p.value a/2^n) := by
  obtain ⟨he,hl,hq⟩ := shr_exact_neg n h
  obtain ⟨hv,hhalf⟩ := p.value_of_neg h
  have hr := p.range_eq
  have h2 : 2^1 ≤ 2^m := Nat.pow_le_pow_right (by decide) (Nat.pos_of_ne_zero hm)
  have hd : a.toNat/2^m ≤ a.toNat/2 := div_le_div_left h2 (by decide)
  omega

theorem shr_exact_out (hn : p.bits ≤ n) (h : p.value a < 0) :
    p.wrap (p.value a/2^n) = 2^p.bits-1 := by
  obtain ⟨he,hl,hq⟩ := shr_exact_neg n h
  obtain ⟨hv,hhalf⟩ := p.value_of_neg h
  have hpow : 2^p.bits ≤ 2^n := Nat.pow_le_pow_right (by decide) hn
  have hq' : -1 ≤ p.value a/2^n := by
    rw [Int.le_ediv_iff_mul_le (Int.pow_pos (by decide))]
    have hc : (2:ℤ)^n = (2^n : ℕ) := by norm_cast
    omega
  omega

theorem shr_correct_iff (ha : a.toNat < 2^p.bits) (hc : constant → b.toNat ≤ 63) :
    WordCorrect p constant a b .shr ↔ Agrees p constant a b .shr := by
  obtain ⟨hp,h8⟩ := shiftSize_bounds p constant
  have hw := toNat_shr (n := b.toNat) ha hp h8
  have hb0 : b = 0 ↔ b.toNat = 0 := by
    rw [← toNat_inj]
    rfl
  simp only [WordCorrect, exactResult, binaryWord, some.injEq, forall_eq', exists_eq_left',
    BinaryOp.isLowerComparison, Bool.false_eq_true, if_false, hw, Agrees]
  by_cases hneg : p.value a < 0
  · rw [if_pos hneg, hb0]
    cases constant with
    | true =>
      have hm : b.toNat%64 = b.toNat := mod_eq_of_lt (by have := hc rfl; omega)
      simp only [if_true, Nat.reduceMul, hm, reduceCtorEq, false_and, or_false]
      by_cases h0 : b.toNat = 0
      · simp [h0, p.wrap_value ha]
      · simp [h0, shr_neg_ne hneg h0]
    | false =>
      simp only [Bool.false_eq_true, if_false, shiftModulus_mul, true_and]
      by_cases h0 : b.toNat = 0
      · simp [h0, p.wrap_value ha]
      by_cases hm : b.toNat%shiftModulus p = 0
      · -- the count is a multiple of the modulus, so the word is not shifted at all
        have hle := le_of_dvd (Nat.pos_of_ne_zero h0) (dvd_of_mod_eq_zero hm)
        rw [shr_exact_out ((bits_le_shiftModulus p).trans hle) hneg]
        obtain ⟨hv,hhalf⟩ := p.value_of_neg hneg
        simp only [h0, hm, pow_zero, true_and, false_or]
        omega
      · simp [h0, hm, shr_neg_ne hneg hm]
  · rw [if_neg hneg, shr_exact_nonneg ha (by omega)]
    cases constant with
    | true =>
      have hm : b.toNat%64 = b.toNat := mod_eq_of_lt (by have := hc rfl; omega)
      simp [hm]
    | false =>
      simp only [Bool.false_eq_true, if_false, shiftModulus_mul, false_or]
      by_cases hn : b.toNat < shiftModulus p
      · simp [hn, mod_eq_of_lt hn]
      · have hz : a.toNat/2^b.toNat = 0 := by
          apply div_eq_of_lt (lt_of_lt_of_le ha _)
          have := bits_le_shiftModulus p
          exact Nat.pow_le_pow_right (by decide) (by omega)
        simp [hn, hz]

theorem wordCorrect_iff (ha : a.toNat < 2^p.bits) (hb : b.toNat < 2^p.bits)
    (hc : constant → op = .shl ∨ op = .shr → b.toNat ≤ 63) (hd : op = .div ∨ op = .rem → p = .u64) :
    WordCorrect p constant a b op ↔ Agrees p constant a b op := by
  cases op with
  | or => exact iff_of_true (or_correct ha hb) trivial
  | add => exact iff_of_true add_correct trivial
  | sub => exact iff_of_true sub_correct trivial
  | and => exact iff_of_true (and_correct ha) trivial
  | xor => exact iff_of_true (xor_correct ha hb) trivial
  | mul => exact iff_of_true mul_correct trivial
  | div | rem =>
    obtain rfl := hd (by simp)
    exact iff_of_true (div_correct (by simp)) trivial
  | shl => exact shl_correct_iff fun h => hc h (.inl rfl)
  | shr => exact shr_correct_iff ha fun h => hc h (.inr rfl)
  | eq => exact iff_of_true (eq_correct ha hb) trivial
  | ne => exact iff_of_true (ne_correct ha hb) trivial
  | lt | le | gt | ge => exact order_correct_iff ha hb (by simp)
  | other name => exact iff_of_true (fun r hr => nomatch hr) trivial

end

section
variable {frame : Frame} {b : Binary} {p : Prim} {code : List Instr}

theorem word_lt {value : Value} (s : State) (ht : value.type = .prim p)
    (hf : ∀ v, value.constInt = some v → v.toNat < 2^p.bits) :
    (frame.word s value).toNat < 2^p.bits := by
  have hb : 8*(p.bits/8) = p.bits := by rw [Prim.bits]; omega
  rw [Frame.word]
  split
  · next v hv => exact hf v hv
  · next slot _ _ =>
    have hl := toNat_load_lt (m := s.mem) (a := s.address .rbp (disp32 slot)) (n := p.bits/8)
      (by have := p.bits_le; omega)
    rw [hb] at hl
    rw [ht, valueWidthBits_prim]
    exact hl
  · exact Nat.two_pow_pos _

theorem emitBinaryOp_accepts {body : List Instr} (s : State) (ht : b.WellTyped p)
    (hok : emitBinaryOp frame b = .ok body) :
    (b.right.constInt.isSome → b.op = .shl ∨ b.op = .shr → (frame.word s b.right).toNat ≤ 63) ∧
      (b.op = .div ∨ b.op = .rem → p = .u64) := by
  have hresult := ht.result
  rw [emitBinaryOp] at hok
  constructor
  · intro hc hop
    obtain ⟨v,hv⟩ := isSome_iff_exists.mp hc
    have hshift : ∃ opcode, emitBinaryShift frame b opcode = .ok body := by
      rcases hop with hop | hop
      all_goals
        simp only [hop] at hok
        exact ⟨_,hok⟩
    obtain ⟨opcode,hshift⟩ := hshift
    simp only [emitBinaryShift, hv, unsupportedBinaryOp] at hshift
    split_ifs at hshift with h63
    rw [Frame.word, hv]
    exact Nat.le_of_not_lt h63
  · intro hop
    rcases hop with hop | hop
    all_goals
      simp only [hop, hresult, BinaryOp.isLowerComparison, Bool.false_eq_true, if_false] at hok
      split at hok
      · next heq => exact Ty.prim.inj heq
      · cases hok

theorem binary_stored (s : State) (slot : ℤ) (w : Word) (ht : b.WellTyped p) :
    (load (store s.mem (s.address .rbp (disp32 slot)) (b.type.valueWidthBits/8) w)
      (s.address .rbp (disp32 slot)) (b.type.valueWidthBits/8)).toNat =
        w.toNat%2^(if b.op.isLowerComparison then 8 else p.bits) := by
  have hwidth : b.type.valueWidthBits = if b.op.isLowerComparison then 8 else p.bits := by
    rw [ht.result, valueWidthBits_prim]
    split_ifs <;> rfl
  have hle : b.type.valueWidthBits/8 ≤ 8 ∧ 8*(b.type.valueWidthBits/8) = b.type.valueWidthBits := by
    have := valueWidthBits_cases b.type
    omega
  rw [load_store w hle.1, toNat_lowBytes _ hle.1, hle.2, hwidth]

/-- The emitted code for a binary operation leaves the number that the operand
type prescribes exactly when the two orders of the operands agree, and for
shifts when the machine takes the count as it is. -/
theorem binary_correct_iff (s : State) (slot : ℤ) (ht : b.WellTyped p)
    (hs : frame.slots b.id = some slot) (h : emitBinary frame b = .ok code) :
    BinaryCorrect frame b p s slot code ↔
      Agrees p b.right.constInt.isSome (frame.word s b.left) (frame.word s b.right) b.op := by
  obtain ⟨left,body,-,hb,-⟩ := emitBinary_eq_ok hs h
  obtain ⟨hc,hd⟩ := emitBinaryOp_accepts s ht hb
  rw [← wordCorrect_iff (word_lt s ht.left ht.leftFits) (word_lt s ht.right ht.rightFits) hc hd]
  have hrun := run_emitBinary s ht hs h
  have hstored := fun w => binary_stored s slot w ht
  apply forall_congr'
  intro r
  apply imp_congr_right
  intro _
  cases hw : binaryWord p b.right.constInt.isSome (frame.word s b.left) (frame.word s b.right)
      b.op with
  | none =>
    rw [hw, map_none, map_eq_none_iff] at hrun
    simp [hrun]
  | some w =>
    rw [hw, map_some, map_eq_some_iff] at hrun
    obtain ⟨t,hrun,hm⟩ := hrun
    simp [hrun, hm, hstored]

end

def highLess (right : Word) : Binary :=
  ⟨0,.lt,⟨1,.prim .u64,some (BitVec.ofNat 64 (2^63))⟩,⟨2,.prim .u64,some right⟩,.prim .bool⟩

def flatFrame : Frame := ⟨fun i => some (-8*((i:ℤ)+1)),fun _ => none⟩

theorem highLess_wellTyped (right : Word) : (highLess right).WellTyped .u64 :=
  ⟨rfl,rfl,rfl,fun v _ => v.isLt,fun v _ => v.isLt⟩

def zeroState : State := ⟨fun _ => 0,fun _ => 0,none⟩

theorem binary_correct_iff_high :
    ∃ code, emitBinary flatFrame (highLess (BitVec.ofNat 64 (2^63+1))) = .ok code ∧
      BinaryCorrect flatFrame (highLess (BitVec.ofNat 64 (2^63+1))) .u64 zeroState (-8) code :=
  ⟨_,rfl,(binary_correct_iff zeroState (-8) (highLess_wellTyped _) rfl rfl).mpr
    (.inr (by decide))⟩

/-- The code finds `2^63 < 1`. -/
theorem binary_order_wrong :
    ∃ code, emitBinary flatFrame (highLess 1) = .ok code ∧
      exactResult .u64 (BitVec.ofNat 64 (2^63)) 1 .lt = some 0 ∧
      ¬ BinaryCorrect flatFrame (highLess 1) .u64 zeroState (-8) code := by
  refine ⟨_,rfl,by decide,?_⟩
  intro h
  obtain ⟨t,hrun,hslot⟩ := h 0 (by decide)
  have hmem := run_emitBinary zeroState (highLess_wellTyped 1)
    (show flatFrame.slots (highLess 1).id = some (-8) from rfl) rfl
  have hw : binaryWord .u64 (highLess 1).right.constInt.isSome
      (flatFrame.word zeroState (highLess 1).left) (flatFrame.word zeroState (highLess 1).right)
      (highLess 1).op = some 1 := by decide
  rw [hrun, map_some, hw] at hmem
  rw [some.inj hmem, binary_stored zeroState (-8) 1 (highLess_wellTyped 1)] at hslot
  exact absurd hslot (by decide)

end Wrela.Codegen

import Wrela.Diag
import Wrela.X86.Instr
import Wrela.Ir.Layout

/-!
# Emission helpers

The emitter's helpers as the instructions whose encoding they append to the
code, under the helpers' names. Widths are in bits, as in the source;
displacements and immediates are cut to the 32-bit field of the encoding. Copies
run in pieces of a quadword, then of a doubleword, a word and a byte, through rax.
-/

set_option autoImplicit false

namespace Wrela.Codegen
open X86 Ir Function

structure Value where
  id : ℕ
  type : Ty
  constInt : Option Word

structure Frame where
  slots : ℕ → Option ℤ
  objectSlots : ℕ → Option ℤ

def disp32 (value : ℤ) : BitVec 32 := BitVec.ofInt 32 value

theorem address_zero (s : State) (r : Reg) : s.address r (disp32 0) = s.reg r :=
  BitVec.add_zero _

variable (reg : Reg)

def emitMovImmToReg (value : Word) : List Instr := [.movImm reg value]

def emitRegRegMove (dst src : Reg) : List Instr := [.movReg 8 dst src]

def emitLoadMemToReg (base : Reg) (disp : ℤ) (width : ℕ) : List Instr :=
  [.load (width/8) reg base (disp32 disp)]

def emitStoreMemFromReg (base : Reg) (disp : ℤ) (reg : Reg) (width : ℕ) : List Instr :=
  [.store (width/8) base (disp32 disp) reg]

def emitLoadSlotToReg (slot : ℤ) (width : ℕ) : List Instr :=
  [.load (width/8) reg .rbp (disp32 slot)]

def emitStoreSlotFromReg (slot : ℤ) (width : ℕ) : List Instr :=
  [.store (width/8) .rbp (disp32 slot) reg]

def emitStoreSlotImm (slot value : ℤ) : List Instr := [.storeImm .rbp (disp32 slot) (disp32 value)]

variable (opcode : UInt8)

def emitRegRegOp (left right : Reg) : List Instr := [.alu opcode left right]

def emitCmpRegReg (left right : Reg) : List Instr := emitRegRegOp 0x39 left right

def emitCmpRegImm (value : ℤ) : List Instr := [.cmpImm reg (disp32 value)]

def emitRegRegIMul (dst src : Reg) : List Instr := [.imul dst src]

def emitUnsignedDivReg (rhs : Reg) : List Instr := [.div rhs]

def emitShiftImm (reg : Reg) (amount : UInt8) : List Instr :=
  [.shiftImm opcode reg amount]

/-- Without REX.W the shift is a doubleword one, also for narrower widths. -/
def emitShiftCL (reg : Reg) (width : ℕ) : List Instr :=
  [.shiftCl opcode (if width = 64 then 8 else 4) reg]

def emitSetccAl : List Instr := [.setcc opcode .rax]

def emitAddImm (value : ℤ) : List Instr := [.addImm reg (disp32 value)]

def emitPushReg : List Instr := [.push reg]

def emitPopReg : List Instr := [.pop reg]

/-- A value from its slot; a load of less than a quadword goes into a cleared
register. -/
def loadSlotCode (slot : ℤ) (type : Ty) (dst : Reg) : List Instr :=
  (if type.valueWidthBits < 64 then emitMovImmToReg dst 0 else [])++
    emitLoadSlotToReg dst slot type.valueWidthBits

def emitLoadValue (frame : Frame) (value : Value) (dst : Reg) : Except Diagnostic (List Instr) :=
  match frame.slots value.id with
  | none => .error ⟨.CG0001,"missing slot"⟩
  | some slot =>
    match value.constInt with
    | some v => .ok (emitMovImmToReg dst v)
    | none => .ok (loadSlotCode slot value.type dst)

def Frame.word (frame : Frame) (s : State) (value : Value) : Word :=
  match value.constInt, frame.slots value.id with
  | some v, _ => v
  | none, some slot => load s.mem (s.address .rbp (disp32 slot)) (value.type.valueWidthBits/8)
  | none, none => 0

variable {r dst : Reg} {code : List Instr}

namespace Frame
variable (frame : Frame) (s : State) (value : Value)

@[simp] theorem word_setReg (v : Word) (hr : r ≠ .rbp) :
    frame.word (s.setReg r v) value = frame.word s value := by
  simp [word, State.address, update_of_ne hr.symm]

end Frame

theorem valueWidthBits_cases (t : Ty) :
    t.valueWidthBits = 8 ∨ t.valueWidthBits = 16 ∨ t.valueWidthBits = 32 ∨
      t.valueWidthBits = 64 := by
  rw [Ty.valueWidthBits]
  split <;> simp

theorem run_loadSlotCode (s : State) (slot : ℤ) (type : Ty) (hd : dst ≠ .rbp) :
    run s (loadSlotCode slot type dst) =
      some (s.setReg dst
        (load s.mem (s.address .rbp (disp32 slot)) (type.valueWidthBits/8))) := by
  have hw := valueWidthBits_cases type
  rw [loadSlotCode, emitLoadSlotToReg]
  split_ifs with hn
  · simp only [emitMovImmToReg, List.singleton_append, run, exec, Option.bind_some,
      State.address, State.setReg_reg, State.setReg_mem, update_self,
      update_of_ne hd.symm, writeLow_zero, lowBytes_load, State.setReg_setReg]
  · have h8 : type.valueWidthBits/8 = 8 := by omega
    simp [h8, run, exec, writeLow_eight]

theorem run_emitLoadValue {frame : Frame} {value : Value}
    (s : State) (hd : dst ≠ .rbp) (h : emitLoadValue frame value dst = .ok code) :
    run s code = some (s.setReg dst (frame.word s value)) := by
  rw [emitLoadValue] at h
  split at h
  · cases h
  next slot hs =>
    split at h
    · next v hv =>
      cases h
      simp [emitMovImmToReg, run, exec, Frame.word, hv]
    · next hv =>
      cases h
      simp only [Frame.word, hv, hs]
      exact run_loadSlotCode s slot value.type hd

/-- `t` has the memory of `s`, and its registers but for the listed ones. -/
structure Changes (s t : State) (clobbered : List Reg) : Prop where
  mem : t.mem = s.mem
  reg : ∀ r ∉ clobbered, t.reg r = s.reg r

section
variable {s t u : State} {xs ys clobbered : List Reg} {frame : Frame} {value : Value}

theorem Changes.trans (h : Changes s t xs) (h' : Changes t u ys) : Changes s u (xs++ys) where
  mem := h'.mem.trans h.mem
  reg r hr := by
    rw [List.mem_append, not_or] at hr
    exact (h'.reg r hr.2).trans (h.reg r hr.1)

theorem Changes.mono (c : Changes s t xs) (h : xs ⊆ ys) : Changes s t ys :=
  ⟨c.mem,fun r hr => c.reg r fun hx => hr (h hx)⟩

theorem Changes.address (c : Changes s t clobbered) (h : r ∉ clobbered) (d : BitVec 32) :
    t.address r d = s.address r d := by
  rw [State.address, State.address, c.reg r h]

theorem Changes.word (c : Changes s t clobbered) (h : .rbp ∉ clobbered) :
    frame.word t value = frame.word s value := by
  simp [Frame.word, c.address h, c.mem]

theorem changes_emitLoadValue (s : State) (hd : dst ≠ .rbp)
    (h : emitLoadValue frame value dst = .ok code) :
    ∃ t, run s code = some t ∧ Changes s t [dst] ∧ t.reg dst = frame.word s value := by
  refine ⟨_,run_emitLoadValue s hd h,⟨rfl,fun r hr => ?_⟩,?_⟩
  · simp_all
  · simp

theorem changes_emitMovImmToReg (s : State) (dst : Reg) (v : Word) :
    ∃ t, run s (emitMovImmToReg dst v) = some t ∧ Changes s t [dst] ∧ t.reg dst = v := by
  refine ⟨s.setReg dst v,rfl,⟨rfl,fun r hr => ?_⟩,?_⟩
  · simp_all
  · simp

end

section
variable (a b : Word)

theorem holds_notBelow : holds 0x83 (subFlags a b) ↔ b.toNat ≤ a.toNat := by
  rw [show holds 0x83 (subFlags a b) = !decide (a.toNat < b.toNat) from rfl]
  simp

theorem holds_belowOrEqual : holds 0x86 (subFlags a b) ↔ ¬ b.toNat < a.toNat := by
  rw [show holds 0x86 (subFlags a b) = (decide (a.toNat < b.toNat) || decide (a-b = 0)) from rfl]
  rw [Bool.or_eq_true, decide_eq_true_eq, decide_eq_true_eq, sub_eq_zero_iff, ← BitVec.toNat_inj]
  omega

theorem holds_equal : holds 0x84 (subFlags a b) ↔ a = b := by
  rw [show holds 0x84 (subFlags a b) = (subFlags a b).zf from rfl, subFlags_equal]
  exact decide_eq_true_iff

theorem holds_notEqual : holds 0x85 (subFlags a b) ↔ a ≠ b := by
  rw [show holds 0x85 (subFlags a b) = !(subFlags a b).zf from rfl, subFlags_equal]
  simp

end

/-! ### Copying bytes -/

open State

def copyWidth (remainingBytes : ℕ) : ℕ :=
  if 8 ≤ remainingBytes then 64
  else if 4 ≤ remainingBytes then 32
  else if 2 ≤ remainingBytes then 16
  else 8

/-- The turns of a copy loop from `offset` on, as offset and width; every turn
advances, so there are at most `fuel` of them. -/
def copyTurns (size : ℕ) : ℕ → ℕ → List (ℕ × ℕ)
  | 0, _ => []
  | fuel+1, offset =>
    if offset < size then
      (offset, copyWidth (size-offset))::
        copyTurns size fuel (offset+copyWidth (size-offset)/8)
    else []

variable (srcBase : Reg)

def emitCopyMemoryToMemoryRange (srcDisp : ℤ) (dstBase : Reg) (dstDisp : ℤ)
    (size : ℕ) : List Instr :=
  (copyTurns size size 0).flatMap fun (offset, width) =>
    emitLoadMemToReg .rax srcBase (srcDisp+offset) width++
      emitStoreMemFromReg dstBase (dstDisp+offset) .rax width

def emitValueAddress (frame : Frame) (value : Value) : Except Diagnostic (List Instr × Reg × ℤ) :=
  match frame.slots value.id with
  | none => .error ⟨.CG0001,"missing value slot"⟩
  | some slot =>
    if value.type.isHandleType then .ok (emitLoadSlotToReg .r11 slot 64, .r11, 0)
    else .ok ([], .rbp, slot)

def emitCopyValueToMemoryRange (frame : Frame) (value : Value) (dstBase : Reg) (dstDisp : ℤ)
    (size : ℕ) : Except Diagnostic (List Instr) :=
  if value.type.isHandleType ∧ size ≠ 8 then do
    let (code, srcBase, srcDisp) ← emitValueAddress frame value
    return code++emitCopyMemoryToMemoryRange srcBase srcDisp dstBase dstDisp size
  else do
    let code ← emitLoadValue frame value .rax
    return code++emitStoreMemFromReg dstBase dstDisp .rax value.type.valueWidthBits

def addr (s : State) (base : Reg) (disp : ℤ) : Word := s.reg base+BitVec.ofInt 64 disp

def Fits (disp : ℤ) (size : ℕ) : Prop := -2^31 ≤ disp ∧ disp+size ≤ 2^31

section
variable (s : State) (base : Reg)

theorem signExtend_disp32 {disp : ℤ} (h : -2^31 ≤ disp) (h' : disp < 2^31) :
    (disp32 disp).signExtend 64 = BitVec.ofInt 64 disp := by
  rw [BitVec.signExtend, disp32, BitVec.toInt_ofInt, Int.bmod_eq_of_le (by omega) (by omega)]

theorem address_disp32 {disp : ℤ} (h : -2^31 ≤ disp) (h' : disp < 2^31) :
    s.address base (disp32 disp) = addr s base disp := by
  rw [address, signExtend_disp32 h h', addr]

theorem addr_add (disp : ℤ) (o : ℕ) : addr s base (disp+o) = addr s base disp+BitVec.ofNat 64 o := by
  rw [addr, addr, BitVec.ofInt_add, BitVec.add_assoc]
  rfl

end

theorem copyWidth_cases (n : ℕ) (h : 0 < n) :
    copyWidth n/8 ≤ 8 ∧ 0 < copyWidth n/8 ∧ copyWidth n/8 ≤ n := by
  rw [copyWidth]
  split_ifs <;> omega

def copyBytes (turns : List (ℕ × ℕ)) : List (ℕ × ℕ) := turns.map fun p => (p.1, p.2/8)

theorem copyTurns_covers (size fuel offset : ℕ) (ho : offset ≤ size) (hf : size ≤ offset+fuel) :
    Covers offset size (copyBytes (copyTurns size fuel offset)) := by
  induction fuel generalizing offset with
  | zero => exact le_antisymm ho hf
  | succ fuel ih =>
    rw [copyTurns]
    split_ifs with h
    · obtain ⟨h8,hp,hle⟩ := copyWidth_cases (size-offset) (by omega)
      exact ⟨rfl,⟨hp,h8⟩,ih _ (by omega) (by omega)⟩
    · exact le_antisymm ho (by omega)

theorem store_writeLow {m : Mem} {a old v : Word} {n : ℕ} (hn : n ≤ 8) :
    store m a n (writeLow n old v) = store m a n v := by
  funext x
  rw [store, store]
  split_ifs with h
  · exact byteOf_writeLow v old n _ h hn
  · rfl

theorem run_copyTurns {srcBase dstBase : Reg} (hs : srcBase ≠ .rax) (hd : dstBase ≠ .rax)
    {srcDisp dstDisp : ℤ} {o size : ℕ} {turns : List (ℕ × ℕ)} (hc : Covers o size (copyBytes turns))
    (hsrc : Fits srcDisp size) (hdst : Fits dstDisp size) (s : State) :
    ∃ v, run s (turns.flatMap fun (offset, width) =>
        emitLoadMemToReg .rax srcBase (srcDisp+offset) width++
          emitStoreMemFromReg dstBase (dstDisp+offset) .rax width) =
      some ((s.setReg .rax v).setMem (copyPieces s.mem (addr s dstBase dstDisp)
        (addr s srcBase srcDisp) (copyBytes turns))) := by
  induction turns generalizing s o with
  | nil =>
    refine ⟨s.reg .rax,?_⟩
    simp [copyBytes, copyPieces, setReg, setMem]
  | cons p turns ih =>
    obtain ⟨offset,width⟩ := p
    obtain ⟨rfl,⟨hp,h8⟩,hc⟩ := hc
    simp only at hp h8
    have hle := hc.le
    obtain ⟨hs1,hs2⟩ := hsrc
    obtain ⟨hd1,hd2⟩ := hdst
    have hload : s.address srcBase (disp32 (srcDisp+offset)) =
        addr s srcBase srcDisp+BitVec.ofNat 64 offset := by
      rw [address_disp32 _ _ (by omega) (by omega), addr_add]
    have hstore : ∀ v, (s.setReg .rax v).address dstBase (disp32 (dstDisp+offset)) =
        addr s dstBase dstDisp+BitVec.ofNat 64 offset := by
      intro v
      rw [← addr_add, ← address_disp32 s dstBase (by omega) (by omega)]
      simp [address, hd]
    obtain ⟨v,hv⟩ := ih hc ((s.setReg .rax (writeLow (width/8) (s.reg .rax)
      (load s.mem (addr s srcBase srcDisp+BitVec.ofNat 64 offset) (width/8)))).setMem
      (store s.mem (addr s dstBase dstDisp+BitVec.ofNat 64 offset) (width/8)
        (load s.mem (addr s srcBase srcDisp+BitVec.ofNat 64 offset) (width/8))))
    refine ⟨v,?_⟩
    rw [List.flatMap_cons, run_append_some (t := _) ?_, hv]
    · simp only [addr, copyBytes, List.map_cons, copyPieces, setMem_reg, setMem_mem,
        setReg_reg, Function.update_of_ne hs, Function.update_of_ne hd]
      simp [setReg, setMem]
    · simp [emitLoadMemToReg, emitStoreMemFromReg, run, exec, hload, hstore, setReg_mem, setReg_reg,
        store_writeLow h8]

theorem run_emitCopyMemoryToMemoryRange {srcBase dstBase : Reg} (hs : srcBase ≠ .rax)
    (hd : dstBase ≠ .rax) {srcDisp dstDisp : ℤ} {size : ℕ} (hsrc : Fits srcDisp size)
    (hdst : Fits dstDisp size) (s : State) :
    ∃ v m, run s (emitCopyMemoryToMemoryRange srcBase srcDisp dstBase dstDisp size) =
        some ((s.setReg .rax v).setMem m) ∧
      (∀ x, ¬ InRange x (addr s dstBase dstDisp) size → m x = s.mem x) ∧
      (Disjoint (addr s srcBase srcDisp) size (addr s dstBase dstDisp) size →
        m = copy s.mem (addr s dstBase dstDisp) (addr s srcBase srcDisp) size) := by
  have hc := copyTurns_covers size size 0 (by omega) (by omega)
  obtain ⟨v,hv⟩ := run_copyTurns hs hd hc hsrc hdst s
  refine ⟨v,_,hv,fun x hx => copyPieces_frame hc hx,fun hdis => ?_⟩
  obtain ⟨h1,h2⟩ := hsrc
  exact copyPieces_eq_copy hc hdis (by omega)

/-! ## Deep copies

A deep copy first copies the bytes of an object with all of its storage, then
walks the fields of record type: each gets a handle to its storage in the
destination, and the record its handle in the source points at is copied there.
The two base registers are saved on the stack around the nested copy. -/

def emitAddDisp (reg : Reg) (disp : ℤ) : List Instr :=
  if disp ≠ 0 then emitAddImm reg disp else []

def nestedHandleTmp (dstBase : Reg) : Reg :=
  let tmp := if dstBase = .r10 then Reg.rax else .r10
  if dstBase = tmp then .r11 else tmp

def emitStoreNestedDestinationHandle (dstBase : Reg) (fieldDisp storageDisp : ℤ) : List Instr :=
  emitRegRegMove (nestedHandleTmp dstBase) dstBase++
    emitAddDisp (nestedHandleTmp dstBase) storageDisp++
    emitStoreMemFromReg dstBase fieldDisp (nestedHandleTmp dstBase) 64

/-- Code around the copy of a nested record: its handle in the destination, the
base registers saved, the addresses for the nested copy in r11 and r10. -/
def enterNested (srcDisp : ℤ) (dstBase : Reg) (fieldDisp storageDisp : ℤ) : List Instr :=
  emitStoreNestedDestinationHandle dstBase fieldDisp storageDisp++emitPushReg srcBase++
    emitPushReg dstBase++emitLoadMemToReg .r11 srcBase srcDisp 64++emitRegRegMove .r10 dstBase++
    emitAddDisp .r10 storageDisp

def leaveNested (dstBase : Reg) : List Instr := emitPopReg dstBase++emitPopReg srcBase

mutual

def emitDeepCopyObjectToAddressAsType : Ty → Reg → ℤ → Reg → ℤ → List Instr
  | .prim p, srcBase, srcDisp, dstBase, dstDisp =>
    emitCopyMemoryToMemoryRange srcBase srcDisp dstBase dstDisp (Ty.prim p).storageSize
  | .data fields, srcBase, srcDisp, dstBase, dstDisp =>
    emitCopyMemoryToMemoryRange srcBase srcDisp dstBase dstDisp (Ty.data fields).storageSize++
      deepCopyFields fields (Ty.data fields).info.fields srcBase srcDisp dstBase dstDisp
  | .cls fields, srcBase, srcDisp, dstBase, dstDisp =>
    emitCopyMemoryToMemoryRange srcBase srcDisp dstBase dstDisp (Ty.cls fields).storageSize++
      deepCopyFields fields (Ty.cls fields).info.fields srcBase srcDisp dstBase dstDisp
  | .enum variants, srcBase, srcDisp, dstBase, dstDisp =>
    -- the field order of an enum: the tag, then the payload fields of every variant
    emitCopyMemoryToMemoryRange srcBase srcDisp dstBase dstDisp (Ty.enum variants).storageSize++
      deepCopyVariants variants (Ty.enum variants).info.enumVariants srcBase srcDisp dstBase dstDisp

/-- The loop over fields; only record fields with storage are visited. -/
def deepCopyFields : List Ty → List FieldInfo → Reg → ℤ → Reg → ℤ → List Instr
  | t::ts, field::fields, srcBase, srcDisp, dstBase, dstDisp =>
    (match field.storageOffset with
      | some storageOffset =>
        if t.isData then
          enterNested srcBase (srcDisp+field.offset) dstBase (dstDisp+field.offset)
              (dstDisp+storageOffset)++
            emitDeepCopyObjectToAddressAsType t .r11 0 .r10 0++leaveNested srcBase dstBase
        else []
      | none => [])++
      deepCopyFields ts fields srcBase srcDisp dstBase dstDisp
  | _, _, _, _, _, _ => []

def deepCopyVariants : List (List Ty) → List (List FieldInfo) → Reg → ℤ → Reg → ℤ → List Instr
  | fields::variants, infos::rest, srcBase, srcDisp, dstBase, dstDisp =>
    deepCopyFields fields infos srcBase srcDisp dstBase dstDisp++
      deepCopyVariants variants rest srcBase srcDisp dstBase dstDisp
  | _, _, _, _, _, _ => []

end

end Wrela.Codegen

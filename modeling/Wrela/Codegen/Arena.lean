import Wrela.Arena.Bump
import Wrela.Codegen.Emit

/-!
# Code of arenas and frames

The emitted code of `with` frames and of the three arena requests. An arena
value is the handle of an object of three words; every check is a jump over a
call of `_wrela_memory_oom`, which halts for good.
-/

set_option autoImplicit false

namespace Wrela.Codegen
open X86 Ir Arenas

def emitSubImm (reg : Reg) (value : ℤ) : List Instr := [.subImm reg (disp32 value)]

def emitNegReg (reg : Reg) : List Instr := [.neg reg]

def emitUnsignedMulReg (rhs : Reg) : List Instr := [.mul rhs]

def emitSlotFromBase (dest base : Reg) (slot : ℤ) : List Instr :=
  emitRegRegMove dest base++emitAddImm dest slot

def emitTrapIfAbove (value limit : Reg) : List Instr := emitCmpRegReg value limit++[.trapUnless 0x86]

def emitTrapOnCarry : List Instr := [.trapUnless 0x83]

def emitTrapIfZero (value : Reg) : List Instr :=
  emitMovImmToReg .rcx 0++emitCmpRegReg value .rcx++[.trapUnless 0x85]

/-- Clobbers r11 and rcx. -/
def emitTrapIfNonPowerOfTwo (value : Reg) : List Instr :=
  emitRegRegMove .r11 value++emitSubImm .r11 1++emitRegRegOp 0x21 .r11 value++
    emitMovImmToReg .rcx 0++emitCmpRegReg .r11 .rcx++[.trapUnless 0x84]

def emitUnsignedMulInto (dst rhs : Reg) : List Instr :=
  emitRegRegMove .rax dst++emitUnsignedMulReg rhs++emitMovImmToReg rhs 0++emitCmpRegReg .rdx rhs++
    [.trapUnless 0x84]++emitRegRegMove dst .rax

def emitValueAddressToReg (frame : Frame) (value : Value) (dst : Reg) :
    Except Diagnostic (List Instr) := do
  let (code, base, disp) ← emitValueAddress frame value
  return code++emitRegRegMove dst base++emitAddDisp dst disp

/-- The bump itself, on the arena object rdi points at; the address ends up in rsi. -/
def bumpCode (length align : Reg) : List Instr :=
  emitLoadMemToReg .rax .rdi 16 64++(emitTrapIfZero align++(emitTrapIfNonPowerOfTwo align++
    ((emitRegRegMove .r11 align++emitSubImm .r11 1++emitRegRegOp 0x01 .rax .r11++emitTrapOnCarry)++
    ((emitNegReg align++emitRegRegOp 0x21 .rax align++emitRegRegMove .r11 .rax++
      emitRegRegOp 0x01 .r11 length++emitTrapOnCarry)++
    ((emitLoadMemToReg .rcx .rdi 8 64++emitTrapIfAbove .r11 .rcx)++
    ((emitLoadMemToReg .rsi .rdi 0 64++emitRegRegOp 0x01 .rsi .rax++emitTrapOnCarry)++
    emitStoreMemFromReg .rdi 16 .r11 64))))))

def emitArenaBump (frame : Frame) (arenaValue : Value) (length align : Reg) :
    Except Diagnostic (List Instr) := do
  return (← emitValueAddressToReg frame arenaValue .rdi)++bumpCode length align

structure FrameSave where
  parent : Value
  savedOffsetSlot : ℤ

structure FrameBegin where
  id : ℕ
  parent : Value
  length : Value

def storeFrame (slot objectSlot : ℤ) : List Instr :=
  emitStoreSlotFromReg .rsi objectSlot 64++emitStoreSlotFromReg .r10 (objectSlot+8) 64++
    emitMovImmToReg .rax 0++emitStoreSlotFromReg .rax (objectSlot+16) 64++
    emitStoreMemFromReg .rdi 16 .r11 64++emitSlotFromBase .rax .rbp objectSlot++
    emitStoreSlotFromReg .rax slot 64

def frameBeginCode (save slot objectSlot : ℤ) (loadLength : List Instr) : List Instr :=
  (emitLoadMemToReg .rax .rdi 16 64++emitStoreSlotFromReg .rax save 64)++(loadLength++
    ((emitRegRegMove .r11 .rax++emitRegRegOp 0x01 .r11 .r10++emitTrapOnCarry)++
    ((emitLoadMemToReg .rcx .rdi 8 64++emitTrapIfAbove .r11 .rcx)++
    ((emitLoadMemToReg .rsi .rdi 0 64++emitRegRegOp 0x01 .rsi .rax++emitTrapOnCarry)++
    storeFrame slot objectSlot))))

def emitFrameBegin (frame : Frame) (frameSaves : ℕ → Option FrameSave) (op : FrameBegin) :
    Except Diagnostic (List Instr) :=
  match frameSaves op.id, frame.slots op.id, frame.objectSlots op.id with
  | none, _, _ => .error ⟨.CG0001,"missing frame save slot"⟩
  | some _, none, _ => .ok []
  | some _, some _, none => .error ⟨.CG0001,"missing frame object slot"⟩
  | some save, some slot, some objectSlot => do
    let parent ← emitValueAddressToReg frame op.parent .rdi
    let length ← emitLoadValue frame op.length .r10
    return parent++frameBeginCode save.savedOffsetSlot slot objectSlot length

def emitFrameEnd (frame : Frame) (frameSaves : ℕ → Option FrameSave) (id : ℕ) :
    Except Diagnostic (List Instr) :=
  match frameSaves id with
  | none => .error ⟨.CG0001,"missing frame end save slot"⟩
  | some save => do
    let parent ← emitValueAddressToReg frame save.parent .rdi
    return parent++emitLoadSlotToReg .rax save.savedOffsetSlot 64++emitStoreMemFromReg .rdi 16 .rax 64

def storeSlice (slot objectSlot addressOffset secondOffset : ℤ) (second : Reg) : List Instr :=
  emitStoreSlotFromReg .rsi (objectSlot+addressOffset) 64++
    emitStoreSlotFromReg second (objectSlot+secondOffset) 64++
    emitSlotFromBase .rdi .rbp objectSlot++emitStoreSlotFromReg .rdi slot 64

structure ArenaReserve where
  id : ℕ
  arena : Value
  length : Value
  align : Value

def emitArenaReserve (frame : Frame) (op : ArenaReserve) : Except Diagnostic (List Instr) :=
  match frame.slots op.id, frame.objectSlots op.id with
  | none, _ => .ok []
  | some _, none => .error ⟨.CG0001,"missing reserve object slot"⟩
  | some slot, some objectSlot => do
    let align ← emitLoadValue frame op.align .r9
    let length ← emitLoadValue frame op.length .r10
    let bump ← emitArenaBump frame op.arena .r10 .r9
    return align++(length++(bump++storeSlice slot objectSlot 0 8 .r10))

structure ArenaReserveArray where
  id : ℕ
  arena : Value
  element : Ty
  count : Value
  align : Option Value

def ArenaReserveArray.emitAlign (frame : Frame) (op : ArenaReserveArray) :
    Except Diagnostic (List Instr) :=
  match op.align with
  | some align => emitLoadValue frame align .r9
  | none => .ok (emitMovImmToReg .r9 (BitVec.ofNat 64 (Request.typeAlign op.element)))

/-- The two fields of `Slots`, `address` and `capacity`, stand at 0 and 8. -/
def emitArenaReserveArray (frame : Frame) (op : ArenaReserveArray) :
    Except Diagnostic (List Instr) :=
  match frame.slots op.id, frame.objectSlots op.id with
  | none, _ => .ok []
  | some _, none => .error ⟨.CG0001,"missing reserve_array object slot"⟩
  | some slot, some objectSlot => do
    let count ← emitLoadValue frame op.count .r8
    let align ← op.emitAlign frame
    let bump ← emitArenaBump frame op.arena .r10 .r9
    return count++((emitRegRegMove .r10 .r8++
      emitMovImmToReg .rcx (BitVec.ofNat 64 (Request.elementStorageSize op.element)))++
      (emitUnsignedMulInto .r10 .rcx++(align++(bump++storeSlice slot objectSlot 0 8 .r8))))

structure ArenaPlace where
  id : ℕ
  arena : Value
  type : Ty
  fields : List (ℕ × Value)

def emitDeepCopyValueToTypedStorage (frame : Frame) (value : Value) (type : Ty) (dstBase : Reg)
    (dstDisp : ℤ) : Except Diagnostic (List Instr) := do
  let (code, srcBase, srcDisp) ← emitValueAddress frame value
  return code++emitDeepCopyObjectToAddressAsType type srcBase srcDisp dstBase dstDisp

def emitPlaceField (frame : Frame) (info : TypeInfo) (field : ℕ × Value) :
    Except Diagnostic (List Instr) :=
  match info.fields[field.1]? with
  | none => .error ⟨.CG0001,"unknown arena place field: "++toString field.1⟩
  | some fieldInfo =>
    match fieldInfo.type.isData, fieldInfo.storageOffset with
    | true, some storageOffset => do
      let copy ← emitDeepCopyValueToTypedStorage frame field.2 fieldInfo.type .rsi storageOffset
      return emitStoreNestedDestinationHandle .rsi fieldInfo.offset storageOffset++copy
    | _, _ =>
      let fieldSize :=
        if fieldInfo.storageSize ≠ 0 then fieldInfo.storageSize
        else if fieldInfo.size ≠ 0 then fieldInfo.size
        else fieldInfo.type.representationSize
      emitCopyValueToMemoryRange frame field.2 .rsi (fieldInfo.storageOffset.getD fieldInfo.offset)
        fieldSize

def emitPlaceAddress (frame : Frame) (op : ArenaPlace) (slot : ℤ) : Except Diagnostic (List Instr) := do
  let bump ← emitArenaBump frame op.arena .r10 .r9
  return (emitMovImmToReg .r10 (BitVec.ofNat 64 op.type.storageSize)++
    emitMovImmToReg .r9 (BitVec.ofNat 64 (Request.typeAlign op.type)))++
    (bump++emitStoreSlotFromReg .rsi slot 64)

def emitArenaPlace (frame : Frame) (op : ArenaPlace) : Except Diagnostic (List Instr) :=
  match frame.slots op.id with
  | none => .ok []
  | some slot => do
    let address ← emitPlaceAddress frame op slot
    let fields ← op.fields.mapM (emitPlaceField frame op.type.info)
    return address++fields.flatten

/-- Code that ends in a check reaches `t`, and stops there when the check fails. -/
structure Checked (s : State) (code : List Instr) (bad : Prop) (t : State) : Prop where
  pass : ¬ bad → outcome s code = .ok t
  fail : bad → outcome s code = .error t

/-- Code that computes an optional result: it stops with memory `m` when there
is none, and ends in a state that fits the result when there is one. -/
def Serves {β : Type} (s : State) (m : Mem) (code : List Instr) (result : Option β)
    (Done : β → State → Prop) : Prop :=
  match result with
  | none => ∃ t, outcome s code = .error t ∧ t.mem = m
  | some b => ∃ t, outcome s code = .ok t ∧ Done b t

section
variable {β : Type} {s t : State} {m : Mem} {is js : List Instr} {bad : Prop} {result : Option β}
  {Done : β → State → Prop} {Done' : β → State → Prop}

theorem checked_trap {opcode : UInt8} {f : Flags} (h : run s is = some t) (hf : t.flags = some f)
    (hb : holds opcode f ↔ ¬ bad) : Checked s (is++[.trapUnless opcode]) bad t where
  pass hok := by
    rw [outcome_append, outcome_of_run h]
    simp [Except.bind, outcome, exec, hf, hb.mpr hok]
  fail hbad := by
    have hn : holds opcode f = false := by
      rw [← Bool.not_eq_true]
      exact fun h => hb.mp h hbad
    rw [outcome_append, outcome_of_run h]
    simp [Except.bind, outcome, exec, hf, hn]

theorem Serves.of_outcome_eq (h : Serves t m js result Done) (he : outcome s is = outcome t js) :
    Serves s m is result Done := by
  cases result with
  | none =>
    obtain ⟨u,hu,hm⟩ := h
    exact ⟨u,he.trans hu,hm⟩
  | some b =>
    obtain ⟨u,hu,hd⟩ := h
    exact ⟨u,he.trans hu,hd⟩

theorem Serves.check [Decidable bad] (hc : Checked s is bad t) (hm : t.mem = m)
    (h : ¬ bad → Serves t m js result Done) :
    Serves s m (is++js) (if bad then none else result) Done := by
  by_cases hb : bad
  · rw [if_pos hb]
    exact ⟨t,outcome_append_error (hc.fail hb) js,hm⟩
  · rw [if_neg hb]
    have he : outcome s (is++js) = outcome t js := by
      rw [outcome_append, hc.pass hb]
      rfl
    exact (h hb).of_outcome_eq he

theorem Serves.after_run (hr : run s is = some t) (h : Serves t m js result Done) :
    Serves s m (is++js) result Done := by
  have he : outcome s (is++js) = outcome t js := by
    rw [outcome_append, outcome_of_run hr]
    rfl
  exact h.of_outcome_eq he

theorem Serves.then_run (h : Serves s m is result Done)
    (hr : ∀ b t, Done b t → ∃ u, run t js = some u ∧ Done' b u) :
    Serves s m (is++js) result Done' := by
  cases result with
  | none =>
    obtain ⟨t,he,hm⟩ := h
    exact ⟨t,outcome_append_error he js,hm⟩
  | some b =>
    obtain ⟨t,he,hd⟩ := h
    obtain ⟨u,hu,hd'⟩ := hr b t hd
    refine ⟨u,?_,hd'⟩
    rw [outcome_append, he]
    exact outcome_of_run hu

theorem Serves.mono (h : Serves s m is result Done)
    (hd : ∀ b t, Done b t → Done' b t) : Serves s m is result Done' := by
  cases result with
  | none => exact h
  | some b =>
    obtain ⟨t,he,h⟩ := h
    exact ⟨t,he,hd b t h⟩

end

section
variable (a b : Word)

theorem holds_aboveOrEqual : holds 0x83 (addFlags a b) ↔ ¬ Carries a b := by
  rw [show holds 0x83 (addFlags a b) = !decide (2^64 ≤ a.toNat+b.toNat) from rfl]
  simp [Carries]

end

structure Reads (m : Mem) (p : Word) (arena : Arena) : Prop where
  arenaBase : load m p 8 = arena.arenaBase
  arenaLength : load m (p+8) 8 = arena.arenaLength
  nextOffset : load m (p+16) 8 = arena.nextOffset

section
variable {m m' : Mem} {p : Word} {arena : Arena}

theorem Reads.frame (h : Reads m p arena) (he : ∀ x, InRange x p 24 → m' x = m x) :
    Reads m' p arena where
  arenaBase := (load_frame fun x hx => he x (hx.mono (by decide))).trans h.arenaBase
  arenaLength := (load_frame fun x hx => he x (InRange.shift (k := 8) hx (by decide))).trans
    h.arenaLength
  nextOffset := (load_frame fun x hx => he x (InRange.shift (k := 16) hx (by decide))).trans
    h.nextOffset

theorem Reads.store_offset (h : Reads m p arena) (o : Word) :
    Reads (store m (p+16) 8 o) p {arena with nextOffset := o} where
  arenaBase := by
    rw [← h.arenaBase]
    refine load_store_other fun x hx hy => ?_
    have h2 := (inRange_add_iff (k := 16) (by decide)).mp hy
    exact absurd hx (not_lt.mpr (le_trans (by decide) h2.1))
  arenaLength := by
    rw [← h.arenaLength]
    refine load_store_other fun x hx hy => ?_
    have h1 := (inRange_add_iff (k := 8) (by decide)).mp hx
    have h2 := (inRange_add_iff (k := 16) (by decide)).mp hy
    omega
  nextOffset := by rw [load_store o (by decide), lowBytes_eight]

theorem reads_stored (m : Mem) (p : Word) (arena : Arena) :
    Reads (store (store (store m p 8 arena.arenaBase) (p+8) 8 arena.arenaLength) (p+16) 8
      arena.nextOffset) p arena := by
  have h : Reads (store (store m p 8 arena.arenaBase) (p+8) 8 arena.arenaLength) p
      ⟨arena.arenaBase,arena.arenaLength,load (store (store m p 8 arena.arenaBase) (p+8) 8
        arena.arenaLength) (p+16) 8⟩ := by
    refine ⟨?_,?_,rfl⟩
    · rw [load_store_other fun x hx hy => ?_, load_store _ (by decide), lowBytes_eight]
      have h2 := (inRange_add_iff (k := 8) (by decide)).mp hy
      exact absurd hx (not_lt.mpr h2.1)
    · rw [load_store _ (by decide), lowBytes_eight]
  exact h.store_offset arena.nextOffset

end

section
variable (s : State)

theorem address_sixteen (r : Reg) : s.address r (disp32 16) = s.reg r+16 := rfl

theorem checked_trapIfZero :
    ∃ t, Checked s (emitTrapIfZero .r9) (s.reg .r9 = 0) t ∧ Changes s t [.rcx] := by
  refine ⟨_,checked_trap rfl rfl (holds_notEqual _ _),rfl,fun r hr => ?_⟩
  simp_all [Function.update_apply]

theorem checked_trapIfNonPowerOfTwo :
    ∃ t, Checked s (emitTrapIfNonPowerOfTwo .r9) ((s.reg .r9-1) &&& s.reg .r9 ≠ 0) t ∧
      Changes s t [.r11, .rcx] := by
  refine ⟨_,checked_trap rfl rfl ?_,rfl,fun r hr => ?_⟩
  · exact (holds_equal _ _).trans not_not.symm
  · simp_all

theorem checked_round :
    ∃ t, Checked s (emitRegRegMove .r11 .r9++emitSubImm .r11 1++emitRegRegOp 0x01 .rax .r11++
        emitTrapOnCarry) (Carries (s.reg .rax) (s.reg .r9-1)) t ∧
      Changes s t [.r11, .rax] ∧ t.reg .rax = s.reg .rax+(s.reg .r9-1) := by
  refine ⟨_,checked_trap rfl rfl (holds_aboveOrEqual _ _),⟨rfl,fun r hr => ?_⟩,rfl⟩
  simp_all

theorem checked_end :
    ∃ t, Checked s (emitNegReg .r9++emitRegRegOp 0x21 .rax .r9++emitRegRegMove .r11 .rax++
        emitRegRegOp 0x01 .r11 .r10++emitTrapOnCarry)
        (Carries (s.reg .rax &&& -s.reg .r9) (s.reg .r10)) t ∧
      Changes s t [.r9, .rax, .r11] ∧ t.reg .rax = s.reg .rax &&& -s.reg .r9 ∧
      t.reg .r11 = (s.reg .rax &&& -s.reg .r9)+s.reg .r10 := by
  refine ⟨_,checked_trap rfl rfl (holds_aboveOrEqual _ _),⟨rfl,fun r hr => ?_⟩,rfl,rfl⟩
  simp_all

theorem checked_frameEnd :
    ∃ t, Checked s (emitRegRegMove .r11 .rax++emitRegRegOp 0x01 .r11 .r10++emitTrapOnCarry)
        (Carries (s.reg .rax) (s.reg .r10)) t ∧
      Changes s t [.r11] ∧ t.reg .r11 = s.reg .rax+s.reg .r10 := by
  refine ⟨_,checked_trap rfl rfl (holds_aboveOrEqual _ _),⟨rfl,fun r hr => ?_⟩,rfl⟩
  simp_all

variable {arena : Arena}

theorem checked_limit (h : Reads s.mem (s.reg .rdi) arena) :
    ∃ t, Checked s (emitLoadMemToReg .rcx .rdi 8 64++emitTrapIfAbove .r11 .rcx)
        (arena.arenaLength.toNat < (s.reg .r11).toNat) t ∧ Changes s t [.rcx] := by
  rw [← h.arenaLength, emitTrapIfAbove, ← List.append_assoc]
  refine ⟨_,checked_trap rfl rfl (holds_belowOrEqual _ _),rfl,fun r hr => ?_⟩
  simp_all [Function.update_apply]

theorem checked_base (h : Reads s.mem (s.reg .rdi) arena) :
    ∃ t, Checked s (emitLoadMemToReg .rsi .rdi 0 64++emitRegRegOp 0x01 .rsi .rax++emitTrapOnCarry)
        (Carries arena.arenaBase (s.reg .rax)) t ∧
      Changes s t [.rsi] ∧ t.reg .rsi = arena.arenaBase+s.reg .rax := by
  have hl : load s.mem (s.address .rdi (disp32 0)) 8 = arena.arenaBase := by
    rw [address_zero, h.arenaBase]
  rw [← hl]
  refine ⟨_,checked_trap rfl rfl (holds_aboveOrEqual _ _),⟨rfl,fun r hr => ?_⟩,rfl⟩
  simp_all

/-- A request that was granted by the arena object at `p`: its offset is
written, the address is in rsi. -/
structure Bumped (s : State) (p : Word) (granted : Word × Arena) (t : State) : Prop where
  mem : t.mem = store s.mem (p+16) 8 granted.2.nextOffset
  rsi : t.reg .rsi = granted.1
  reg : ∀ r ∉ [Reg.rax, .rcx, .rsi, .rdi, .r9, .r11], t.reg r = s.reg r

theorem serves_bumpCode (h : Reads s.mem (s.reg .rdi) arena) :
    Serves s s.mem (bumpCode .r10 .r9) (arenaBump arena (s.reg .r10) (s.reg .r9))
      (Bumped s (s.reg .rdi)) := by
  have hload : run s (emitLoadMemToReg .rax .rdi 16 64) = some (s.setReg .rax arena.nextOffset) := by
    rw [← h.nextOffset]
    rfl
  have c0 : Changes s (s.setReg .rax arena.nextOffset) [.rax] := ⟨rfl,fun r hr => by simp_all⟩
  have h0 : (s.setReg .rax arena.nextOffset).reg .rax = arena.nextOffset := by simp
  generalize s.setReg .rax arena.nextOffset = s₀ at hload c0 h0
  obtain ⟨s₁,k1,c1⟩ := checked_trapIfZero s₀
  obtain ⟨s₂,k2,c2⟩ := checked_trapIfNonPowerOfTwo s₁
  obtain ⟨s₃,k3,c3,r3⟩ := checked_round s₂
  obtain ⟨s₄,k4,c4,r4,r4'⟩ := checked_end s₃
  have c01 := c0.trans c1
  have c02 := c01.trans c2
  have c03 := c02.trans c3
  have c04 := c03.trans c4
  have hd4 : s₄.reg .rdi = s.reg .rdi := c04.reg _ (by decide)
  have h4 : Reads s₄.mem (s₄.reg .rdi) arena := by
    rw [c04.mem, hd4]
    exact h
  obtain ⟨s₅,k5,c5⟩ := checked_limit s₄ h4
  have c05 := c04.trans c5
  have h5 : Reads s₅.mem (s₅.reg .rdi) arena := by
    rw [c05.mem, c05.reg .rdi (by decide)]
    exact h
  obtain ⟨s₆,k6,c6,r6⟩ := checked_base s₅ h5
  have c06 := c05.trans c6
  -- the registers each check reads
  rw [c0.reg .r9 (by decide)] at k1
  rw [c01.reg .r9 (by decide)] at k2
  rw [c02.reg .r9 (by decide), c2.reg .rax (by decide), c1.reg .rax (by decide), h0] at k3 r3
  rw [c03.reg .r9 (by decide), c03.reg .r10 (by decide), r3] at k4
  rw [c03.reg .r9 (by decide), r3] at r4 r4'
  rw [c03.reg .r10 (by decide)] at r4'
  rw [r4'] at k5
  rw [c5.reg .rax (by decide), r4] at k6 r6
  refine .after_run hload (.check k1 c01.mem fun _ => .check k2 c02.mem fun _ =>
    .check k3 c03.mem fun _ => .check k4 c04.mem fun _ => .check k5 c05.mem fun _ =>
    .check k6 c06.mem fun _ => ?_)
  refine ⟨s₆.setMem (store s₆.mem (s₆.address .rdi (disp32 16)) 8 (s₆.reg .r11)),rfl,?_,r6,?_⟩
  · rw [State.setMem_mem, address_sixteen, c06.mem, c06.reg .rdi (by decide),
      c6.reg .r11 (by decide), c5.reg .r11 (by decide), r4']
  · intro r hr
    exact c06.reg r (by simp_all)

end

end Wrela.Codegen

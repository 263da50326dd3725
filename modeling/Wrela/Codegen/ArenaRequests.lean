import Wrela.Codegen.Arena

/-!
# What the arena code does

Each piece of emitted code computes the arena arithmetic on the object its
arena value points at: it stops with memory as it was exactly when the
arithmetic refuses, and otherwise leaves the new offset in the arena object and
the result in the slots of its own function.
-/

set_option autoImplicit false

namespace Wrela.Codegen
open X86 Ir Arenas State

variable {frame : Frame} {s : State} {code : List Instr} {slot objectSlot : ℤ}

def Frame.handle (frame : Frame) (s : State) (value : Value) : Word :=
  match frame.slots value.id with
  | some slot => load s.mem (s.address .rbp (disp32 slot)) 8
  | none => 0

section
variable {s t : State} {value : Value} {clobbered : List Reg}

theorem Changes.handle (c : Changes s t clobbered) (h : .rbp ∉ clobbered) :
    frame.handle t value = frame.handle s value := by
  simp [Frame.handle, c.address h, c.mem]

theorem run_emitValueAddressToReg {code : List Instr} (s : State)
    (hh : value.type.isHandleType) (h : emitValueAddressToReg frame value .rdi = .ok code) :
    ∃ t, run s code = some t ∧ Changes s t [.r11, .rdi] ∧ t.reg .rdi = frame.handle s value := by
  obtain ⟨⟨pre,base,disp⟩,ha,h⟩ := bind_eq_ok h
  rw [emitValueAddress] at ha
  split at ha
  · cases ha
  · next slot hs =>
    rw [if_pos hh] at ha
    cases ha
    cases h
    refine ⟨_,rfl,⟨rfl,fun r hr => ?_⟩,?_⟩
    · simp_all
    · rw [Frame.handle, hs]
      rfl

end

section
variable {arena : Arena} {op : ArenaReserveArray}

theorem serves_emitArenaBump {arenaValue : Value} (hh : arenaValue.type.isHandleType)
    (h : emitArenaBump frame arenaValue .r10 .r9 = .ok code)
    (hr : Reads s.mem (frame.handle s arenaValue) arena) :
    Serves s s.mem code (arenaBump arena (s.reg .r10) (s.reg .r9))
      (Bumped s (frame.handle s arenaValue)) := by
  obtain ⟨pre,hp,h⟩ := bind_eq_ok h
  cases h
  obtain ⟨t,ht,c,hd⟩ := run_emitValueAddressToReg s hh hp
  have hr' : Reads t.mem (t.reg .rdi) arena := by rwa [c.mem, hd]
  have hb := serves_bumpCode t hr'
  rw [c.reg .r10 (by decide), c.reg .r9 (by decide), hd, c.mem] at hb
  refine .after_run ht (hb.mono fun b u hu => ⟨?_,hu.rsi,fun r hr => ?_⟩)
  · rw [hu.mem, c.mem]
  · rw [hu.reg r hr, c.reg r (by simp_all)]

def sliceMem (m : Mem) (object second result : Word) (address word : Word) : Mem :=
  store (store (store m object 8 address) second 8 word) result 8 object

structure Returned (s : State) (p : Word) (slot objectSlot : ℤ) (word : Word)
    (granted : Word × Arena) (t : State) : Prop where
  mem : t.mem = sliceMem (store s.mem (p+16) 8 granted.2.nextOffset)
    (s.address .rbp (disp32 objectSlot)) (s.address .rbp (disp32 (objectSlot+8)))
    (s.address .rbp (disp32 slot)) granted.1 word
  rbp : t.reg .rbp = s.reg .rbp

theorem run_storeSlice (t : State) (slot objectSlot : ℤ) (second : Reg) :
    ∃ u, run t (storeSlice slot objectSlot 0 8 second) = some u ∧
      u.mem = sliceMem t.mem (t.address .rbp (disp32 objectSlot))
        (t.address .rbp (disp32 (objectSlot+8))) (t.address .rbp (disp32 slot)) (t.reg .rsi)
        (t.reg second) ∧ u.reg .rbp = t.reg .rbp := by
  rw [storeSlice, Int.add_zero]
  exact ⟨_,rfl,rfl,rfl⟩

theorem serves_emitArenaReserve {op : ArenaReserve} (hslot : frame.slots op.id = some slot)
    (hobject : frame.objectSlots op.id = some objectSlot) (hh : op.arena.type.isHandleType)
    (h : emitArenaReserve frame op = .ok code) (hr : Reads s.mem (frame.handle s op.arena) arena) :
    Serves s s.mem code
      ((Request.reserve (frame.word s op.length) (frame.word s op.align)).serve arena)
      (Returned s (frame.handle s op.arena) slot objectSlot (frame.word s op.length)) := by
  rw [emitArenaReserve, hslot, hobject] at h
  obtain ⟨align,ha,h⟩ := bind_eq_ok h
  obtain ⟨length,hl,h⟩ := bind_eq_ok h
  obtain ⟨bump,hb,h⟩ := bind_eq_ok h
  cases h
  obtain ⟨s₁,h1,c1,r1⟩ := changes_emitLoadValue s (by decide) ha
  obtain ⟨s₂,h2,c2,r2⟩ := changes_emitLoadValue s₁ (by decide) hl
  have c := c1.trans c2
  rw [c1.word (by decide)] at r2
  have hr' : Reads s₂.mem (frame.handle s₂ op.arena) arena := by
    rwa [c.mem, c.handle (by decide)]
  have hs := serves_emitArenaBump hh hb hr'
  rw [r2, c2.reg .r9 (by decide), r1, c.handle (by decide), c.mem] at hs
  refine .after_run h1 (.after_run h2 (hs.then_run fun b t ht => ?_))
  obtain ⟨u,hu,hm,hbp⟩ := run_storeSlice t slot objectSlot .r10
  have hrbp : t.reg .rbp = s.reg .rbp := (ht.reg _ (by decide)).trans (c.reg _ (by decide))
  refine ⟨u,hu,?_,hbp.trans hrbp⟩
  rw [hm, ht.mem, ht.rsi, ht.reg .r10 (by decide), r2, c.mem]
  simp [address, hrbp]

theorem checked_unsignedMul (s : State) :
    ∃ t, Checked s (emitRegRegMove .rax .r10++emitUnsignedMulReg .rcx++emitMovImmToReg .rcx 0++
        emitCmpRegReg .rdx .rcx++[.trapUnless 0x84])
        (¬ BitVec.ofNat 64 ((s.reg .r10).toNat*(s.reg .rcx).toNat/2^64) = 0) t ∧
      Changes s t [.rax, .rdx, .rcx] ∧
      t.reg .rax = BitVec.ofNat 64 ((s.reg .r10).toNat*(s.reg .rcx).toNat) := by
  refine ⟨_,checked_trap rfl rfl ?_,⟨rfl,fun r hr => ?_⟩,rfl⟩
  · rw [not_not]
    exact holds_equal _ _
  · simp_all

theorem unsignedMul_bind {β : Type} (a b : Word) (f : Word → Option β) :
    (unsignedMul a b).bind f =
      if ¬ BitVec.ofNat 64 (a.toNat*b.toNat/2^64) = 0 then none
      else f (BitVec.ofNat 64 (a.toNat*b.toNat)) := by
  rw [unsignedMul]
  by_cases h : BitVec.ofNat 64 (a.toNat*b.toNat/2^64) = 0
  · rw [if_pos h, if_neg (not_not.mpr h), Option.bind_some]
  · rw [if_neg h, if_pos h, Option.bind_none]

def ArenaReserveArray.alignWord (frame : Frame) (s : State) (op : ArenaReserveArray) : Option Word :=
  op.align.map (frame.word s)

theorem changes_emitAlign (s : State) (count : Word) (h : op.emitAlign frame = .ok code) :
    ∃ t, run s code = some t ∧ Changes s t [.r9] ∧
      t.reg .r9 = (Request.reserveArray op.element count (op.alignWord frame s)).align := by
  rw [ArenaReserveArray.emitAlign] at h
  rw [Request.align, ArenaReserveArray.alignWord]
  cases ha : op.align with
  | none =>
    rw [ha] at h
    cases h
    exact changes_emitMovImmToReg s .r9 _
  | some align =>
    rw [ha] at h
    exact changes_emitLoadValue s (by decide) h

theorem serves_emitArenaReserveArray
    (hslot : frame.slots op.id = some slot) (hobject : frame.objectSlots op.id = some objectSlot)
    (hh : op.arena.type.isHandleType) (h : emitArenaReserveArray frame op = .ok code)
    (hr : Reads s.mem (frame.handle s op.arena) arena) :
    Serves s s.mem code
      ((Request.reserveArray op.element (frame.word s op.count) (op.alignWord frame s)).serve arena)
      (Returned s (frame.handle s op.arena) slot objectSlot (frame.word s op.count)) := by
  rw [emitArenaReserveArray, hslot, hobject] at h
  obtain ⟨count,hc,h⟩ := bind_eq_ok h
  obtain ⟨align,ha,h⟩ := bind_eq_ok h
  obtain ⟨bump,hb,h⟩ := bind_eq_ok h
  cases h
  obtain ⟨s₁,h1,c1,r1⟩ := changes_emitLoadValue s (by decide) hc
  -- count and element size for the multiplication
  obtain ⟨s₂,h2,c2,r2,r2'⟩ : ∃ t, run s₁ (emitRegRegMove .r10 .r8++
        emitMovImmToReg .rcx (BitVec.ofNat 64 (Request.elementStorageSize op.element))) = some t ∧
      Changes s₁ t [.r10, .rcx] ∧ t.reg .r10 = s₁.reg .r8 ∧
      t.reg .rcx = BitVec.ofNat 64 (Request.elementStorageSize op.element) :=
    ⟨_,rfl,⟨rfl,fun r hr => by simp_all⟩,rfl,rfl⟩
  obtain ⟨s₃,k3,c3,r3⟩ := checked_unsignedMul s₂
  obtain ⟨s₄,h4,c4,r4,r4'⟩ : ∃ t, run s₃ (emitRegRegMove .r10 .rax) = some t ∧
      Changes s₃ t [.r10] ∧ t.reg .r10 = s₃.reg .rax ∧ t.reg .r8 = s₃.reg .r8 :=
    ⟨_,rfl,⟨rfl,fun r hr => by simp_all⟩,rfl,rfl⟩
  obtain ⟨s₅,h5,c5,r5⟩ := changes_emitAlign s₄ (frame.word s op.count) ha
  have c02 := c1.trans c2
  have c04 := (c02.trans c3).trans c4
  have c05 := c04.trans c5
  have halign : op.alignWord frame s₄ = op.alignWord frame s := by
    rw [ArenaReserveArray.alignWord, ArenaReserveArray.alignWord]
    congr 1
    funext v
    exact c04.word (by decide)
  rw [halign] at r5
  rw [r2, r2', r1] at k3 r3
  have r10 : s₅.reg .r10 = BitVec.ofNat 64 ((frame.word s op.count).toNat*
      (BitVec.ofNat 64 (Request.elementStorageSize op.element)).toNat) := by
    rw [c5.reg .r10 (by decide), r4, r3]
  have r8 : s₅.reg .r8 = frame.word s op.count := by
    rw [c5.reg .r8 (by decide), r4', c3.reg .r8 (by decide), c2.reg .r8 (by decide), r1]
  have hr' : Reads s₅.mem (frame.handle s₅ op.arena) arena := by
    rwa [c05.mem, c05.handle (by decide)]
  have hs := serves_emitArenaBump hh hb hr'
  rw [r5, r10, c05.handle (by decide), c05.mem] at hs
  rw [Request.serve, Request.length, unsignedMul_bind, emitUnsignedMulInto,
    List.append_assoc (emitRegRegMove .rax .r10++emitUnsignedMulReg .rcx++emitMovImmToReg .rcx 0++
      emitCmpRegReg .rdx .rcx++[Instr.trapUnless 0x84])]
  refine .after_run h1 (.after_run h2 (.check k3 (c02.trans c3).mem fun _ =>
    .after_run h4 (.after_run h5 (hs.then_run fun b t ht => ?_))))
  obtain ⟨u,hu,hm,hbp⟩ := run_storeSlice t slot objectSlot .r8
  have hrbp : t.reg .rbp = s.reg .rbp := (ht.reg _ (by decide)).trans (c05.reg _ (by decide))
  refine ⟨u,hu,?_,hbp.trans hrbp⟩
  rw [hm, ht.mem, ht.rsi, ht.reg .r8 (by decide), r8, c05.mem]
  simp [address, hrbp]

structure Placed (s : State) (p : Word) (slot : ℤ) (granted : Word × Arena) (t : State) : Prop where
  mem : t.mem = store (store s.mem (p+16) 8 granted.2.nextOffset) (s.address .rbp (disp32 slot)) 8
    granted.1
  rsi : t.reg .rsi = granted.1
  rbp : t.reg .rbp = s.reg .rbp

theorem serves_emitPlaceAddress {op : ArenaPlace}
    (hh : op.arena.type.isHandleType) (h : emitPlaceAddress frame op slot = .ok code)
    (hr : Reads s.mem (frame.handle s op.arena) arena) :
    Serves s s.mem code ((Request.place op.type).serve arena)
      (Placed s (frame.handle s op.arena) slot) := by
  obtain ⟨bump,hb,h⟩ := bind_eq_ok h
  cases h
  obtain ⟨s₁,h1,c1,r1,r1'⟩ : ∃ t, run s (emitMovImmToReg .r10 (BitVec.ofNat 64 op.type.storageSize)++
        emitMovImmToReg .r9 (BitVec.ofNat 64 (Request.typeAlign op.type))) = some t ∧
      Changes s t [.r10, .r9] ∧ t.reg .r10 = BitVec.ofNat 64 op.type.storageSize ∧
      t.reg .r9 = BitVec.ofNat 64 (Request.typeAlign op.type) :=
    ⟨_,rfl,⟨rfl,fun r hr => by simp_all⟩,rfl,rfl⟩
  have hr' : Reads s₁.mem (frame.handle s₁ op.arena) arena := by
    rwa [c1.mem, c1.handle (by decide)]
  have hs := serves_emitArenaBump hh hb hr'
  rw [r1, r1', c1.handle (by decide), c1.mem] at hs
  refine .after_run h1 (hs.then_run fun b t ht => ?_)
  have hrbp : t.reg .rbp = s.reg .rbp := (ht.reg _ (by decide)).trans (c1.reg _ (by decide))
  refine ⟨_,rfl,?_,ht.rsi,hrbp⟩
  rw [setMem_mem, ht.mem, ht.rsi, c1.mem, address, address, hrbp]

end

section
variable {frameSaves : ℕ → Option FrameSave} {save : FrameSave}

def frameMem (s : State) (m : Mem) (p : Word) (slot objectSlot : ℤ) (opened : Arena)
    (offset : Word) : Mem :=
  store (store (store (store (store m
    (s.address .rbp (disp32 objectSlot)) 8 opened.arenaBase)
    (s.address .rbp (disp32 (objectSlot+8))) 8 opened.arenaLength)
    (s.address .rbp (disp32 (objectSlot+16))) 8 opened.nextOffset)
    (p+16) 8 offset)
    (s.address .rbp (disp32 slot)) 8 (s.address .rbp (disp32 objectSlot))

structure Opened (s : State) (m : Mem) (p : Word) (slot objectSlot : ℤ)
    (opened : Arena × Arena) (t : State) : Prop where
  mem : t.mem = frameMem s m p slot objectSlot opened.1 opened.2.nextOffset
  rbp : t.reg .rbp = s.reg .rbp

theorem run_storeFrame (t : State) (slot objectSlot : ℤ) :
    ∃ u, run t (storeFrame slot objectSlot) = some u ∧
      u.mem = frameMem t t.mem (t.reg .rdi) slot objectSlot ⟨t.reg .rsi,t.reg .r10,0⟩
        (t.reg .r11) ∧ u.reg .rbp = t.reg .rbp :=
  ⟨_,rfl,rfl,rfl⟩

def savedMem (s : State) (save : FrameSave) (parent : Arena) : Mem :=
  store s.mem (s.address .rbp (disp32 save.savedOffsetSlot)) 8 parent.nextOffset

theorem serves_emitFrameBegin {op : FrameBegin}
    {parent : Arena} (hsave : frameSaves op.id = some save) (hslot : frame.slots op.id = some slot)
    (hobject : frame.objectSlots op.id = some objectSlot)
    (hh : op.parent.type.isHandleType) (h : emitFrameBegin frame frameSaves op = .ok code)
    (hr : Reads s.mem (frame.handle s op.parent) parent)
    (hr' : Reads (savedMem s save parent) (frame.handle s op.parent) parent) :
    Serves s (savedMem s save parent) code
      (frameBegin parent (frame.word (s.setMem (savedMem s save parent)) op.length))
      (Opened s (savedMem s save parent) (frame.handle s op.parent) slot objectSlot) := by
  rw [emitFrameBegin, hsave, hslot, hobject] at h
  obtain ⟨pre,hp,h⟩ := bind_eq_ok h
  obtain ⟨length,hl,h⟩ := bind_eq_ok h
  cases h
  obtain ⟨s₁,h1,c1,r1⟩ := run_emitValueAddressToReg s hh hp
  generalize hm : savedMem s save parent = m at hr'
  -- from here on states are compared with the first one, the offset saved
  have c1' : Changes (s.setMem m) (s₁.setMem m) [.r11, .rdi] := ⟨rfl,c1.reg⟩
  obtain ⟨s₂,h2,c2,r2⟩ : ∃ t, run s₁ (emitLoadMemToReg .rax .rdi 16 64++
        emitStoreSlotFromReg .rax save.savedOffsetSlot 64) = some t ∧
      Changes (s₁.setMem m) t [.rax] ∧ t.reg .rax = parent.nextOffset := by
    have hrax : load s₁.mem (s₁.address .rdi (disp32 16)) 8 = parent.nextOffset := by
      rw [address_sixteen, r1, c1.mem, hr.nextOffset]
    refine ⟨_,rfl,⟨?_,fun r hr => by simp_all⟩,hrax⟩
    rw [setMem_mem, setMem_mem, ← hm, savedMem, ← hrax, ← c1.mem,
      ← c1.address (show .rbp ∉ [Reg.r11, .rdi] by decide)]
    rfl
  obtain ⟨s₃,h3,c3,r3⟩ := changes_emitLoadValue s₂ (by decide) hl
  have c02 := c1'.trans c2
  have c03 := c02.trans c3
  obtain ⟨s₄,k4,c4,r4⟩ := checked_frameEnd s₃
  have c04 := c03.trans c4
  have hd4 : s₄.reg .rdi = frame.handle s op.parent := by
    rw [c4.reg .rdi (by decide), c3.reg .rdi (by decide), c2.reg .rdi (by decide), setMem_reg,
      r1]
  have h4 : Reads s₄.mem (s₄.reg .rdi) parent := by
    rw [c04.mem, hd4]
    exact hr'
  obtain ⟨s₅,k5,c5⟩ := checked_limit s₄ h4
  have c05 := c04.trans c5
  have h5 : Reads s₅.mem (s₅.reg .rdi) parent := by
    rw [c05.mem, c5.reg .rdi (by decide), hd4]
    exact hr'
  obtain ⟨s₆,k6,c6,r6⟩ := checked_base s₅ h5
  have c06 := c05.trans c6
  rw [c02.word (by decide)] at r3
  rw [c3.reg .rax (by decide), r2, r3] at k4 r4
  rw [r4] at k5
  rw [c5.reg .rax (by decide), c4.reg .rax (by decide), c3.reg .rax (by decide), r2] at k6 r6
  refine .after_run h1 (.after_run h2 (.after_run h3 (.check k4 c04.mem fun _ =>
    .check k5 c05.mem fun _ => .check k6 c06.mem fun _ => ?_)))
  have hrbp : s₆.reg .rbp = s.reg .rbp := c06.reg _ (by decide)
  obtain ⟨u,hu,hmu,hbp⟩ := run_storeFrame s₆ slot objectSlot
  refine ⟨u,outcome_of_run hu,?_,hbp.trans hrbp⟩
  have hrdi : s₆.reg .rdi = frame.handle s op.parent := by
    rw [c6.reg .rdi (by decide), c5.reg .rdi (by decide), hd4]
  have hr10 : s₆.reg .r10 = frame.word (s.setMem m) op.length := by
    rw [c6.reg .r10 (by decide), c5.reg .r10 (by decide), c4.reg .r10 (by decide), r3]
  have hr11 : s₆.reg .r11 = parent.nextOffset+frame.word (s.setMem m) op.length := by
    rw [c6.reg .r11 (by decide), c5.reg .r11 (by decide), r4]
  rw [hmu, hrdi, hr10, hr11, r6, c06.mem]
  simp [frameMem, address, hrbp, setMem_mem]

/-- The offset goes back into whatever arena the parent value now points at. -/
theorem run_emitFrameEnd {id : ℕ} (hsave : frameSaves id = some save)
    (hh : save.parent.type.isHandleType) (h : emitFrameEnd frame frameSaves id = .ok code) :
    ∃ t, run s code = some t ∧ t.reg .rbp = s.reg .rbp ∧
      t.mem = store s.mem (frame.handle s save.parent+16) 8
        (load s.mem (s.address .rbp (disp32 save.savedOffsetSlot)) 8) := by
  rw [emitFrameEnd, hsave] at h
  obtain ⟨pre,hp,h⟩ := bind_eq_ok h
  cases h
  obtain ⟨s₁,h1,c1,r1⟩ := run_emitValueAddressToReg s hh hp
  rw [List.append_assoc, run_append_some h1]
  refine ⟨_,rfl,c1.reg _ (by decide),?_⟩
  rw [← r1, ← c1.mem, ← c1.address (show .rbp ∉ [Reg.r11, .rdi] by decide)]
  rfl

end

end Wrela.Codegen

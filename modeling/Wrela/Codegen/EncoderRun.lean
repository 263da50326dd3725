import Wrela.Codegen.EventEncoder

/-!
# What an encoder's operations do to its slot

The body of an encoder leaves its frame alone and changes the slot's bytes: a
field store puts the bytes of a parameter's home slot at an offset, a fill puts
zeros, and the store of a record or an enum copies through whatever handle the
home slot holds. The slot is written from front to back, up to the checksum.
-/

set_option autoImplicit false

namespace Wrela.Codegen
open X86 Ir BitVec

structure Site where
  layout : EventLayout
  base : Word
  slot : Word
  mem : Mem

def put (offset n : ℕ) (f c : ℕ → BitVec 8) (k : ℕ) : BitVec 8 :=
  if offset ≤ k ∧ k < offset+n then f (k-offset) else c k

namespace Site
variable (e : Site) {x : Word} {offset : ℕ}

def frame : Frame := encoderFrame e.layout

def size : ℕ := encoderFrameSize e.layout

def stackEnd : Word := e.base-BitVec.ofNat 64 (e.size+8)

structure Valid : Prop where
  small : e.size < 2^31
  slot : load e.mem (e.base-8) 8 = e.slot
  apart : Disjoint e.slot 512 e.stackEnd (e.size+16)

def word (v : Value) : Word :=
  match v.constInt, e.frame.slots v.id with
  | some c, _ => c
  | none, some d => load e.mem (e.base+BitVec.ofInt 64 d) v.type.representationSize
  | none, none => 0

structure Body (c : ℕ → BitVec 8) (s : State) : Prop where
  rbp : s.reg .rbp = e.base
  rsp : s.reg .rsp = e.base-BitVec.ofNat 64 e.size
  frame : ∀ x, InRange x (e.base-BitVec.ofNat 64 e.size) e.size → s.mem x = e.mem x
  contents : ∀ k < 512, s.mem (e.slot+BitVec.ofNat 64 k) = c k

section
variable {e : Site} {v : Value} {d : ℤ} {c c' : ℕ → BitVec 8} {s t : State}

theorem home_eq (hd : -(e.size:ℤ) ≤ d) :
    e.base+BitVec.ofInt 64 d = e.base-BitVec.ofNat 64 e.size+BitVec.ofNat 64 (e.size+d).toNat := by
  have hofInt : BitVec.ofNat 64 (e.size+d).toNat = BitVec.ofNat 64 e.size+BitVec.ofInt 64 d := by
    rw [← ofInt_natCast, ← ofInt_natCast, ← ofInt_add]
    congr 1
    omega
  rw [hofInt, ← BitVec.add_assoc, BitVec.sub_add_cancel]

theorem home_inRange (hv : v = valueOf e.layout v.id) (hd : e.frame.slots v.id = some d)
    (hx : InRange x (e.base+BitVec.ofInt 64 d) v.type.representationSize) :
    InRange x (e.base-BitVec.ofNat 64 e.size) e.size := by
  obtain ⟨h1,h2,-⟩ := slot_bounds e.layout hv hd
  rw [home_eq h1] at hx
  refine hx.shift ?_
  simp only [size]
  omega

theorem Body.word (he : e.Valid) (hb : e.Body c s) (hv : v = valueOf e.layout v.id) :
    e.frame.word s v = e.word v := by
  rw [Frame.word, Site.word]
  cases hc : v.constInt with
  | some w => rfl
  | none =>
    cases hd : e.frame.slots v.id with
    | none => rfl
    | some d =>
      obtain ⟨h1,h2,-⟩ := slot_bounds e.layout hv hd
      have hsmall := he.small
      have ha : s.address .rbp (disp32 d) = e.base+BitVec.ofInt 64 d := by
        rw [address_disp32 s .rbp (by simp only [size] at hsmall; omega) (by omega), addr, hb.rbp]
      simp only [ha, valueWidthBits_div]
      exact load_frame fun x hx => hb.frame x (home_inRange hv hd hx)

theorem Body.slot_word (he : e.Valid) (hb : e.Body c s) : e.frame.word s Encoder.slot = e.slot := by
  have hd : e.frame.slots Encoder.slot.id = some (-8) := slots_header e.layout (by decide)
  have hbase : e.base+BitVec.ofInt 64 (-8) = e.base-8 := by
    rw [show BitVec.ofInt 64 (-8) = -(8 : Word) by decide, BitVec.sub_eq_add_neg]
  rw [hb.word he rfl, ← he.slot, ← hbase, Site.word, hd]
  rfl

end

section
variable {e : Site} {v : Value} {c c' : ℕ → BitVec 8} {s t : State}

theorem frame_apart (he : e.Valid)
    (hx : InRange x (e.base-BitVec.ofNat 64 e.size) e.size) : ¬ InRange x e.slot 512 := by
  intro hs
  refine he.apart x hs ?_
  have heq : e.base-BitVec.ofNat 64 e.size = e.stackEnd+BitVec.ofNat 64 8 := by
    have hsmall := he.small
    rw [stackEnd]
    bv_omega
  rw [heq] at hx
  exact hx.shift (by omega)

theorem Body.write (he : e.Valid) (hb : e.Body c s) (hrbp : t.reg .rbp = s.reg .rbp)
    (hrsp : t.reg .rsp = s.reg .rsp) (hout : ∀ x, ¬ InRange x e.slot 512 → t.mem x = s.mem x)
    (hin : ∀ k < 512, t.mem (e.slot+BitVec.ofNat 64 k) = c' k) : e.Body c' t where
  rbp := hrbp.trans hb.rbp
  rsp := hrsp.trans hb.rsp
  frame x hx := (hout x (frame_apart he hx)).trans (hb.frame x hx)
  contents := hin

theorem Body.put (he : e.Valid) (hb : e.Body c s) {n : ℕ} (hn : offset+n ≤ 512)
    {f : ℕ → BitVec 8} (hrbp : t.reg .rbp = s.reg .rbp) (hrsp : t.reg .rsp = s.reg .rsp)
    (hout : ∀ x, ¬ InRange x (e.slot+BitVec.ofNat 64 offset) n → t.mem x = s.mem x)
    (hin : ∀ j < n, t.mem (e.slot+BitVec.ofNat 64 (offset+j)) = f j) :
    e.Body (Codegen.put offset n f c) t := by
  refine hb.write he hrbp hrsp (fun x hx => hout x fun h => hx (h.shift hn)) ?_
  intro k hk
  rw [Codegen.put]
  split_ifs with h
  · have := hin (k-offset) (by omega)
    rwa [show offset+(k-offset) = k by omega] at this
  · rw [hout _ (fun hr => h ((inRange_offset_iff (by omega) (by omega)).mp hr)), hb.contents k hk]

end

theorem run_storeAt (s : State) (base reg : Reg) (ho : offset < 2^31) (width : ℕ) :
    run s (emitStoreMemFromReg base offset reg width) =
      some (s.setMem (store s.mem (s.reg base+BitVec.ofNat 64 offset) (width/8) (s.reg reg))) := by
  have ha : s.address base (disp32 (offset:ℤ)) = s.reg base+BitVec.ofNat 64 offset := by
    rw [address_disp32 s base (by omega) (by omega), addr, ofInt_natCast]
  simp [emitStoreMemFromReg, run, exec, ha]

theorem storageWidth_prim (p : Prim) : storageSlotStoreWidthBits (.prim p)/8 = p.size := by
  cases p <;> rfl

theorem prim_size_le (p : Prim) : p.size ≤ 8 := by
  cases p <;> decide

section
variable {e : Site} {v : Value} {c : ℕ → BitVec 8} {s : State} {offset : ℕ} {code : List Instr}
  {length : ℕ} {d : ℤ} {type : Ty}

theorem run_slotStore (he : e.Valid) (hb : e.Body c s) (hv : v = valueOf e.layout v.id)
    {p : Prim} (hn : offset+p.size ≤ 512)
    (h : emitStorageSlotStore e.frame Encoder.slot offset v (.prim p) = .ok code) :
    ∃ t, run s code = some t ∧ e.Body (Codegen.put offset p.size (byteOf (e.word v)) c) t := by
  obtain ⟨load,hl,h⟩ := bind_eq_ok h
  rw [if_neg (by simp [Ty.isHandleType])] at h
  obtain ⟨value,hval,h⟩ := bind_eq_ok h
  cases h
  have h1 := run_emitLoadValue s (by decide) hl
  rw [hb.slot_word he] at h1
  have h2 := run_emitLoadValue (s.setReg .r11 e.slot) (by decide) hval
  rw [Frame.word_setReg _ _ _ _ (by decide), hb.word he hv] at h2
  have h3 := run_storeAt ((s.setReg .r11 e.slot).setReg .rax (e.word v)) .r11 .rax
    (show offset < 2^31 by omega) (storageSlotStoreWidthBits (.prim p))
  rw [storageWidth_prim] at h3
  refine ⟨_,by rw [run_append_some (by rw [run_append_some h1, h2]), h3],?_⟩
  refine hb.put he hn rfl rfl (fun x hx => store_outside hx) fun j hj => ?_
  have hp := prim_size_le p
  rw [← add_ofNat_add]
  exact store_inside _ hj (by omega)

theorem run_zeroTurns {a : Word} {o : ℕ} {turns : List (ℕ × ℕ)}
    (hc : Covers o length (copyBytes turns)) (hl : offset+length < 2^31) (s : State)
    (hr : s.reg .r11+BitVec.ofNat 64 offset = a) (hz : s.reg .rax = 0) :
    ∃ m, run s (turns.flatMap fun (o, width) =>
        emitStoreMemFromReg .r11 (offset+o) .rax width) = some (s.setMem m) ∧
      (∀ x, ¬ InRange x a length → m x = s.mem x) ∧
      ∀ j, j < length → m (a+BitVec.ofNat 64 j) = if o ≤ j then 0 else s.mem (a+BitVec.ofNat 64 j) := by
  induction turns generalizing s o with
  | nil =>
    have ho : o = length := hc
    refine ⟨s.mem,rfl,fun _ _ => rfl,fun j hj => ?_⟩
    rw [if_neg (by omega)]
  | cons p turns ih =>
    obtain ⟨o,width⟩ := p
    obtain ⟨rfl,⟨hp,h8⟩,hc⟩ := hc
    simp only at hp h8 hc
    have hle := hc.le
    have h1 := run_storeAt s .r11 .rax (show offset+o < 2^31 by omega) width
    rw [← add_ofNat_add, hr, hz] at h1
    obtain ⟨m,hm,hout,hin⟩ := ih hc (s.setMem (store s.mem (a+BitVec.ofNat 64 o) (width/8) 0)) hr hz
    refine ⟨m,?_,?_,?_⟩
    · rw [Nat.cast_add] at h1
      rw [List.flatMap_cons, run_append_some h1, hm]
      rfl
    · intro x hx
      rw [hout x hx]
      exact store_outside fun h => hx (h.shift hle)
    · intro j hj
      rw [hin j hj]
      by_cases h2 : o+width/8 ≤ j
      · rw [if_pos h2, if_pos (by omega)]
      · rw [if_neg h2]
        simp only [State.setMem_mem]
        by_cases h3 : o ≤ j
        · have hj' : a+BitVec.ofNat 64 j = a+BitVec.ofNat 64 o+BitVec.ofNat 64 (j-o) := by
            rw [add_ofNat_add, show o+(j-o) = j by omega]
          rw [if_pos h3, hj', store_inside 0 (by omega) (by omega), byteOf_zero]
        · rw [if_neg h3, store_outside]
          rw [inRange_offset_iff (by omega) (by omega)]
          omega

theorem run_payloadZero (he : e.Valid) (hb : e.Body c s) (hn : offset+length ≤ 512)
    (h : emitStoragePayloadZero e.frame Encoder.slot offset length = .ok code) :
    ∃ t, run s code = some t ∧ e.Body (Codegen.put offset length (fun _ => 0) c) t := by
  obtain ⟨load,hl,h⟩ := bind_eq_ok h
  cases h
  have h1 := run_emitLoadValue s (by decide) hl
  rw [hb.slot_word he] at h1
  obtain ⟨m,hm,hout,hin⟩ := run_zeroTurns
    (copyTurns_covers length length 0 (by omega) (by omega)) (show offset+length < 2^31 by omega)
    ((s.setReg .r11 e.slot).setReg .rax 0) rfl rfl
  have h2 : run (s.setReg .r11 e.slot) (emitMovImmToReg .rax 0) =
    some ((s.setReg .r11 e.slot).setReg .rax 0) := rfl
  refine ⟨_,by rw [run_append_some (by rw [run_append_some h1, h2]), hm],?_⟩
  refine hb.put he hn rfl rfl hout fun j hj => ?_
  rw [← add_ofNat_add]
  exact (hin j hj).trans (if_pos (Nat.zero_le j))

theorem emitLoadValue_handle {frame : Frame} (hh : v.type.isHandleType)
    (hc : v.constInt = none) (hd : frame.slots v.id = some d) (dst : Reg) :
    emitLoadValue frame v dst = .ok (emitLoadSlotToReg dst d 64) := by
  have hw : v.type.valueWidthBits = 64 := by simp [Ty.valueWidthBits, Ty.representationSize, hh]
  simp [emitLoadValue, hd, hc, loadSlotCode, hw]

theorem storageSize_pos (t : Ty) : 0 < t.storageSize :=
  lt_of_lt_of_le (size_pos t) (size_le_storageSize t)

section
variable (he : e.Valid) (hb : e.Body c s) (hv : v = valueOf e.layout v.id)
include he hb hv

/-- The store of a record or an enum from a parameter that holds one goes where
the parameter's handle points, not into the slot. -/
theorem run_strayStore (hh : v.type.isHandleType) (hc : v.constInt = none)
    (ht : type.isHandleType) (hn : offset+type.storageSize ≤ 512)
    (hslot : Disjoint (e.word v+BitVec.ofNat 64 offset) type.storageSize e.slot 512)
    (hframe : Disjoint (e.word v+BitVec.ofNat 64 offset) type.storageSize
      (e.base-BitVec.ofNat 64 e.size) e.size)
    (h : emitStorageSlotStore e.frame Encoder.slot offset v type = .ok code) :
    ∃ t, run s code = some t ∧ e.Body c t := by
  obtain ⟨load,hl,h⟩ := bind_eq_ok h
  rw [if_pos ⟨ht,storageSize_pos type⟩] at h
  obtain ⟨⟨code,srcBase,srcDisp⟩,hval,h⟩ := bind_eq_ok h
  cases h
  rw [emitValueAddress] at hval
  split at hval
  · cases hval
  next d hd =>
  rw [if_pos hh] at hval
  cases hval
  have h1 := run_emitLoadValue s (by decide) hl
  have h2 := run_emitLoadValue (s.setReg .r11 (e.frame.word s Encoder.slot)) (by decide)
    (emitLoadValue_handle hh hc hd .r11)
  rw [Frame.word_setReg _ _ _ _ (by decide), hb.word he hv, State.setReg_setReg] at h2
  -- both ends of the copy are relative to the handle
  obtain ⟨w,m,h3,hout,-⟩ := run_emitCopyMemoryToMemoryRange
    (show Reg.r11 ≠ .rax by decide) (show Reg.r11 ≠ .rax by decide)
    (show Fits 0 type.storageSize from ⟨by omega,by omega⟩)
    (show Fits (offset:ℤ) type.storageSize from ⟨by omega,by omega⟩) (s.setReg .r11 (e.word v))
  have haddr : addr (s.setReg .r11 (e.word v)) .r11 (offset:ℤ) = e.word v+BitVec.ofNat 64 offset := by
    rw [addr, ofInt_natCast]
    rfl
  rw [haddr] at hout
  refine ⟨((s.setReg .r11 (e.word v)).setReg .rax w).setMem m,
    by rw [run_append_some (by rw [run_append_some h1, h2]), h3],hb.rbp,hb.rsp,?_,?_⟩
  · exact fun x hx => (hout x fun h => hframe x h hx).trans (hb.frame x hx)
  · intro k hk
    exact (hout _ fun h => hslot _ h (inRange_offset hk)).trans (hb.contents k hk)

/-- The store of a record or an enum from a parameter of a primitive type copies
the frame from the parameter's home slot on. -/
theorem run_frameStore (hh : v.type.isHandleType = false) (hd : e.frame.slots v.id = some d)
    (ht : type.isHandleType) (hn : offset+type.storageSize ≤ 512)
    (hdis : Disjoint (e.base+BitVec.ofInt 64 d) 512 e.slot 512)
    (h : emitStorageSlotStore e.frame Encoder.slot offset v type = .ok code) :
    ∃ t f, run s code = some t ∧ f 0 = e.mem (e.base+BitVec.ofInt 64 d) ∧
      e.Body (Codegen.put offset type.storageSize f c) t := by
  obtain ⟨h1',h2',-⟩ := slot_bounds e.layout hv hd
  have hsmall := he.small
  simp only [size] at hsmall
  obtain ⟨load,hl,h⟩ := bind_eq_ok h
  rw [if_pos ⟨ht,storageSize_pos type⟩] at h
  obtain ⟨⟨code,srcBase,srcDisp⟩,hval,h⟩ := bind_eq_ok h
  cases h
  rw [emitValueAddress, hd] at hval
  simp only [hh, Bool.false_eq_true, if_false] at hval
  cases hval
  have h1 := run_emitLoadValue s (by decide) hl
  rw [hb.slot_word he] at h1
  obtain ⟨w,m,h3,hout,hcopy⟩ := run_emitCopyMemoryToMemoryRange
    (show Reg.rbp ≠ .rax by decide) (show Reg.r11 ≠ .rax by decide)
    (show Fits d type.storageSize from ⟨by omega,by omega⟩)
    (show Fits (offset:ℤ) type.storageSize from ⟨by omega,by omega⟩) (s.setReg .r11 e.slot)
  have hsrc : addr (s.setReg .r11 e.slot) .rbp d = e.base+BitVec.ofInt 64 d := by
    rw [addr, ← hb.rbp]
    rfl
  have hdst : addr (s.setReg .r11 e.slot) .r11 (offset:ℤ) = e.slot+BitVec.ofNat 64 offset := by
    rw [addr, ofInt_natCast]
    rfl
  rw [hsrc, hdst] at hcopy
  rw [hdst] at hout
  have hm := hcopy fun x hx hx' => hdis x (hx.mono (by omega)) (hx'.shift hn)
  refine ⟨_,fun j => s.mem (e.base+BitVec.ofInt 64 d+BitVec.ofNat 64 j),
    by rw [List.append_nil, run_append_some h1, h3],?_,?_⟩
  · show s.mem (e.base+BitVec.ofInt 64 d+0#64) = _
    rw [BitVec.add_zero]
    exact hb.frame _ (home_inRange hv hd (inRange_self (representationSize_pos _)))
  · refine hb.put he hn rfl rfl hout fun j hj => ?_
    rw [← add_ofNat_add]
    simp only [State.setMem_mem, hm]
    exact copy_inside hj

end

end

end Site

open List

variable {cursor : ℕ} {ops : List StorageOp} {op : StorageOp}

namespace StorageOp

def start : StorageOp → ℕ
  | .slotStore _ offset _ _ => offset
  | .payloadZero _ offset _ => offset
  | .crc32c _ _ _ => 0
  | .ret => 0

def length : StorageOp → ℕ
  | .slotStore _ _ _ type => type.storageSize
  | .payloadZero _ _ length => length
  | .crc32c _ _ _ => 0
  | .ret => 0

def Ascending : ℕ → List StorageOp → Prop
  | _, [] => True
  | cursor, op::ops => cursor ≤ op.start ∧ Ascending (op.start+op.length) ops

theorem Ascending.mono {cursor' : ℕ} (h : Ascending cursor' ops)
    (hle : cursor ≤ cursor') : Ascending cursor ops := by
  cases ops with
  | nil => trivial
  | cons op ops => exact ⟨le_trans hle h.1,h.2⟩

theorem Ascending.le (h : Ascending cursor ops) (hop : op ∈ ops) : cursor ≤ op.start := by
  induction ops generalizing cursor with
  | nil => cases hop
  | cons first ops ih =>
    obtain ⟨hle,hrest⟩ := h
    rcases mem_cons.mp hop with rfl | hop
    · exact hle
    · exact le_trans (le_trans hle (Nat.le_add_right _ _)) (ih hrest hop)

end StorageOp

namespace Site
variable (e : Site)

/-- The operations that write the slot, where they hit nothing else: a copy
through a handle goes elsewhere, and a copy of the frame starts far from the
slot. -/
def Calm : StorageOp → Prop
  | .slotStore slot offset v type =>
    slot = Encoder.slot ∧ offset+type.storageSize ≤ 512 ∧ v = valueOf e.layout v.id ∧
      ∃ d, e.frame.slots v.id = some d ∧ (type.isHandleType →
        if v.type.isHandleType then
          v.constInt = none ∧
            Disjoint (e.word v+BitVec.ofNat 64 offset) type.storageSize e.slot 512 ∧
              Disjoint (e.word v+BitVec.ofNat 64 offset) type.storageSize
                (e.base-BitVec.ofNat 64 e.size) e.size
        else Disjoint (e.base+BitVec.ofInt 64 d) 512 e.slot 512)
  | .payloadZero slot offset length => slot = Encoder.slot ∧ offset+length ≤ 512
  | .crc32c _ _ _ => False
  | .ret => False

/-- The bytes an operation puts at its place in a slot with bytes `c`; of a
record or an enum we keep the first. -/
def Written : StorageOp → (ℕ → BitVec 8) → (ℕ → BitVec 8) → Prop
  | .slotStore _ offset v type, c, f =>
    if type.isHandleType then
      f 0 = c offset ∨ ∃ d, e.frame.slots v.id = some d ∧ f 0 = e.mem (e.base+BitVec.ofInt 64 d)
    else f = byteOf (e.word v)
  | .payloadZero _ _ _, _, f => f = fun _ => 0
  | .crc32c _ _ _, _, _ => False
  | .ret, _, _ => False

inductive Filled : List StorageOp → (ℕ → BitVec 8) → (ℕ → BitVec 8) → Prop
  | nil (c : ℕ → BitVec 8) : Filled [] c c
  | cons {op : StorageOp} {ops : List StorageOp} {c f c' : ℕ → BitVec 8} (h : e.Written op c f)
      (rest : Filled ops (put op.start op.length f c) c') : Filled (op::ops) c c'

section
variable {e} {op : StorageOp} {ops : List StorageOp} {c c' : ℕ → BitVec 8}

theorem Filled.outside (h : e.Filled ops c c') {k : ℕ}
    (hk : ∀ op ∈ ops, ¬ (op.start ≤ k ∧ k < op.start+op.length)) : c' k = c k := by
  induction h with
  | nil c => rfl
  | cons h rest ih =>
    rw [ih fun op hop => hk op (mem_cons_of_mem _ hop), put, if_neg (hk _ (mem_cons_self ..))]

/-- What an operation puts at its place is there at the end; it was put there
when the bytes from its place on had not changed. -/
theorem Filled.at (h : e.Filled ops c c') (ha : StorageOp.Ascending cursor ops)
    (hop : op ∈ ops) : ∃ f c₀, e.Written op c₀ f ∧ (∀ k, op.start ≤ k → c₀ k = c k) ∧
      ∀ j < op.length, c' (op.start+j) = f j := by
  induction h generalizing cursor with
  | nil c => cases hop
  | @cons first ops c f c' hw rest ih =>
    obtain ⟨-,hrest⟩ := ha
    rcases mem_cons.mp hop with rfl | hop
    · refine ⟨f,c,hw,fun _ _ => rfl,fun j hj => ?_⟩
      rw [rest.outside, put, if_pos (by omega), Nat.add_sub_cancel_left]
      intro op' hop'
      have := hrest.le hop'
      omega
    · obtain ⟨g,c₀,hg,hc₀,hend⟩ := ih hrest hop
      refine ⟨g,c₀,hg,fun k hk => ?_,hend⟩
      have := hrest.le hop
      rw [hc₀ k hk, put, if_neg (by omega)]

end

section
variable {e} {c : ℕ → BitVec 8} {s : State} {v : Value} {d : ℤ} {type : Ty}

theorem emitLoadValue_ok {frame : Frame} (hd : frame.slots v.id = some d) (dst : Reg) :
    ∃ code, emitLoadValue frame v dst = .ok code := by
  rw [emitLoadValue, hd]
  cases v.constInt with
  | none | some c => exact ⟨_,rfl⟩

theorem emitLoadSlot_ok (dst : Reg) : ∃ code, emitLoadValue e.frame Encoder.slot dst = .ok code :=
  emitLoadValue_ok (show e.frame.slots Encoder.slot.id = some (-8) from
    slots_header e.layout (by decide)) dst

theorem emitStorageSlotStore_ok (hd : e.frame.slots v.id = some d) (offset : ℕ) (type : Ty) :
    ∃ code, emitStorageSlotStore e.frame Encoder.slot offset v type = .ok code := by
  obtain ⟨load,hl⟩ := emitLoadSlot_ok (e := e) .r11
  obtain ⟨value,hval⟩ := emitLoadValue_ok hd .rax
  simp only [emitStorageSlotStore, hl, hval, emitValueAddress, hd]
  split_ifs <;> exact ⟨_,rfl⟩

theorem emitStoragePayloadZero_ok (offset length : ℕ) :
    ∃ code, emitStoragePayloadZero e.frame Encoder.slot offset length = .ok code := by
  obtain ⟨load,hl⟩ := emitLoadSlot_ok (e := e) .r11
  rw [emitStoragePayloadZero, hl]
  exact ⟨_,rfl⟩

theorem exists_prim (h : type.isHandleType = false) : ∃ p, type = .prim p := by
  cases type with
  | prim p => exact ⟨p,rfl⟩
  | data fields | cls fields | enum variants => cases h

theorem put_self (offset n : ℕ) (c : ℕ → BitVec 8) :
    Codegen.put offset n (fun j => c (offset+j)) c = c := by
  funext k
  rw [Codegen.put]
  split_ifs with h
  · rw [show offset+(k-offset) = k by omega]
  · rfl

theorem run_slotStoreOp (he : e.Valid) (hb : e.Body c s) {offset : ℕ}
    (hc : e.Calm (.slotStore Encoder.slot offset v type)) :
    ∃ code t f, emitStorageSlotStore e.frame Encoder.slot offset v type = .ok code ∧
      run s code = some t ∧ e.Written (.slotStore Encoder.slot offset v type) c f ∧
      e.Body (Codegen.put offset type.storageSize f c) t := by
  obtain ⟨-,hn,hv,d,hd,hcalm⟩ := hc
  obtain ⟨code,hcode⟩ := emitStorageSlotStore_ok hd offset type
  by_cases ht : type.isHandleType
  · by_cases hh : v.type.isHandleType
    · obtain ⟨hconst,hslot,hframe⟩ := by simpa [hh] using hcalm ht
      obtain ⟨t,hrun,hb'⟩ := run_strayStore he hb hv hh hconst ht hn hslot hframe hcode
      refine ⟨code,t,fun j => c (offset+j),hcode,hrun,?_,?_⟩
      · simp [Written, ht]
      · rwa [put_self]
    · have hdis := by simpa [hh] using hcalm ht
      obtain ⟨t,f,hrun,hf,hb'⟩ := run_frameStore he hb hv (by simpa using hh) hd ht hn hdis hcode
      refine ⟨code,t,f,hcode,hrun,?_,hb'⟩
      rw [Written, if_pos ht]
      exact .inr ⟨d,hd,hf⟩
  · obtain ⟨p,rfl⟩ := exists_prim (by simpa using ht)
    rw [storageSize_prim] at hn ⊢
    obtain ⟨t,hrun,hb'⟩ := run_slotStore he hb hv hn hcode
    refine ⟨code,t,byteOf (e.word v),hcode,hrun,?_,hb'⟩
    rw [Written, if_neg ht]

theorem run_op (he : e.Valid) (hc : e.Calm op) (hb : e.Body c s) (ret : Word)
    (routine : Helper → State → State → Prop) :
    ∃ blocks t f, emitStorageOp e.frame ret op = .ok blocks ∧ Runs routine blocks s t ∧
      e.Written op c f ∧ e.Body (put op.start op.length f c) t := by
  cases op with
  | slotStore slot offset v type =>
    obtain rfl := hc.1
    obtain ⟨code,t,f,hcode,hrun,hw,hb'⟩ := run_slotStoreOp he hb hc
    exact ⟨[.code code],t,f,by rw [emitStorageOp, hcode]; rfl,.code hrun (.nil t),hw,hb'⟩
  | payloadZero slot offset length =>
    obtain ⟨rfl,hn⟩ := hc
    obtain ⟨code,hcode⟩ := emitStoragePayloadZero_ok (e := e) offset length
    obtain ⟨t,hrun,hb'⟩ := run_payloadZero he hb hn hcode
    exact ⟨[.code code],t,_,by rw [emitStorageOp, hcode]; rfl,.code hrun (.nil t),rfl,hb'⟩
  | crc32c result slot length | ret => exact hc.elim

theorem run_ops (he : e.Valid) (hc : ∀ op ∈ ops, e.Calm op)
    (hb : e.Body c s) (ret : Word) (routine : Helper → State → State → Prop) :
    ∃ blocks t c', emitStorageOps e.frame ret ops = .ok blocks ∧ Runs routine blocks s t ∧
      e.Filled ops c c' ∧ e.Body c' t := by
  induction ops generalizing c s with
  | nil => exact ⟨[],s,c,rfl,.nil s,.nil c,hb⟩
  | cons op ops ih =>
    obtain ⟨first,t,f,hfirst,hrun,hw,hb'⟩ := run_op he (hc op (mem_cons_self ..)) hb ret routine
    obtain ⟨rest,u,c',hrest,hruns,hfill,hb''⟩ :=
      ih (fun op hop => hc op (mem_cons_of_mem _ hop)) hb'
    refine ⟨first++rest,u,c',?_,hrun.append hruns,.cons hw hfill,hb''⟩
    rw [emitStorageOps, hfirst, hrest]
    rfl

end

end Site

end Wrela.Codegen

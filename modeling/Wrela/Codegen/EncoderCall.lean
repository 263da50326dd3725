import Wrela.Codegen.EncoderRun

/-!
# A call of an encoder

The prologue fills the home slots of the six parameters that come in registers.
The body then fills the slot, the routine computes the checksum of its 512 bytes
with a zero where the checksum goes, and the last store puts the checksum there.
-/

set_option autoImplicit false

namespace Wrela.Codegen
open X86 Ir StorageFormat List

section
variable (layout : EventLayout) (s : State)

def registerHomes : List (ℕ × ℕ × Word) :=
  [(32,8,s.reg .rdi),(24,8,s.reg .rsi),(16,8,s.reg .rdx),(8,8,s.reg .rcx),(4,4,s.reg .r8),
    (0,4,s.reg .r9)]

def entrySite : Site where
  layout := layout
  base := s.reg .rsp-8
  slot := s.reg .rdi
  mem := storeAll (s.reg .rsp-48) (store s.mem (s.reg .rsp-8) 8 (s.reg .rbp)) (registerHomes s)

theorem home_address (t : State) {k : ℕ} (hk : k ≤ 40) :
    t.address .rbp (disp32 (-(k:ℤ))) = t.reg .rbp-40+BitVec.ofNat 64 (40-k) := by
  have hofInt : BitVec.ofInt 64 (-(k:ℤ)) = BitVec.ofNat 64 (40-k)-40 := by
    rw [BitVec.ofInt_neg, BitVec.ofInt_natCast]
    bv_omega
  rw [address_disp32 t .rbp (by omega) (by omega), addr, hofInt]
  bv_omega

theorem run_homeStore (t : State) (reg : Reg) {k : ℕ} (hk : k ≤ 40) (width : ℕ) :
    run t (emitStoreSlotFromReg reg (-(k:ℤ)) width) =
      some (t.setMem (store t.mem (t.reg .rbp-40+BitVec.ofNat 64 (40-k)) (width/8)
        (t.reg reg))) := by
  rw [emitStoreSlotFromReg, run_cons, exec, home_address t hk]
  rfl

theorem run_registerStores (t : State) :
    run t (((lowerEventEncoder layout).params.zip argRegs).flatMap fun p =>
      emitStoreParam (encoderFrame layout) p.1 p.2) =
    some (t.setMem (storeAll (t.reg .rbp-40) t.mem (registerHomes t))) := by
  have hzip : (lowerEventEncoder layout).params.zip argRegs =
    [(Encoder.slot, .rdi),(Encoder.eventID, .rsi),(Encoder.streamID, .rdx),
      (Encoder.streamSequence, .rcx),(Encoder.atomicGroupLen, .r8),(Encoder.atomicGroupIndex, .r9)] :=
    rfl
  have hslot (v : Value) (k : ℕ) (h : (v.id, -(k : ℤ)) ∈ headerSlots) :
      (encoderFrame layout).slots v.id = some (-(k : ℤ)) := slots_header layout h
  rw [hzip]
  simp only [flatMap_cons, flatMap_nil, emitStoreParam, hslot Encoder.slot 8 (by decide),
    hslot Encoder.eventID 16 (by decide), hslot Encoder.streamID 24 (by decide),
    hslot Encoder.streamSequence 32 (by decide), hslot Encoder.atomicGroupLen 36 (by decide),
    hslot Encoder.atomicGroupIndex 40 (by decide)]
  iterate 6 rw [run_append_some (run_homeStore _ _ (by decide) _)]
  rfl

theorem run_emitPrologue (hsmall : encoderFrameSize layout < 2^31) :
    ∃ t, run s (emitPrologue (lowerEventEncoder layout).params (encoderFrame layout)
        (encoderFrameSize layout)) = some t ∧
      t.reg .rbp = (entrySite layout s).base ∧
      t.reg .rsp = (entrySite layout s).base-BitVec.ofNat 64 (encoderFrameSize layout) ∧
      t.mem = (entrySite layout s).mem := by
  have hroom := frame_room layout
  have hsub : (disp32 (encoderFrameSize layout)).signExtend 64 =
      BitVec.ofNat 64 (encoderFrameSize layout) := by
    rw [signExtend_disp32 (by omega) (by omega), BitVec.ofInt_natCast]
  let u := (((s.setMem (store s.mem (s.reg .rsp-8) 8 (s.reg .rbp))).setReg .rsp
    (s.reg .rsp-8)).setReg .rbp (s.reg .rsp-8)).setReg .rsp
      (s.reg .rsp-8-BitVec.ofNat 64 (encoderFrameSize layout))
  have h1 : ∃ flags, run s ([.push .rbp,.movReg 8 .rbp .rsp]++
      [.subImm .rsp (disp32 (encoderFrameSize layout))]) = some (u.setFlags flags) := by
    refine ⟨subFlags (s.reg .rsp-8) (BitVec.ofNat 64 (encoderFrameSize layout)),?_⟩
    simp [run, exec, hsub, writeLow_eight, u]
  obtain ⟨flags,h1⟩ := h1
  have hbase : s.reg .rsp-8-40 = s.reg .rsp-48 := by bv_omega
  refine ⟨_,by rw [emitPrologue, if_pos (by omega), run_append_some h1, run_registerStores],
    rfl,rfl,?_⟩
  show storeAll (s.reg .rsp-8-40) _ (registerHomes s) = _
  rw [hbase]
  rfl

theorem registerHomes_pairwise : (registerHomes s).Pairwise fun p q => q.1+q.2.1 ≤ p.1 := by
  simp [registerHomes]

theorem registerHomes_le {w : ℕ × ℕ × Word} (hw : w ∈ registerHomes s) : w.1+w.2.1 ≤ 40 := by
  simp only [registerHomes, mem_cons, not_mem_nil, or_false] at hw
  rcases hw with rfl | rfl | rfl | rfl | rfl | rfl <;> simp

theorem load_registerHome {o n : ℕ} {v : Word} (hw : (o, n, v) ∈ registerHomes s) (hn : n ≤ 8) :
    load (entrySite layout s).mem (s.reg .rsp-48+BitVec.ofNat 64 o) n = lowBytes n v :=
  load_storeAll (registerHomes_pairwise s)
    (fun _ hw => le_trans (registerHomes_le s hw) (by decide)) hw hn

theorem entry_mem {x : Word} (hx : ¬ InRange x (s.reg .rsp-48) 48) :
    (entrySite layout s).mem x = s.mem x := by
  have hpush : s.reg .rsp-8 = s.reg .rsp-48+BitVec.ofNat 64 40 := by bv_omega
  have hhomes : ∀ w ∈ registerHomes s, ¬ InRange x (s.reg .rsp-48+BitVec.ofNat 64 w.1) w.2.1 :=
    fun w hw h => hx (h.shift (le_trans (registerHomes_le s hw) (by decide)))
  refine (storeAll_outside hhomes).trans (store_outside fun h => ?_)
  rw [hpush] at h
  exact hx (h.shift (by decide))

/-- Room for a call: the frame is small, and the slot is not in it, nor where the
call of the routine and the prologue push. -/
structure Room : Prop where
  small : encoderFrameSize layout < 2^31
  apart : Disjoint (s.reg .rdi) 512 (s.reg .rsp-BitVec.ofNat 64 (encoderFrameSize layout+16))
    (encoderFrameSize layout+16)

variable {layout s}

theorem Room.valid (h : Room layout s) : (entrySite layout s).Valid where
  small := h.small
  slot := by
    have haddr : (entrySite layout s).base-8 = s.reg .rsp-48+BitVec.ofNat 64 32 := by
      rw [entrySite]
      bv_omega
    rw [haddr, load_registerHome layout s (show (32,8,s.reg .rdi) ∈ registerHomes s by
      simp [registerHomes]) (le_refl 8), lowBytes_eight]
    rfl
  apart := by
    have hend : (entrySite layout s).stackEnd =
        s.reg .rsp-BitVec.ofNat 64 (encoderFrameSize layout+16) := by
      have hsmall := h.small
      rw [Site.stackEnd, entrySite, Site.size]
      simp only
      bv_omega
    rw [hend]
    exact h.apart

theorem Room.body (h : Room layout s) :
    ∃ t, run s (emitPrologue (lowerEventEncoder layout).params (encoderFrame layout)
        (encoderFrameSize layout)) = some t ∧
      (entrySite layout s).Body (fun k => s.mem (s.reg .rdi+BitVec.ofNat 64 k)) t := by
  obtain ⟨t,hrun,hrbp,hrsp,hmem⟩ := run_emitPrologue layout s h.small
  refine ⟨t,hrun,hrbp,hrsp,fun x _ => congrFun hmem x,fun k hk => ?_⟩
  rw [hmem]
  refine entry_mem layout s fun hx => ?_
  have hroom := frame_room layout
  have hsmall := h.small
  refine h.apart _ (inRange_offset hk) ?_
  have hlow : s.reg .rsp-48 = s.reg .rsp-BitVec.ofNat 64 (encoderFrameSize layout+16)+
      BitVec.ofNat 64 (encoderFrameSize layout-32) := by bv_omega
  rw [hlow] at hx
  exact hx.shift (by omega)

end

def contentBytes (c : ℕ → BitVec 8) : List UInt8 := (List.range 512).map fun k => UInt8.ofBitVec (c k)

def contentCrc (c : ℕ → BitVec 8) : Word := Crc32c.word (crc32c (contentBytes c))

theorem bytes_contents {m : Mem} {a : Word} {c : ℕ → BitVec 8}
    (h : ∀ k < 512, m (a+BitVec.ofNat 64 k) = c k) :
    (bytes m a 512).map UInt8.ofBitVec = contentBytes c := by
  rw [bytes_eq_map, map_map, contentBytes]
  refine map_congr_left fun k hk => ?_
  exact congrArg UInt8.ofBitVec (h k (mem_range.mp hk))

theorem checksum_slot (layout : EventLayout) :
    ∃ d, (encoderFrame layout).slots Encoder.checksum.id = some d := by
  apply exists_slot_later
  simp [laterValues, lowerEventEncoder, valuesDefinedBy]

namespace Site
variable (e : Site)

def checked (d : ℤ) (w : Word) : Site := {e with mem := store e.mem (e.base+BitVec.ofInt 64 d) 4 w}

section
variable {e} {c : ℕ → BitVec 8} {s : State} {d : ℤ}

theorem checksum_home (hd : e.frame.slots Encoder.checksum.id = some d) :
    e.base+BitVec.ofInt 64 d =
      e.base-BitVec.ofNat 64 e.size+BitVec.ofNat 64 (e.size+d).toNat ∧
    (e.size+d).toNat+52 ≤ e.size := by
  obtain ⟨h1,-,h3⟩ := slot_bounds e.layout (show Encoder.checksum = valueOf e.layout 8 from rfl) hd
  have h3 : d+4 ≤ -48 := h3 (by decide)
  refine ⟨home_eq h1,?_⟩
  rw [size]
  omega

theorem checked_valid (he : e.Valid) (hd : e.frame.slots Encoder.checksum.id = some d) (w : Word) :
    (e.checked d w).Valid where
  small := he.small
  slot := by
    obtain ⟨hhome,hle⟩ := checksum_home hd
    have hsmall := he.small
    have hslot : e.base-8 = e.base-BitVec.ofNat 64 e.size+BitVec.ofNat 64 (e.size-8) := by bv_omega
    refine (load_store_other fun x hx => ?_).trans he.slot
    rw [show (e.checked d w).base = e.base from rfl, hslot, inRange_add_iff (by omega)] at hx
    rw [hhome, inRange_add_iff (by omega)]
    omega
  apart := he.apart

theorem pushed_apart (he : e.Valid) {x : Word} (hx : InRange x e.slot 512 ∨
    InRange x (e.base-BitVec.ofNat 64 e.size) e.size) :
    ¬ InRange x (e.base-BitVec.ofNat 64 e.size-8) 8 := by
  intro h
  have hsmall := he.small
  have hend : e.stackEnd = e.base-BitVec.ofNat 64 e.size-8 := by
    rw [stackEnd]
    bv_omega
  rcases hx with hx | hx
  · exact he.apart x hx (hend ▸ h.mono (by omega))
  · have hframe : e.base-BitVec.ofNat 64 e.size =
        e.base-BitVec.ofNat 64 e.size-8+BitVec.ofNat 64 8 := by bv_omega
    rw [hframe, inRange_add_iff (by omega)] at hx
    rw [InRange] at h
    omega

variable {enc : Encoding} {code : List (Item ℤ)}

section
variable (he : e.Valid) (hb : e.Body c s)
  (hcode : Crc32c.compileStorageCRC32CHelperUnit enc = .ok code)
include he hb hcode

theorem call_crc32c (ret : Word)
    (hrdi : s.reg .rdi = e.slot) (hrsi : s.reg .rsi = BitVec.ofNat 64 512) :
    ∃ t, Linked enc .crc32cCastagnoli (s.push ret) t ∧ load t.mem (t.reg .rsp) 8 = ret ∧
      t.reg .rax = contentCrc c ∧ t.popped.reg .rbp = e.base ∧
      t.popped.reg .rsp = e.base-BitVec.ofNat 64 e.size ∧
      t.mem = store s.mem (e.base-BitVec.ofNat 64 e.size-8) 8 ret := by
  have hrsp : (s.push ret).reg .rsp = e.base-BitVec.ofNat 64 e.size-8 := by
    rw [← hb.rsp]
    rfl
  have hmem : (s.push ret).mem = store s.mem (e.base-BitVec.ofNat 64 e.size-8) 8 ret := by
    rw [← hb.rsp]
    rfl
  have hcontents : ∀ k < 512, (s.push ret).mem (e.slot+BitVec.ofNat 64 k) = c k := by
    intro k hk
    rw [hmem, store_outside (pushed_apart he (.inl (inRange_offset hk))), hb.contents k hk]
  obtain ⟨t,hhalts,hrax,hchanges⟩ := Crc32c.halts hcode (s.push ret)
  rw [show (s.push ret).reg .rdi = e.slot from hrdi,
    show (s.push ret).reg .rsi = BitVec.ofNat 64 512 from hrsi,
    show (BitVec.ofNat 64 512).toNat = 512 from rfl, bytes_contents hcontents] at hrax
  have hstack : t.reg .rsp = e.base-BitVec.ofNat 64 e.size-8 :=
    (hchanges.reg .rsp (by decide)).trans hrsp
  refine ⟨t,⟨code,hcode,hhalts⟩,?_,hrax,?_,?_,hchanges.mem.trans hmem⟩
  · rw [hchanges.mem, hstack, hmem, load_store ret (le_refl 8), lowBytes_eight]
  · exact (hchanges.reg .rbp (by decide)).trans hb.rbp
  · show t.reg .rsp+8 = _
    rw [hstack, BitVec.sub_add_cancel]

theorem run_crc32c (hd : e.frame.slots Encoder.checksum.id = some d) (ret : Word) :
    ∃ blocks t, emitStorageOp e.frame ret (.crc32c Encoder.checksum Encoder.slot 512) = .ok blocks ∧
      Runs (Linked enc) blocks s t ∧ (e.checked d (contentCrc c)).Body c t := by
  obtain ⟨load,hl⟩ := emitLoadSlot_ok (e := e) .rdi
  have h1 := run_emitLoadValue s (by decide) hl
  rw [hb.slot_word he] at h1
  let s1 := (s.setReg .rdi e.slot).setReg .rsi (BitVec.ofNat 64 512)
  have h1 : run s (load++emitMovImmToReg .rsi (BitVec.ofNat 64 512)) = some s1 := by
    rw [run_append_some h1]
    rfl
  have hb1 : e.Body c s1 := ⟨hb.rbp,hb.rsp,hb.frame,hb.contents⟩
  obtain ⟨t,hcall,hret,hrax,hrbp,hrsp,hmem⟩ := call_crc32c he hb1 hcode ret rfl rfl
  have hsmall := he.small
  obtain ⟨hlow,hhigh,-⟩ := slot_bounds e.layout
    (show Encoder.checksum = valueOf e.layout 8 from rfl) hd
  have haddr : t.popped.address .rbp (disp32 d) = e.base+BitVec.ofInt 64 d := by
    rw [address_disp32 _ .rbp (by simp only [size] at hsmall; omega) (by omega), addr, hrbp]
  have hstore : run t.popped (emitStoreSlotFromReg .rax d 32) =
      some (t.popped.setMem (store t.mem (e.base+BitVec.ofInt 64 d) 4 (contentCrc c))) := by
    rw [emitStoreSlotFromReg, run_cons, exec, haddr]
    exact congrArg (fun w => some (t.popped.setMem (store t.mem _ 4 w))) hrax
  refine ⟨_,_,?_,.code h1 (.call hcall hret (.code hstore (.nil _))),hrbp,hrsp,?_,?_⟩
  · rw [emitStorageOp, emitStorageCRC32C, hl, hd]
    rfl
  · intro x hx
    have hs : t.mem x = s.mem x := by
      rw [hmem]
      exact store_outside (pushed_apart he (.inr hx))
    show store t.mem _ 4 _ x = store e.mem _ 4 _ x
    rw [store, store, hs, hb.frame x hx]
  · intro k hk
    have hslot := inRange_offset (a := e.slot) hk
    show store t.mem _ 4 _ (e.slot+_) = _
    rw [store_outside, hmem, store_outside (pushed_apart he (.inl hslot))]
    · exact hb.contents k hk
    · intro h
      exact frame_apart he (home_inRange (show Encoder.checksum = valueOf e.layout 8 from rfl) hd h)
        hslot

end

theorem checked_word (hd : e.frame.slots Encoder.checksum.id = some d) (w : Word) :
    (e.checked d w).word Encoder.checksum = lowBytes 4 w := by
  have hd' : (e.checked d w).frame.slots Encoder.checksum.id = some d := hd
  rw [Site.word, hd']
  exact load_store w (by decide)

theorem run_finish (he : e.Valid) (hb : e.Body c s)
    (hcode : Crc32c.compileStorageCRC32CHelperUnit enc = .ok code) (ret : Word) :
    ∃ blocks t, emitStorageOps e.frame ret [.crc32c Encoder.checksum Encoder.slot 512,
        .slotStore Encoder.slot 48 Encoder.checksum Encoder.u32,.ret] = .ok blocks ∧
      Runs (Linked enc) blocks s t ∧
      ∀ k < 512, t.mem (e.slot+BitVec.ofNat 64 k) =
        Codegen.put 48 4 (byteOf (contentCrc c)) c k := by
  obtain ⟨d,hd⟩ : ∃ d, e.frame.slots Encoder.checksum.id = some d := checksum_slot e.layout
  obtain ⟨crc,s1,hcrc,hruns,hb1⟩ := run_crc32c he hb hcode hd ret
  obtain ⟨last,hlast⟩ := emitStorageSlotStore_ok hd 48 Encoder.u32
  obtain ⟨s2,hrun,hb2⟩ := run_slotStore (checked_valid he hd _) hb1
    (show Encoder.checksum = valueOf e.layout 8 from rfl) (show 48+Prim.size .u32 ≤ 512 by decide)
    hlast
  have hepilogue : ∃ t, run s2 emitEpilogue = some t ∧ t.mem = s2.mem := ⟨_,rfl,rfl⟩
  obtain ⟨t,ht,hmem⟩ := hepilogue
  refine ⟨crc++([.code last]++[.code emitEpilogue]),t,?_,
    hruns.append (.code hrun (.code ht (.nil t))),?_⟩
  · rw [emitStorageOps, hcrc, emitStorageOps, emitStorageOp, hlast]
    rfl
  · intro k hk
    rw [hmem]
    refine (hb2.contents k hk).trans ?_
    rw [checked_word hd, show Prim.size .u32 = 4 from rfl, Codegen.put, Codegen.put]
    split_ifs with h
    · rw [byteOf_lowBytes _ _ _ (by omega), if_pos (by omega)]
    · rfl

end

end Site

theorem emitStorageOps_append {frame : Frame} {ret : Word} {ops ops' : List StorageOp}
    {xs ys : List (Block Helper)} (h : emitStorageOps frame ret ops = .ok xs)
    (h' : emitStorageOps frame ret ops' = .ok ys) :
    emitStorageOps frame ret (ops++ops') = .ok (xs++ys) := by
  induction ops generalizing xs with
  | nil =>
    cases h
    exact h'
  | cons op ops ih =>
    rw [emitStorageOps] at h
    obtain ⟨code,hcode,h⟩ := bind_eq_ok h
    obtain ⟨rest,hrest,h⟩ := bind_eq_ok h
    cases h
    rw [cons_append, emitStorageOps, hcode, ih hrest, append_assoc]
    rfl

def encoderOps (layout : EventLayout) : List StorageOp :=
  Encoder.headerOps layout++Encoder.bodyOps layout

section
variable {layout : EventLayout} {s : State} {enc : Encoding} {code : List (Item ℤ)}

/-- A call of an encoder ends, and the slot is what the operations made of it
with the checksum of that in place. -/
theorem Room.call (h : Room layout s) (hcode : Crc32c.compileStorageCRC32CHelperUnit enc = .ok code)
    (hc : ∀ op ∈ encoderOps layout, (entrySite layout s).Calm op) (ret : Word) :
    ∃ blocks t c, compileFunction (lowerEventEncoder layout) ret = .ok blocks ∧
      Runs (Linked enc) blocks s t ∧
      (entrySite layout s).Filled (encoderOps layout)
        (fun k => s.mem (s.reg .rdi+BitVec.ofNat 64 k)) c ∧
      ∀ k < 512, t.mem (s.reg .rdi+BitVec.ofNat 64 k) = put 48 4 (byteOf (contentCrc c)) c k := by
  have he := h.valid
  obtain ⟨s1,hprologue,hb1⟩ := h.body
  obtain ⟨ops,s2,c,hops,hruns,hfill,hb2⟩ := Site.run_ops he hc hb1 ret (Linked enc)
  obtain ⟨last,t,hlast,hruns',ht⟩ := Site.run_finish he hb2 hcode ret
  refine ⟨_,t,c,?_,.code hprologue (hruns.append hruns'),hfill,ht⟩
  have hemit := emitStorageOps_append hops hlast
  exact congrArg (· >>= fun code => pure (_::code)) hemit

end

end Wrela.Codegen

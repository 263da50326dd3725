import Wrela.IntervalList
import Wrela.Topic.FanOut

/-!
# Topic blocks

Where the parts of a topic's block lie and which of them the slot addresses of
the emitted code reach. The planner adds and multiplies 64-bit words and checks
no result, and the code adds the ring's offset as a signed immediate of four
bytes.
-/

set_option autoImplicit false

namespace Wrela.WakeCode
open X86 TopicData Codegen IntervalList BitVec Nat

/-- The slot of the subscriber's sequence number (in r11) in rcx, as
`emitTopicTryNext` computes it once the head is ahead of the cursor. -/
def tryNextSlot (layout : TopicDataLayout) : List Instr :=
  emitRegRegMove .rcx .r11++emitMovImmToReg .rdi (BitVec.ofNat 64 (layout.depth-1).toNat)++
  emitRegRegOp 0x21 .rcx .rdi++emitScaleTopicSlot .rcx .rdi layout++
  emitAddImm .rcx layout.slotsOffset.toNat++emitRegRegOp 0x01 .rcx .rax

inductive BlockPart (t : Topic) where
  | head
  | producerWaitline
  | cursor (i : Fin t.subscribers)
  | waitline (i : Fin t.subscribers)
  | slot (k : Fin t.depth)

def line (offset : UInt64) : ℕ × ℕ := (offset.toNat,offset.toNat+cacheLineSize.toNat)

def BlockPart.range {t : Topic} : BlockPart t → ℕ × ℕ
  | head => (t.layout.headOffset.toNat,t.layout.headOffset.toNat+8)
  | producerWaitline => line t.layout.producerWaitlineOffset
  | cursor i => line (t.layout.subscribers.get i).cursorOffset
  | waitline i => line (t.layout.subscribers.get i).waitlineOffset
  | slot k => (slotStart t.layout k,slotStart t.layout k+8+t.layout.payloadSize.toNat)

def StartsSlot (t : Topic) (offset : Word) : Prop :=
  ∃ k : Fin t.depth, offset = BitVec.ofNat 64 (BlockPart.slot k).range.1

structure LaidOut (t : Topic) : Prop where
  apart : ∀ p q : BlockPart t, p ≠ q → Apart p.range q.range
  inside : ∀ p : BlockPart t, p.range.2 ≤ t.layout.totalSize.toNat
  lines : ∀ i, (BlockPart.cursor (t := t) i).range.1%64 = 0 ∧
    (BlockPart.waitline (t := t) i).range.1%64 = 0
  publish : ∀ s, ∃ u, run s (locateSlot t.layout .rax) = some u ∧
    StartsSlot t (u.reg .r11-s.reg .rax)
  tryNext : ∀ s, ∃ u, run s (tryNextSlot t.layout) = some u ∧ StartsSlot t (u.reg .rcx-s.reg .rax)

/-! ## Slot addresses -/

section
variable (t : Topic)

theorem run_publishSlot (s : State) : ∃ u, run s (locateSlot t.layout .rax) = some u ∧
    u.reg .r11-s.reg .rax = slotOffset t.layout (load s.mem (s.reg .rax) 8) := by
  have hzero : disp32 ((t.layout.headOffset.toNat : ℕ) : ℤ) = disp32 0 := by rw [t.layout_eq]; rfl
  refine ⟨_,rfl,?_⟩
  rw [slotOffset]
  simp [address_zero, writeLow_eight, hzero]

theorem run_tryNextSlot (s : State) : ∃ u, run s (tryNextSlot t.layout) = some u ∧
    u.reg .rcx-s.reg .rax = slotOffset t.layout (s.reg .r11) := by
  refine ⟨_,rfl,?_⟩
  rw [slotOffset]
  simp [writeLow_eight]

theorem signExtend_offset_iff {n : ℕ} (h : n < 2^64) :
    (disp32 n).signExtend 64 = BitVec.ofNat 64 n ↔ n < 2^31 ∨ 2^64-2^31 ≤ n := by
  rw [BitVec.signExtend, disp32, toInt_ofInt, ← toNat_inj, toNat_ofInt, toNat_ofNat, Int.bmod_def]
  omega

variable {t}

theorem slotStart_eq (h : t.blockSize < 2^64) (k : ℕ) :
    slotStart t.layout k = 128+128*t.subscribers+k*t.slotBytes := by
  rw [slotStart, (t.planned_of_lt h).slots, (t.planned_of_lt h).slotSize]

theorem slotStart_lt (h : t.blockSize < 2^64) (k : Fin t.depth) :
    slotStart t.layout k+8+t.layout.payloadSize.toNat ≤ t.blockSize := by
  have hle := slot_le t k.isLt
  have hroom := slotBytes_ge t
  rw [slotStart_eq h, Topic.blockSize]
  omega

/-- In a block that does not wrap the code finds the slots only if it adds the
offset of the ring unchanged: with another word it would reach some slot `k` for
sequence number 0, and so the end of the ring for `t.depth-k`. -/
theorem starts_slot_iff (h : t.blockSize < 2^64) :
    (∀ sequence, StartsSlot t (slotOffset t.layout sequence)) ↔
      (disp32 t.layout.slotsOffset.toNat).signExtend 64 =
        BitVec.ofNat 64 t.layout.slotsOffset.toNat := by
  constructor
  · intro hstarts
    obtain ⟨k,hk⟩ := hstarts 0#64
    have hfirst : slotOffset t.layout 0#64 = (disp32 t.layout.slotsOffset.toNat).signExtend 64 := by
      rw [slotOffset, BitVec.zero_and, zero_mul, BitVec.zero_add]
    rw [hfirst] at hk
    by_cases hzero : (k : ℕ) = 0
    · rw [hk, BlockPart.range, slotStart, hzero, Nat.zero_mul, Nat.add_zero]
    · have hdepth : t.depth < 2^64 := t.layout.depth.toNat_lt
      obtain ⟨k',hk'⟩ := hstarts (BitVec.ofNat 64 (t.depth-k))
      have hmask : t.slotOf (BitVec.ofNat 64 (t.depth-k)).toNat = t.depth-k := by
        rw [toNat_ofNat, mod_eq_of_lt (by omega), Topic.slotOf_eq_mod, mod_eq_of_lt (by omega)]
      have hring : (t.depth-k)*t.layout.slotSize.toNat+slotStart t.layout k = t.blockSize := by
        rw [slotStart_eq h, (t.planned_of_lt h).slotSize, Topic.blockSize, add_left_comm,
          ← Nat.add_mul, Nat.sub_add_cancel k.isLt.le]
      rw [slotOffset, mask_eq, hmask, hk, BlockPart.range, ← ofNat_mul, ← ofNat_add,
        hring, BlockPart.range] at hk'
      have heq := congrArg BitVec.toNat hk'
      have hlt := slotStart_lt h k'
      rw [toNat_ofNat, toNat_ofNat, mod_eq_of_lt h, mod_eq_of_lt (by omega)] at heq
      omega
  · intro hsame sequence
    exact ⟨⟨t.slotOf sequence.toNat,slotOf_lt t _⟩,slotOffset_eq t sequence hsame⟩

end

/-! ## The parts of a block -/

section
variable {t : Topic}

theorem head_range : (BlockPart.head (t := t)).range = (0,8) := by
  rw [BlockPart.range, t.layout_eq]
  rfl

theorem cursor_start (i : Fin t.subscribers) :
    (BlockPart.cursor i).range.1 = (128+128*i.val)%2^64 :=
  (t.subscriber_toNat (List.getElem?_eq_getElem i.isLt)).1

theorem waitline_start (i : Fin t.subscribers) :
    (BlockPart.waitline i).range.1 = (128+128*i.val+64)%2^64 :=
  (t.subscriber_toNat (List.getElem?_eq_getElem i.isLt)).2

theorem line_eq {offset : UInt64} {n : ℕ} (h : (line offset).1 = n) : line offset = (n,n+64) := by
  rw [← h]
  rfl

theorem range_of_lt (h : t.blockSize < 2^64) (p : BlockPart t) :
    p.range = match p with
      | .head => (0,8)
      | .producerWaitline => (64,128)
      | .cursor i => (128+128*i.val,128+128*i.val+64)
      | .waitline i => (128+128*i.val+64,128+128*i.val+64+64)
      | .slot k => (128+128*t.subscribers+k*t.slotBytes,
          128+128*t.subscribers+k*t.slotBytes+8+t.layout.payloadSize.toNat) := by
  have hblock : 128+128*t.subscribers+t.depth*t.slotBytes < 2^64 := h
  cases p with
  | head => exact head_range
  | producerWaitline =>
    rw [BlockPart.range, t.layout_eq]
    rfl
  | cursor i =>
    have hstart := cursor_start i
    rw [mod_eq_of_lt (by omega)] at hstart
    exact line_eq hstart
  | waitline i =>
    have hstart := waitline_start i
    rw [mod_eq_of_lt (by omega)] at hstart
    exact line_eq hstart
  | slot k => rw [BlockPart.range, slotStart_eq h]

theorem slots_apart {k k' : Fin t.depth} (h : k ≠ k') :
    k*t.slotBytes+t.slotBytes ≤ k'*t.slotBytes ∨ k'*t.slotBytes+t.slotBytes ≤ k*t.slotBytes := by
  rcases lt_or_gt_of_ne (Fin.val_ne_of_ne h) with hlt | hlt
  · exact .inl (Nat.succ_mul k t.slotBytes ▸ mul_le_mul_right _ hlt)
  · exact .inr (Nat.succ_mul k' t.slotBytes ▸ mul_le_mul_right _ hlt)

theorem parts_apart (h : t.blockSize < 2^64) {p q : BlockPart t} (hne : p ≠ q) :
    Apart p.range q.range := by
  have hroom := slotBytes_ge t
  have hproper : ∀ p : BlockPart t, p.range.1 < p.range.2 := by
    intro p
    rw [range_of_lt h]
    cases p <;> simp only <;> omega
  rw [apart_iff (hproper p) (hproper q), range_of_lt h, range_of_lt h]
  cases p with
  | slot k =>
    cases q with
    | slot k' =>
      have := slots_apart (show k ≠ k' from fun hk => hne (congrArg _ hk))
      simp only
      omega
    | _ => simp only; omega
  | _ => cases q <;> simp only [ne_eq, reduceCtorEq, not_true_eq_false,
      BlockPart.cursor.injEq, BlockPart.waitline.injEq, Fin.ext_iff] at hne ⊢ <;> omega

theorem parts_inside (h : t.blockSize < 2^64) (p : BlockPart t) :
    p.range.2 ≤ t.layout.totalSize.toNat := by
  have hring : t.slotBytes ≤ t.depth*t.slotBytes := Nat.le_mul_of_pos_left _ t.depth_pos
  have hroom := slotBytes_ge t
  rw [(t.planned_of_lt h).total, range_of_lt h, Topic.blockSize]
  cases p with
  | slot k =>
    have := slot_le t k.isLt
    simp only
    omega
  | _ => simp only; omega

theorem LaidOut.start_pos (h : LaidOut t) {p : BlockPart t} (hne : p ≠ .head)
    (hp : p.range.1 < p.range.2) : 0 < p.range.1 := by
  rw [Nat.pos_iff_ne_zero]
  intro hzero
  apply h.apart p .head hne 0
  rw [head_range]
  exact ⟨⟨hzero.le,hzero ▸ hp⟩,le_rfl,by decide⟩

/-- A cursor or the ring would come back to the head. -/
theorem LaidOut.lines_lt (h : LaidOut t) : 128+128*t.subscribers < 2^64 := by
  have hcursor : t.subscribers < 2^57 := by
    by_contra hge
    have hpos := h.start_pos (p := .cursor ⟨2^57-1,by omega⟩) (by simp)
      (Nat.lt_add_of_pos_right (by decide))
    rw [cursor_start] at hpos
    simp only at hpos
    omega
  have hring := h.start_pos (p := .slot ⟨0,t.depth_pos⟩) (by simp) (by simp [BlockPart.range]; omega)
  simp only [BlockPart.range, slotStart, t.slotsOffset_toNat] at hring
  omega

theorem LaidOut.blockSize_lt (h : LaidOut t) : t.blockSize < 2^64 := by
  have hlines := h.lines_lt
  have hslots := t.slotsOffset_toNat
  rw [mod_eq_of_lt hlines] at hslots
  have hinside (k : Fin t.depth) : 128+128*t.subscribers+k*t.layout.slotSize.toNat+8+
      t.layout.payloadSize.toNat ≤ t.blockSize%2^64 := by
    rw [← t.totalSize_toNat, ← hslots]
    exact h.inside (.slot k)
  have hround : t.slotBytes < 8+t.layout.payloadSize.toNat+64 := by
    rw [Topic.slotBytes]
    omega
  have hsize : t.layout.slotSize.toNat = t.slotBytes := by
    have hfirst := hinside ⟨0,t.depth_pos⟩
    rw [t.slotSize_toNat, mod_eq_of_lt (by omega)]
  have hd := t.depth_pos
  have hlast := hinside ⟨t.depth-1,by omega⟩
  simp only [hsize] at hlast
  have hring : t.depth*t.slotBytes = (t.depth-1)*t.slotBytes+t.slotBytes := by
    rw [← Nat.succ_mul, succ_eq_add_one, Nat.sub_add_cancel hd]
  have hblock : t.blockSize = 128+128*t.subscribers+t.depth*t.slotBytes := rfl
  omega

end

/-- The block of a topic is laid out safely exactly if its size does not wrap and
the offset of its ring survives as a signed word of four bytes. -/
theorem block_laid_out_iff (t : Topic) : LaidOut t ↔ t.blockSize < 2^64 ∧
    (128+128*t.subscribers < 2^31 ∨ 2^64-2^31 ≤ 128+128*t.subscribers) := by
  constructor
  · intro h
    have hsize := h.blockSize_lt
    refine ⟨hsize,?_⟩
    have hstarts : ∀ sequence, StartsSlot t (slotOffset t.layout sequence) := by
      intro sequence
      obtain ⟨u,hrun,hstarts⟩ := h.tryNext ⟨fun _ => sequence,fun _ => 0,none⟩
      obtain ⟨u',hrun',hoffset⟩ := run_tryNextSlot t ⟨fun _ => sequence,fun _ => 0,none⟩
      obtain rfl := Option.some.inj (hrun.symm.trans hrun')
      exact hoffset ▸ hstarts
    rw [starts_slot_iff hsize, (t.planned_of_lt hsize).slots,
      signExtend_offset_iff h.lines_lt] at hstarts
    exact hstarts
  · rintro ⟨hsize,hreach⟩
    have hlines : 128+128*t.subscribers < 2^64 := lt_of_le_of_lt (Nat.le_add_right ..) hsize
    have hstarts := (starts_slot_iff hsize).mpr
      (by rwa [(t.planned_of_lt hsize).slots, signExtend_offset_iff hlines])
    constructor
    · exact fun p q => parts_apart hsize
    · exact parts_inside hsize
    · intro i
      rw [cursor_start, waitline_start]
      omega
    · intro s
      obtain ⟨u,hrun,hoffset⟩ := run_publishSlot t s
      exact ⟨u,hrun,hoffset ▸ hstarts _⟩
    · intro s
      obtain ⟨u,hrun,hoffset⟩ := run_tryNextSlot t s
      exact ⟨u,hrun,hoffset ▸ hstarts _⟩

/-- A topic of 2^58 slots of 64 bytes: the ring's size wraps to 0 and the block
ends where the ring should begin. -/
def wrappedTopic : Topic where
  source := ⟨"ticks",.topic,0x400000000000000,8,8,[],[]⟩
  layout := planTopicData ⟨"ticks",.topic,0x400000000000000,8,8,[],[]⟩
  planned := rfl

theorem wrapped_topic_unsafe : wrappedTopic.layout.totalSize = 128 ∧
    wrappedTopic.layout.slotsOffset = 128 ∧ ¬ LaidOut wrappedTopic := by
  have hsize : ¬ wrappedTopic.blockSize < 2^64 := by decide
  exact ⟨rfl,rfl,fun h => hsize h.blockSize_lt⟩

end Wrela.WakeCode

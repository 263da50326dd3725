import Wrela.Diag
import Mathlib.Data.Nat.Bitwise

/-!
# Topic data blocks

The planner's view of a topic: its checks on an IR topic layout and the block
it lays out for the ring, the cursors and the waitlines.
-/

set_option autoImplicit false

namespace Wrela.TopicData

def cacheLineSize : UInt64 := 64

inductive TopicKind where
  | topic
  | reliable
  | reliableU64
  | gapU64
  | timerTick
  | eduInterrupt
  | ivshmemDoorbell
  deriving DecidableEq, Repr

def isReliableTopicKind (kind : TopicKind) : Bool :=
  kind = .reliable || kind = .reliableU64

structure TopicLayout where
  label : String
  kind : TopicKind
  depth : UInt64
  payloadSize : UInt64
  payloadAlign : UInt64
  producers : List String
  subscribers : List String

structure TopicDataSubscriberLayout where
  label : String
  cursorOffset : UInt64
  waitlineOffset : UInt64

structure TopicDataLayout where
  label : String
  kind : TopicKind
  depth : UInt64
  headOffset : UInt64
  producerWaitlineOffset : UInt64
  slotsOffset : UInt64
  payloadSize : UInt64
  slotSize : UInt64
  producers : List String
  subscribers : List TopicDataSubscriberLayout
  totalSize : UInt64

def alignUp64 (value : UInt64) : UInt64 :=
  if value%cacheLineSize = 0 then value else value+cacheLineSize-value%cacheLineSize

def topicSlotSize (payloadSize : UInt64) : UInt64 := alignUp64 (8+payloadSize)

/-- The cursors and waitlines of the subscribers from `next` on, and the first
offset after them. -/
def planSubscribers (next : UInt64) : List String → List TopicDataSubscriberLayout × UInt64
  | [] => ([], next)
  | subscriber::rest =>
    let tail := planSubscribers (next+2*cacheLineSize) rest
    (⟨subscriber,next,next+cacheLineSize⟩::tail.1, tail.2)

def planTopicData (topic : TopicLayout) : TopicDataLayout :=
  let planned := planSubscribers (2*cacheLineSize) topic.subscribers
  let slotSize := topicSlotSize topic.payloadSize
  let slotsOffset := alignUp64 planned.2
  { label := topic.label
    kind := topic.kind
    depth := topic.depth
    headOffset := 0
    producerWaitlineOffset := cacheLineSize
    slotsOffset := slotsOffset
    payloadSize := topic.payloadSize
    slotSize := slotSize
    producers := topic.producers
    subscribers := planned.1
    totalSize := alignUp64 (slotsOffset+topic.depth*slotSize) }

def planTopicDataChecked (topic : TopicLayout) : Except Diagnostic TopicDataLayout :=
  if topic.payloadSize = 0 ∨ topic.payloadAlign = 0 then
    .error ⟨.SEM0066,"topic payload layout is not statically known: "++topic.label⟩
  else if topic.depth = 0 ∨ topic.depth &&& (topic.depth-1) ≠ 0 then
    .error ⟨.SEM0046,"topic depth must be a power of two"⟩
  else if isReliableTopicKind topic.kind ∧ topic.subscribers.length = 0 then
    .error ⟨.CG0001,"reliable topic requires at least one subscriber: "++topic.label⟩
  else
    .ok (planTopicData topic)

structure Topic where
  source : TopicLayout
  layout : TopicDataLayout
  planned : planTopicDataChecked source = .ok layout

theorem planTopicDataChecked_ok {topic : TopicLayout} {layout : TopicDataLayout}
    (h : planTopicDataChecked topic = .ok layout) :
    topic.depth ≠ 0 ∧ topic.depth &&& (topic.depth-1) = 0 ∧
    (isReliableTopicKind topic.kind → topic.subscribers.length ≠ 0) ∧
    layout = planTopicData topic := by
  simp only [planTopicDataChecked] at h
  split at h
  · cases h
  · split at h
    · cases h
    · split at h
      · cases h
      · rename_i hd hr
        simp only [not_or, not_not] at hd
        simp only [not_and] at hr
        cases h
        exact ⟨hd.1,hd.2,hr,rfl⟩

theorem planSubscribers_length (next : UInt64) (labels : List String) :
    (planSubscribers next labels).1.length = labels.length := by
  induction labels generalizing next with
  | nil => rfl
  | cons label rest ih => simp [planSubscribers, ih]

/-- The words a payload of `size` bytes is copied in, as widths in bits: as
many quadwords as fit, then at most one of each smaller width. -/
def copyWidths (size : ℕ) : List ℕ :=
  List.replicate (size/8) 64 ++ (if 4 ≤ size%8 then [32] else []) ++
    (if 2 ≤ size%4 then [16] else []) ++ (if size%2 = 1 then [8] else [])

namespace Topic
variable (t : Topic)

def depth : ℕ := t.layout.depth.toNat

def subscribers : ℕ := t.layout.subscribers.length

def chunks : ℕ := (copyWidths t.layout.payloadSize.toNat).length

def reliable : Bool := isReliableTopicKind t.layout.kind

/-- The ring slot of a sequence position, as the emitted mask computes it. -/
def slotOf (position : ℕ) : ℕ := position &&& (t.depth-1)

theorem depth_pos : 0 < t.depth := by
  obtain ⟨hd,-,-,hl⟩ := planTopicDataChecked_ok t.planned
  rw [depth, hl, Nat.pos_iff_ne_zero]
  exact fun h => hd (UInt64.toNat_inj.mp h)

theorem depth_pow : ∃ d, t.depth = 2^d := by
  obtain ⟨-,hm,-,hl⟩ := planTopicDataChecked_ok t.planned
  have hd : t.layout.depth = t.source.depth := by rw [hl]; rfl
  have hand := congrArg UInt64.toNat hm
  have hp := t.depth_pos
  rw [depth, hd] at hp ⊢
  rw [UInt64.toNat_and, UInt64.toNat_sub_of_le _ _ (by
    rw [UInt64.le_iff_toNat_le]
    exact hp)] at hand
  exact (Nat.and_sub_one_eq_zero_iff_isPowerOfTwo (by omega)).mp hand

theorem slotOf_eq_mod (position : ℕ) : t.slotOf position = position % t.depth := by
  obtain ⟨d,hd⟩ := t.depth_pow
  rw [slotOf, hd, Nat.and_two_pow_sub_one_eq_mod]

theorem subscribers_pos (h : t.reliable) : 0 < t.subscribers := by
  obtain ⟨-,-,hr,hl⟩ := planTopicDataChecked_ok t.planned
  have hn : t.subscribers = t.source.subscribers.length := by
    rw [subscribers, hl]
    exact planSubscribers_length _ _
  have hk : isReliableTopicKind t.source.kind := by
    rw [reliable, hl] at h
    exact h
  rw [hn]
  exact Nat.pos_of_ne_zero (hr hk)

theorem slotOf_inj {a b : ℕ} (h : t.slotOf a = t.slotOf b) (hab : a ≤ b)
    (hb : b < a+t.depth) : a = b := by
  rw [slotOf_eq_mod, slotOf_eq_mod] at h
  have hdvd := Nat.dvd_of_mod_eq_zero (Nat.sub_mod_eq_zero_of_mod_eq h.symm)
  have := Nat.eq_zero_of_dvd_of_lt hdvd (by omega)
  omega

end Topic

end Wrela.TopicData

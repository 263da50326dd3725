import Wrela.SharedMemory
import Wrela.Topic.Data
import Wrela.Transition

/-!
# The topic protocol

The emitted publish and try_next sequences, one memory access of the topic's
block at a time. A local state names the next access together with the
registers the rest of the sequence still uses. A slot whose sequence word is that
of a published message holds its payload, whatever the subscribers do: the
sequence word is overwritten before the first payload word, so a slot that is
being refilled answers to no earlier message. The words of a message are those of the
published value, but for the handles into the producer's memory among them.
-/

set_option autoImplicit false

namespace Wrela.TopicProtocol
open SharedMemory TopicData

inductive Loc where
  | head
  | producerWaitline
  | cursor (i : ℕ)
  | waitline (i : ℕ)
  | sequence (slot : ℕ)
  | payload (slot j : ℕ)
  deriving DecidableEq, Repr

inductive Core where
  | producer
  | subscriber (i : ℕ)
  deriving DecidableEq, Repr

def wordSize : ℕ := 2^64

def topicWaitlineDisarmed : ℕ := wordSize-1

abbrev Payload := List ℕ

/-- A topic in use. `wakes` says for which subscribers the wake code is emitted
(those placed on a vCPU other than the skipped one), `keepsBase` whether the
block's address survives it: interrupt entries keep it in r12, executors in
rax, which the interrupt send overwrites. `byHandle` says that payloads are passed by
handle, `dataWords` which words of a payload are handles of data in it. -/
structure Ring extends Topic where
  wakes : ℕ → Bool
  wakesProducer : Bool
  keepsBase : Bool
  byHandle : Bool
  dataWords : List ℕ

variable (r : Ring)

/-- An executor's publish of an object of other than eight bytes loads its address into
r11, where the slot's address was: the payload words then go to the object itself. -/
def Ring.misdirects : Bool :=
  r.byHandle && r.layout.payloadSize ≠ 8 && !r.reliable && !r.keepsBase

/-- The words copied as they are although they are handles: those of data in the payload,
and from an executor the handle of an object of eight bytes. -/
def Ring.isHandle (j : ℕ) : Bool :=
  r.dataWords.contains j ||
    r.byHandle && r.layout.payloadSize = 8 && (r.reliable || !r.keepsBase)

/-- The words that a publish copies for a value, with the handles in the producer's memory. -/
def Ring.copied (v handles : Payload) : Payload :=
  v.mapIdx fun j w => if r.isHandle j then handles.getD j 0 else w

structure Delivery where
  position : ℕ
  payload : Payload
  deriving DecidableEq, Repr

inductive TryNext where
  | loadCursor
  | loadHead (cursor : ℕ)
  | loadSequence (cursor head : ℕ)
  | fence (cursor : ℕ)
  | copy (cursor : ℕ) (out : Payload)
  | storeCursor (value : ℕ) (result : Option Delivery)
  | disarm (value : ℕ) (result : Option Delivery)
  | loadProducerWaitline (value : ℕ) (result : Option Delivery)
  | touchProducer (value : ℕ) (result : Option Delivery)
  | touchFence (result : Option Delivery)
  | signalProducer (result : Option Delivery)
  | returned (result : Option Delivery)
  deriving DecidableEq, Repr

def TryNext.next (i : ℕ) : TryNext → Action Loc ℕ Core TryNext
  | .loadCursor => .read (.cursor i) .loadHead
  | .loadHead cursor =>
    .read .head fun head =>
      if head ≤ cursor then .returned none else .loadSequence cursor head
  | .loadSequence cursor head =>
    .read (.sequence (r.slotOf cursor)) fun sequence =>
      -- a slot with another sequence number is a gap: resume at the head
      if sequence = (cursor+1)%wordSize then .fence cursor else .storeCursor head none
  | .fence cursor => .fence (.copy cursor [])
  | .copy cursor out =>
    if out.length < r.chunks then
      .read (.payload (r.slotOf cursor) out.length) fun w => .copy cursor (out++[w])
    else
      .jump (.storeCursor ((cursor+1)%wordSize) (some ⟨cursor,out⟩))
  | .storeCursor value result => .write (.cursor i) value (.disarm value result)
  | .disarm value result =>
    .write (.waitline i) topicWaitlineDisarmed
      (if r.reliable ∧ r.layout.producers ≠ [] then .loadProducerWaitline value result
       else .returned result)
  | .loadProducerWaitline value result =>
    .read .producerWaitline fun waitline =>
      if waitline = topicWaitlineDisarmed ∨ value = waitline then .returned result
      else .touchProducer value result
  | .touchProducer value result =>
    .write .producerWaitline value
      (if r.wakesProducer then .touchFence result else .returned result)
  | .touchFence result => .fence (.signalProducer result)
  | .signalProducer result => .signal .producer (.returned result)
  | .returned _ => .jump .loadCursor

def TryNext.delivered : TryNext → List Payload
  | .returned (some d) => [d.payload]
  | _ => []

inductive Publish where
  | idle
  | loadHead (v : Payload)
  | loadFirstCursor (v : Payload) (head : ℕ)
  | compareCursor (v : Payload) (head minCursor i : ℕ)
  | reloadCursor (v : Payload) (head i : ℕ)
  | roomCheck (v : Payload) (head minCursor : ℕ)
  | storeSequence (v : Payload) (head : ℕ)
  | copy (v : Payload) (head j : ℕ)
  | fence (v : Payload) (head : ℕ)
  | storeHead (v : Payload) (head : ℕ)
  | disarmProducer (sequence : ℕ)
  | wake (base : Bool) (sequence i : ℕ)
  | touch (base : Bool) (sequence i : ℕ)
  | touchFence (i : ℕ)
  | signal (i : ℕ)
  | clobbered (i : ℕ)
  deriving DecidableEq, Repr

def afterTouch (base : Bool) (sequence i : ℕ) : Publish :=
  if r.wakes i then .touchFence i else .wake base sequence (i+1)

/-- The publish of a gap-detecting topic and the try_publish of a reliable one,
which reads the cursors first and gives up when the slowest is a full ring
behind. -/
def Publish.next : Publish → Action Loc ℕ Core Publish
  | .idle => .jump .idle
  | .loadHead v =>
    .read .head fun head =>
      if r.reliable then .loadFirstCursor v head else .storeSequence v head
  | .loadFirstCursor v head =>
    if r.subscribers = 0 then .read .head (.roomCheck v head)
    else .read (.cursor 0) fun minCursor => .compareCursor v head minCursor 1
  | .compareCursor v head minCursor i =>
    if i < r.subscribers then
      .read (.cursor i) fun cursor =>
        if minCursor ≤ cursor then .compareCursor v head minCursor (i+1)
        else .reloadCursor v head i
    else
      .jump (.roomCheck v head minCursor)
  | .reloadCursor v head i =>
    .read (.cursor i) fun cursor => .compareCursor v head cursor (i+1)
  | .roomCheck v head minCursor =>
    .jump (if r.depth ≤ (head+wordSize-minCursor)%wordSize then .idle
           else .storeSequence v head)
  | .storeSequence v head =>
    .write (.sequence (r.slotOf head)) ((head+1)%wordSize) (.copy v head 0)
  | .copy v head j =>
    if h : j < v.length then
      if r.misdirects then .jump (.copy v head (j+1))
      else .write (.payload (r.slotOf head) j) v[j] (.copy v head (j+1))
    else
      .jump (.fence v head)
  | .fence v head => .fence (.storeHead v head)
  | .storeHead _ head =>
    .write .head ((head+1)%wordSize)
      (if r.reliable then .disarmProducer ((head+1)%wordSize)
       else .wake true ((head+1)%wordSize) 0)
  | .disarmProducer sequence =>
    .write .producerWaitline topicWaitlineDisarmed (.wake true sequence 0)
  | .wake base sequence i =>
    if i < r.subscribers then
      let decide waitline :=
        if waitline = topicWaitlineDisarmed ∨ sequence = waitline then
          .wake base sequence (i+1)
        else .touch base sequence i
      if base then .read (.waitline i) decide else .outside decide
    else
      .jump .idle
  | .touch base sequence i =>
    if base then .write (.waitline i) sequence (afterTouch r base sequence i)
    else .jump (afterTouch r base sequence i)
  | .touchFence i => .fence (.signal i)
  | .signal i => .signal (.subscriber i) (.clobbered i)
  -- the interrupt send leaves its own values in the registers of the loop
  | .clobbered i => .outside fun sequence => .wake r.keepsBase sequence (i+1)

def Publish.committed : Publish → List Payload
  | .storeHead v _ => [v]
  | _ => []

structure Producer where
  pc : Publish
  published : List Payload

structure Subscriber where
  pc : TryNext
  received : List Payload

def Producer.next (p : Producer) : Action Loc ℕ Core Producer :=
  (p.pc.next r).map fun pc => ⟨pc,p.published++p.pc.committed⟩

def Subscriber.next (i : ℕ) (u : Subscriber) : Action Loc ℕ Core Subscriber :=
  (u.pc.next r i).map fun pc => ⟨pc,u.received++u.pc.delivered⟩

/-- `value` is the value that is being published, `values` are those published so far. -/
structure System where
  mem : Loc → ℕ
  producer : Producer
  subscriber : ℕ → Subscriber
  value : Payload
  values : List Payload

/-- The topic's data object as emitted: zero but for disarmed waitlines. -/
def initialMemory : Loc → ℕ
  | .producerWaitline => topicWaitlineDisarmed
  | .waitline _ => topicWaitlineDisarmed
  | _ => 0

def initial : System := ⟨initialMemory,⟨.idle,[]⟩,fun _ => ⟨.loadCursor,[]⟩,[],[]⟩

/-- `outside` is the value an access beyond the block reads, if it makes one. -/
inductive Event where
  | publish (v handles : Payload)
  | producer (outside : ℕ)
  | subscriber (i : ℕ) (outside : ℕ)

def step (s : System) : Event → Option System
  | .publish v handles =>
    if s.producer.pc = .idle ∧ v.length = r.chunks then
      some {s with producer := ⟨.loadHead (r.copied v handles),s.producer.published⟩, value := v}
    else none
  | .producer x =>
    let (p, m) := (s.producer.next r).perform x s.mem
    some {s with
      mem := m
      producer := p
      values := s.values++s.producer.pc.committed.map fun _ => s.value}
  | .subscriber i x =>
    if i < r.subscribers then
      let (u, m) := ((s.subscriber i).next r i).perform x s.mem
      some {s with mem := m, subscriber := Function.update s.subscriber i u}
    else none

open Transition List Function Nat

/-- The slot of position `c` carries the first `n` words of `v`. -/
def SlotCarries (r : Ring) (m : Loc → ℕ) (c : ℕ) (v : Payload) (n : ℕ) : Prop :=
  ∀ j < n, v[j]? = some (m (.payload (r.slotOf c) j))

/-- What the producer's registers and stores so far amount to when `h` messages
are published. -/
def Publish.Holds (r : Ring) (m : Loc → ℕ) (h : ℕ) : Publish → Prop
  | .loadHead v => v.length = r.chunks
  | .loadFirstCursor v head => v.length = r.chunks ∧ head = h
  | .compareCursor v head _ _ => v.length = r.chunks ∧ head = h
  | .reloadCursor v head _ => v.length = r.chunks ∧ head = h
  | .roomCheck v head _ => v.length = r.chunks ∧ head = h
  | .storeSequence v head => v.length = r.chunks ∧ head = h
  | .copy v head j => v.length = r.chunks ∧ head = h ∧
    m (.sequence (r.slotOf h)) = (h+1)%wordSize ∧ SlotCarries r m h v j
  | .fence v head => v.length = r.chunks ∧ head = h ∧
    m (.sequence (r.slotOf h)) = (h+1)%wordSize ∧ SlotCarries r m h v r.chunks
  | .storeHead v head => v.length = r.chunks ∧ head = h ∧
    m (.sequence (r.slotOf h)) = (h+1)%wordSize ∧ SlotCarries r m h v r.chunks
  | _ => True

def Publish.Writing : Publish → Prop
  | .copy _ _ _ => True
  | .fence _ _ => True
  | .storeHead _ _ => True
  | _ => False

structure RingInv (r : Ring) (m : Loc → ℕ) (pc : Publish) (published : List Payload) :
    Prop where
  head : m .head = published.length
  lengths : ∀ v ∈ published, v.length = r.chunks
  held : ∀ c v, published[c]? = some v → m (.sequence (r.slotOf c)) = c+1 →
    SlotCarries r m c v r.chunks
  registers : pc.Holds r m published.length
  /-- The last `depth` messages are still in the ring, but for the one whose
  slot is being refilled. -/
  kept : ∀ c < published.length, published.length ≤ c+r.depth →
    (published.length = c+r.depth → ¬ pc.Writing) → m (.sequence (r.slotOf c)) = c+1

variable (r : Ring) {published : List Payload} {m m' : Loc → ℕ} {pc : Publish} {c h : ℕ}
  {v : Payload}

theorem initial_ring : RingInv r initialMemory .idle [] where
  head := rfl
  lengths := by simp
  held := by simp
  registers := trivial
  kept := by simp

def Loc.InRing : Loc → Prop
  | .head => True
  | .sequence _ => True
  | .payload _ _ => True
  | _ => False

section
variable (hm : ∀ l, l.InRing → m' l = m l)
include hm

theorem SlotCarries.congr {r : Ring}
    {n : ℕ} (h : SlotCarries r m c v n) : SlotCarries r m' c v n := by
  intro j hj
  rw [hm (.payload _ _) trivial]
  exact h j hj

theorem Publish.Holds.congr {r : Ring} (hp : pc.Holds r m h) : pc.Holds r m' h := by
  cases pc <;> simp only [Publish.Holds, hm (.sequence _) trivial] at hp ⊢ <;> try assumption
  all_goals exact ⟨hp.1,hp.2.1,hp.2.2.1,hp.2.2.2.congr hm⟩

theorem RingInv.congr {r : Ring} (h : RingInv r m pc published) : RingInv r m' pc published where
  head := by rw [hm .head trivial, h.head]
  lengths := h.lengths
  held := by
    intro c v hc hs
    rw [hm (.sequence _) trivial] at hs
    exact (h.held c v hc hs).congr hm
  registers := h.registers.congr hm
  kept := by
    intro c hc hd hw
    rw [hm (.sequence _) trivial]
    exact h.kept c hc hd hw

end

theorem producer_target (pc : Publish) (l : Loc) (h : (pc.next r).target = some l) :
    (∃ v head, pc = .storeSequence v head ∧ l = .sequence (r.slotOf head)) ∨
    (∃ slot j, l = .payload slot j) ∨ l = .head ∨ l = .producerWaitline ∨ ∃ i, l = .waitline i := by
  cases pc with
  | storeSequence v head =>
    simp only [Publish.next, Action.target, Option.some.injEq] at h
    exact .inl ⟨v,head,rfl,h.symm⟩
  | loadFirstCursor v head | compareCursor v head minCursor i =>
    simp only [Publish.next] at h
    split at h <;> simp [Action.target] at h
  | copy v head j =>
    simp only [Publish.next] at h
    split at h
    · split at h <;> simp [Action.target] at h
      simp [← h]
    · simp [Action.target] at h
  | storeHead v head | disarmProducer sequence =>
    simp only [Publish.next, Action.target, Option.some.injEq] at h
    simp [← h]
  | wake base sequence i =>
    simp only [Publish.next] at h
    split at h
    · split at h <;> simp [Action.target] at h
    · simp [Action.target] at h
  | touch base sequence i =>
    simp only [Publish.next] at h
    split at h <;> simp [Action.target] at h
    simp [← h]
  | _ => simp [Publish.next, Action.target] at h

theorem subscriber_target (i : ℕ) (pc : TryNext) (l : Loc) (h : (pc.next r i).target = some l) :
    l = .cursor i ∨ l = .waitline i ∨ l = .producerWaitline := by
  cases pc with
  | copy cursor out =>
    simp only [TryNext.next] at h
    split at h <;> simp [Action.target] at h
  | storeCursor value result | disarm value result | touchProducer value result =>
    simp only [TryNext.next, Action.target, Option.some.injEq] at h
    simp [← h]
  | _ => simp [TryNext.next, Action.target] at h

theorem producer_cursor (pc : Publish) (x : ℕ) (m : Loc → ℕ) (i : ℕ) :
    ((pc.next r).perform x m).2 (.cursor i) = m (.cursor i) := by
  apply perform_of_target_ne
  intro h
  simpa using producer_target r pc _ h

theorem subscriber_frame (i : ℕ) (pc : TryNext) (x : ℕ) (m : Loc → ℕ) (l : Loc)
    (hl : l.InRing) : ((pc.next r i).perform x m).2 l = m l := by
  apply perform_of_target_ne
  intro h
  rcases subscriber_target r i pc l h with rfl | rfl | rfl <;> exact hl

theorem RingInv.move {r : Ring} {m : Loc → ℕ} {pc pc' : Publish}
    (h : RingInv r m pc published) (hp : pc'.Holds r m published.length)
    (hw : pc.Writing → pc'.Writing) : RingInv r m pc' published where
  head := h.head
  lengths := h.lengths
  held := h.held
  registers := hp
  kept c hc hd hn := h.kept c hc hd (fun he hpw => hn he (hw hpw))

section
variable {r : Ring} {m : Loc → ℕ} {published : List Payload} {v : Payload} {head : ℕ}

theorem sequence_ne (hc : c < h) (hh : h < wordSize) : (h+1)%wordSize ≠ c+1 := by
  rcases lt_or_ge (h+1) wordSize with hlt | hge
  · rw [mod_eq_of_lt hlt]
    omega
  · rw [show h+1 = wordSize by omega, mod_self]
    omega

theorem ring_storeSequence (h : RingInv r m (.storeSequence v head) published)
    (hlt : published.length < wordSize) :
    RingInv r (update m (.sequence (r.slotOf head)) ((head+1)%wordSize))
      (.copy v head 0) published := by
  obtain ⟨hv,rfl⟩ : v.length = r.chunks ∧ head = published.length := h.registers
  constructor
  · simpa using h.head
  · exact h.lengths
  · intro c v' hc hs
    have hcl : c < published.length := (List.getElem?_eq_some_iff.mp hc).1
    -- an earlier message of the same slot no longer answers
    by_cases he : r.slotOf c = r.slotOf published.length
    · rw [he, update_self] at hs
      exact absurd hs (sequence_ne hcl hlt)
    · rw [update_of_ne (by simpa using he)] at hs
      intro j hj
      simpa using h.held c v' hc hs j hj
  · exact ⟨hv,rfl,by simp,fun j hj => by omega⟩
  · intro c hc hd hn
    have hne : published.length ≠ c+r.depth := fun he => hn he trivial
    rw [update_of_ne]
    · exact h.kept c hc hd (fun he => absurd he hne)
    · intro he
      have := r.slotOf_inj (Loc.sequence.inj he) (by omega) (by omega)
      omega

theorem ring_copy {j : ℕ} (h : RingInv r m (.copy v head j) published)
    (hlt : published.length < wordSize) (hj : j < v.length) :
    RingInv r (update m (.payload (r.slotOf head) j) v[j])
      (.copy v head (j+1)) published := by
  obtain ⟨hv,hh,hs,hc⟩ := h.registers
  subst hh
  constructor
  · simpa using h.head
  · exact h.lengths
  · intro c v' hc' hs'
    have hcl : c < published.length := (List.getElem?_eq_some_iff.mp hc').1
    rw [update_of_ne (by simp)] at hs'
    intro n hn
    -- the slot being filled has the next sequence number, so it is another one
    have hne : r.slotOf c ≠ r.slotOf published.length := by
      intro he
      rw [he] at hs'
      exact sequence_ne hcl hlt (hs ▸ hs')
    rw [update_of_ne (by simp [hne])]
    exact h.held c v' hc' hs' n hn
  · refine ⟨hv,rfl,by simpa using hs,?_⟩
    intro n hn
    by_cases he : n = j
    · subst he
      simp [hj]
    · rw [update_of_ne (by simpa using he)]
      exact hc n (by omega)
  · intro c hc' hd hn
    rw [update_of_ne (by simp)]
    exact h.kept c hc' hd hn

theorem ring_storeHead {pc : Publish} (h : RingInv r m (.storeHead v head) published)
    (hlt : published.length+1 < wordSize) (hpc : ∀ m h, pc.Holds r m h) :
    RingInv r (update m .head ((head+1)%wordSize)) pc (published++[v]) := by
  obtain ⟨hv,hh,hs,hc⟩ := h.registers
  subst hh
  rw [mod_eq_of_lt hlt] at hs ⊢
  constructor
  · simp
  · intro w hw
    rcases mem_append.mp hw with hw | hw
    · exact h.lengths w hw
    · rw [mem_singleton.mp hw, hv]
  · intro c v' hc' hs' j hj
    rw [update_of_ne (by simp)] at hs' ⊢
    rcases lt_or_ge c published.length with hlt' | hge
    · rw [getElem?_append_left hlt'] at hc'
      exact h.held c v' hc' hs' j hj
    · -- the message just published: its slot was filled before the head moved
      rw [getElem?_append_right hge, getElem?_singleton] at hc'
      split at hc' <;> simp only [Option.some.injEq, reduceCtorEq] at hc'
      subst hc'
      rw [show c = published.length by omega]
      exact hc j hj
  · exact hpc _ _
  · intro c hc' hd _
    rw [update_of_ne (by simp)]
    simp only [length_append, length_singleton] at hc' hd
    rcases lt_or_ge c published.length with hlt' | hge
    · exact h.kept c hlt' (by omega) (fun he => by omega)
    · rw [show c = published.length by omega]
      exact hs

end

/-- A message more than a ring behind the head no longer answers in its slot. -/
theorem RingInv.stale {r : Ring} {m : Loc → ℕ}
    (h : RingInv r m pc published) (hlt : published.length < wordSize)
    (hc : c+r.depth < published.length) : m (.sequence (r.slotOf c)) ≠ c+1 := by
  -- the youngest published message of the same slot
  obtain ⟨k,e,hk,he⟩ : ∃ k e, published.length-1-c = r.depth*k+e ∧ e < r.depth :=
    ⟨_,_,(div_add_mod _ _).symm,mod_lt _ r.depth_pos⟩
  have hslot : r.slotOf (c+r.depth*k) = r.slotOf c := by
    rw [r.slotOf_eq_mod, r.slotOf_eq_mod, add_mul_mod_self_left]
  rw [← hslot]
  by_cases hw : published.length = c+r.depth*k+r.depth ∧ pc.Writing
  · have hhead : r.slotOf published.length = r.slotOf (c+r.depth*k) := by
      rw [hw.1, r.slotOf_eq_mod, r.slotOf_eq_mod, add_mod_right]
    have hs : m (.sequence (r.slotOf published.length)) = (published.length+1)%wordSize := by
      have hr := h.registers
      cases pc with
      | copy v head j | fence v head | storeHead v head => exact hr.2.2.1
      | _ => exact hw.2.elim
    rw [← hhead, hs]
    exact sequence_ne (by omega) hlt
  · rw [h.kept (c+r.depth*k) (by omega) (by omega) (fun he hwr => hw ⟨he,hwr⟩)]
    omega

theorem ring_step (hr : r.misdirects = false) (m : Loc → ℕ) (pc : Publish)
    (published : List Payload) (x : ℕ) (h : RingInv r m pc published)
    (hlt : (published++pc.committed).length < wordSize) :
    RingInv r ((pc.next r).perform x m).2 ((pc.next r).perform x m).1
      (published++pc.committed) := by
  have hpc := h.registers
  cases pc with
  | idle => simpa [Publish.committed, Publish.next, Action.perform] using h
  | loadHead v =>
    simp only [Publish.committed, append_nil, Publish.next, Action.perform, h.head]
    split <;> exact h.move ⟨hpc,rfl⟩ (by simp [Publish.Writing])
  | loadFirstCursor v head =>
    simp only [Publish.committed, append_nil, Publish.next]
    split <;> exact h.move hpc (by simp [Publish.Writing])
  | compareCursor v head minCursor i =>
    simp only [Publish.committed, append_nil, Publish.next]
    split
    · simp only [Action.perform]
      split <;> exact h.move hpc (by simp [Publish.Writing])
    · exact h.move hpc (by simp [Publish.Writing])
  | reloadCursor v head i | fence v head =>
    simp only [Publish.committed, append_nil, Publish.next, Action.perform]
    exact h.move hpc (by simp [Publish.Writing])
  | roomCheck v head minCursor =>
    simp only [Publish.committed, append_nil, Publish.next, Action.perform]
    split
    · exact h.move trivial (by simp [Publish.Writing])
    · exact h.move hpc (by simp [Publish.Writing])
  | storeSequence v head =>
    simp only [Publish.committed, append_nil, Publish.next, Action.perform] at hlt ⊢
    exact ring_storeSequence h hlt
  | copy v head j =>
    simp only [Publish.committed, append_nil, Publish.next, hr, Bool.false_eq_true,
      if_false] at hlt ⊢
    split
    · exact ring_copy h hlt _
    · obtain ⟨hv,hh,hs,hc⟩ := hpc
      exact h.move ⟨hv,hh,hs,fun n hn => hc n (by omega)⟩ (fun _ => trivial)
  | storeHead v head =>
    simp only [Publish.committed, Publish.next, Action.perform, length_append,
      length_singleton] at hlt ⊢
    split <;> exact ring_storeHead h hlt (fun _ _ => trivial)
  | disarmProducer sequence =>
    simp only [Publish.committed, append_nil, Publish.next, Action.perform]
    refine RingInv.congr (m := m) ?_ (h.move trivial (by simp [Publish.Writing]))
    intro l hl
    exact update_of_ne (by rintro rfl; exact hl) _ _
  | wake base sequence i =>
    simp only [Publish.committed, append_nil, Publish.next]
    split
    · cases base <;> simp only [Action.perform, Bool.false_eq_true, if_false, if_true] <;> split <;>
        exact h.move trivial (by simp [Publish.Writing])
    · exact h.move trivial (by simp [Publish.Writing])
  | touch base sequence i =>
    have ha : ∀ m h, (afterTouch r base sequence i).Holds r m h := by
      intro m h
      simp only [afterTouch]
      split <;> trivial
    simp only [Publish.committed, append_nil, Publish.next]
    cases base with
    | false => exact h.move (ha _ _) (by simp [Publish.Writing])
    | true =>
      refine RingInv.congr (m := m) ?_ (h.move (ha _ _) (by simp [Publish.Writing]))
      intro l hl
      exact update_of_ne (by rintro rfl; exact hl) _ _
  | touchFence i | signal i | clobbered i =>
    exact (append_nil published).symm ▸ h.move trivial (by simp [Publish.Writing])

theorem getElem?_of_append (more : List Payload)
    (h : published[c]? = some v) : (published++more)[c]? = some v := by
  rw [getElem?_append_left (List.getElem?_eq_some_iff.mp h).1, h]

theorem published_mono {r : Ring} {s t : System} {e : Event} (h : step r s e = some t) :
    s.producer.published.length ≤ t.producer.published.length := by
  cases e with
  | publish v handles | subscriber i x =>
    simp only [step, Option.ite_none_right_eq_some, Option.some.injEq] at h
    rw [← h.2]
  | producer x =>
    simp only [step, Producer.next, perform_map, Option.some.injEq] at h
    rw [← h]
    simp

/-- Every state the producer and the subscribers of a topic can reach, one
memory access at a time. -/
def SystemReachable (r : Ring) : System → Prop :=
  Reachable (· = initial) (Steps (step r))

/-! ### Values and their words -/

theorem length_copied (handles : Payload) : (r.copied v handles).length = v.length := by
  rw [Ring.copied, length_mapIdx]

def Ring.Plain : Prop := ∀ j < r.chunks, r.isHandle j = false

theorem Ring.Plain.copied {r : Ring} (hplain : r.Plain) (hv : v.length = r.chunks)
    (handles : Payload) : r.copied v handles = v := by
  refine List.ext_getElem (length_copied r handles) fun j hj hj' => ?_
  rw [hv] at hj'
  simp [Ring.copied, hplain j hj']

/-- The words of the message that is being published. -/
def Publish.words : Publish → Option Payload
  | .loadHead v => some v
  | .loadFirstCursor v _ => some v
  | .compareCursor v _ _ _ => some v
  | .reloadCursor v _ _ => some v
  | .roomCheck v _ _ => some v
  | .storeSequence v _ => some v
  | .copy v _ _ => some v
  | .fence v _ => some v
  | .storeHead v _ => some v
  | _ => none

theorem words_next {r : Ring} {x : ℕ} {w : Payload}
    (h : ((pc.next r).perform x m).1.words = some w) : pc.words = some w := by
  cases pc with
  | loadHead v | roomCheck v head minCursor | storeHead v head =>
    simp only [Publish.next, Action.perform] at h
    split at h <;> first | exact h | cases h
  | loadFirstCursor v head =>
    simp only [Publish.next] at h
    split at h <;> exact h
  | compareCursor v head minCursor i =>
    simp only [Publish.next] at h
    split at h
    · simp only [Action.perform] at h
      split at h <;> exact h
    · exact h
  | copy v head j =>
    simp only [Publish.next] at h
    split at h
    · split at h <;> exact h
    · exact h
  | wake base sequence i =>
    simp only [Publish.next] at h
    split at h
    · split at h <;> simp only [Action.perform] at h <;> split at h <;> cases h
    · cases h
  | touch base sequence i =>
    simp only [Publish.next] at h
    split at h <;> simp only [Action.perform, afterTouch] at h <;> split at h <;> cases h
  | _ => exact h

/-- If no word of a message is a handle, the words published are the values. -/
theorem values_eq {r : Ring} (hplain : r.Plain) {s : System} (h : SystemReachable r s) :
    s.values = s.producer.published ∧ ∀ w, s.producer.pc.words = some w → w = s.value := by
  apply Reachable.invariant _ _ h
  · rintro s rfl
    exact ⟨rfl,nofun⟩
  · rintro s t ⟨hvalues,hwords⟩ ⟨e,hst⟩
    cases e with
    | publish v handles =>
      simp only [step, Option.ite_none_right_eq_some, Option.some.injEq] at hst
      obtain ⟨⟨-,hv⟩,rfl⟩ := hst
      refine ⟨hvalues,fun w hw => ?_⟩
      cases hw
      exact hplain.copied hv handles
    | producer x =>
      simp only [step, Producer.next, perform_map, Option.some.injEq] at hst
      subst hst
      refine ⟨?_,fun w hw => hwords w (words_next hw)⟩
      rw [hvalues]
      cases hpc : s.producer.pc with
      | storeHead v head =>
        rw [hwords v (by rw [hpc]; rfl)]
        rfl
      | _ => rfl
    | subscriber i x =>
      simp only [step, Option.ite_none_right_eq_some, Option.some.injEq] at hst
      obtain ⟨-,rfl⟩ := hst
      exact ⟨hvalues,hwords⟩

end Wrela.TopicProtocol

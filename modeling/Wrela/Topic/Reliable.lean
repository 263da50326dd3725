import Wrela.Topic.Ring

/-!
# Reliable topics deliver every message exactly once

One producer and any number of subscribers, every memory access a step of its
own. The producer reads the cursors one after another while they move; what
makes that safe is that a cursor a full ring behind the head is the least value
any cursor can have, so a later, larger one never replaces it as the minimum. The words
that a subscriber receives are those of the value, unless handles are among them.
-/

set_option autoImplicit false

namespace Wrela.TopicProtocol
open SharedMemory TopicData Transition List Option Function

/-- What the producer knows of the cursors while `h` messages are published:
once a message is admitted, no cursor is a full ring behind. -/
def Publish.Scanned (r : Ring) (m : Loc → ℕ) (h : ℕ) : Publish → Prop
  | .compareCursor _ _ minCursor i => minCursor ≤ h ∧
    ∀ i' < r.subscribers, i' < i → h < minCursor+r.depth → h < m (.cursor i')+r.depth
  | .reloadCursor _ _ i => i < r.subscribers ∧
    ∀ i' < r.subscribers, i' < i → h < m (.cursor i')+r.depth
  | .roomCheck _ _ minCursor => minCursor ≤ h ∧
    ∀ i' < r.subscribers, h < minCursor+r.depth → h < m (.cursor i')+r.depth
  | .storeSequence _ _ => ∀ i' < r.subscribers, h < m (.cursor i')+r.depth
  | .copy _ _ _ => ∀ i' < r.subscribers, h < m (.cursor i')+r.depth
  | .fence _ _ => ∀ i' < r.subscribers, h < m (.cursor i')+r.depth
  | .storeHead _ _ => ∀ i' < r.subscribers, h < m (.cursor i')+r.depth
  | _ => True

/-- A result on its way to the caller, its cursor already stored. -/
def Delivered (published received : List Payload) (cursor : ℕ) : Option Delivery → Prop
  | some d => cursor = d.position+1 ∧ published[d.position]? = some d.payload ∧
    received = published.take d.position
  | none => False

/-- What a subscriber's registers amount to, with `cursor` the value of its
cursor word. -/
def TryNext.Follows (published received : List Payload) (cursor : ℕ) : TryNext → Prop
  | .loadCursor => received = published.take cursor
  | .loadHead c => c = cursor ∧ received = published.take cursor
  | .loadSequence c head => c = cursor ∧ c < head ∧ head ≤ published.length ∧
    received = published.take cursor
  | .fence c => c = cursor ∧ c < published.length ∧ received = published.take cursor
  | .copy c out => c = cursor ∧ received = published.take cursor ∧
    ∃ v, published[c]? = some v ∧ out = v.take out.length
  | .storeCursor value (some d) => value = cursor+1 ∧ d.position = cursor ∧
    published[cursor]? = some d.payload ∧ received = published.take cursor
  | .storeCursor _ none => False
  | .disarm _ result => Delivered published received cursor result
  | .loadProducerWaitline _ result => Delivered published received cursor result
  | .touchProducer _ result => Delivered published received cursor result
  | .touchFence result => Delivered published received cursor result
  | .signalProducer result => Delivered published received cursor result
  | .returned none => received = published.take cursor
  | .returned (some d) => Delivered published received cursor (some d)

variable {cursor : ℕ} {result : Option Delivery} {pc : TryNext}

theorem Delivered.take {published received : List Payload}
    (h : Delivered published received cursor result) : ∃ c, received = published.take c := by
  cases result with
  | none => exact h.elim
  | some d => exact ⟨_,h.2.2⟩

theorem TryNext.Follows.received_prefix {published received : List Payload}
    (h : pc.Follows published received cursor) : received <+: published := by
  have hp : ∃ c, received = published.take c := by
    cases pc with
    | loadCursor => exact ⟨_,h⟩
    | loadHead c => exact ⟨_,h.2⟩
    | loadSequence c head => exact ⟨_,h.2.2.2⟩
    | fence c => exact ⟨_,h.2.2⟩
    | copy c out => exact ⟨_,h.2.1⟩
    | storeCursor value result =>
      cases result with
      | none => exact h.elim
      | some d => exact ⟨_,h.2.2.2⟩
    | returned result =>
      cases result with
      | none => exact ⟨_,h⟩
      | some d => exact ⟨_,h.2.2⟩
    | _ => exact Delivered.take h
  obtain ⟨c,rfl⟩ := hp
  exact take_prefix c published

structure ReliableInv (r : Ring) (s : System) : Prop where
  ring : RingInv r s.mem s.producer.pc s.producer.published
  cursors : ∀ i < r.subscribers, s.mem (.cursor i) ≤ s.producer.published.length ∧
    s.producer.published.length ≤ s.mem (.cursor i)+r.depth
  scanned : s.producer.pc.Scanned r s.mem s.producer.published.length
  follows : ∀ i < r.subscribers, (s.subscriber i).pc.Follows s.producer.published
    (s.subscriber i).received (s.mem (.cursor i))

variable (r : Ring) {s : System} {i : ℕ}

theorem initial_reliable : ReliableInv r initial where
  ring := initial_ring r
  cursors _ _ := ⟨Nat.zero_le _,Nat.zero_le _⟩
  scanned := trivial
  follows _ _ := rfl

section
variable {r : Ring} {m m' : Loc → ℕ} {published : List Payload}

theorem Publish.Scanned.mono {h : ℕ} {pc : Publish} (hs : pc.Scanned r m h)
    (hm : ∀ i, m (.cursor i) ≤ m' (.cursor i)) : pc.Scanned r m' h := by
  cases pc with
  | compareCursor v head minCursor i =>
    refine ⟨hs.1,fun i' hi hlt hd => ?_⟩
    have := hs.2 i' hi hlt hd
    have := hm i'
    omega
  | reloadCursor v head i =>
    refine ⟨hs.1,fun i' hi hlt => ?_⟩
    have := hs.2 i' hi hlt
    have := hm i'
    omega
  | roomCheck v head minCursor =>
    refine ⟨hs.1,fun i' hi hd => ?_⟩
    have := hs.2 i' hi hd
    have := hm i'
    omega
  | storeSequence v head | copy v head j | fence v head | storeHead v head =>
    exact fun i hi => lt_of_lt_of_le (hs i hi) (by have := hm i; omega)
  | _ => trivial

variable {cursor : ℕ} {received : List Payload}

theorem take_of_append (more : List Payload) (hc : cursor ≤ published.length)
    (h : received = published.take cursor) : received = (published++more).take cursor := by
  rw [h, take_append_of_le_length hc]

theorem Delivered.append
    (h : Delivered published received cursor result) (hc : cursor ≤ published.length)
    (more : List Payload) : Delivered (published++more) received cursor result := by
  cases result with
  | none => exact h
  | some d =>
    obtain ⟨hd,hp,hr⟩ := h
    exact ⟨hd,getElem?_of_append more hp,take_of_append more (by omega) hr⟩

theorem TryNext.Follows.append
    (h : pc.Follows published received cursor) (hc : cursor ≤ published.length)
    (more : List Payload) : pc.Follows (published++more) received cursor := by
  cases pc with
  | loadCursor => exact take_of_append more hc h
  | loadHead c => exact ⟨h.1,take_of_append more hc h.2⟩
  | loadSequence c head =>
    obtain ⟨h1,h2,h3,h4⟩ := h
    exact ⟨h1,h2,by rw [length_append]; omega,take_of_append more hc h4⟩
  | fence c =>
    obtain ⟨h1,h2,h3⟩ := h
    exact ⟨h1,by rw [length_append]; omega,take_of_append more hc h3⟩
  | copy c out =>
    obtain ⟨h1,h2,v,h3,h4⟩ := h
    exact ⟨h1,take_of_append more hc h2,v,getElem?_of_append more h3,h4⟩
  | storeCursor value result =>
    cases result with
    | none => exact h
    | some d =>
      obtain ⟨h1,h2,h3,h4⟩ := h
      exact ⟨h1,h2,getElem?_of_append more h3,take_of_append more hc h4⟩
  | disarm value result | loadProducerWaitline value result | touchProducer value result
  | touchFence result | signalProducer result => exact Delivered.append h hc more
  | returned result =>
    cases result with
    | none => exact take_of_append more hc h
    | some d =>
      have hd : Delivered published received cursor (some d) := h
      exact hd.append hc more

end

/-- One action of the producer of a reliable topic: what it has learnt of the
cursors carries over, or a message it had admitted is published. -/
theorem scanned_step (hr : r.reliable) (m : Loc → ℕ) (pc : Publish) (published : List Payload)
    (x : ℕ) (hring : RingInv r m pc published) (hlt : published.length < wordSize)
    (hcur : ∀ i < r.subscribers, m (.cursor i) ≤ published.length ∧
      published.length ≤ m (.cursor i)+r.depth) (hs : pc.Scanned r m published.length) :
    ((pc.next r).perform x m).1.Scanned r m (published++pc.committed).length := by
  have hn := r.subscribers_pos hr
  cases pc with
  | loadHead v | storeHead v head =>
    simp only [Publish.next, Action.perform, hr, if_true]
    trivial
  | loadFirstCursor v head =>
    simp only [Publish.next, if_neg (by omega : ¬ r.subscribers = 0), Action.perform,
      Publish.committed, append_nil]
    refine ⟨(hcur 0 hn).1,?_⟩
    intro i' hi hlt' hd
    rwa [show i' = 0 by omega]
  | compareCursor v head minCursor i =>
    simp only [Publish.next, Publish.committed, append_nil]
    split
    · rename_i hi
      simp only [Action.perform]
      split
      · rename_i hle
        refine ⟨hs.1,?_⟩
        intro i' hi' hlt' hd
        rcases lt_or_ge i' i with hii | hii
        · exact hs.2 i' hi' hii hd
        · rw [show i' = i by omega]
          omega
      · -- a smaller cursor exists, so the minimum so far is above the oldest one
        refine ⟨hi,?_⟩
        intro i' hi' hlt'
        have := (hcur i hi).2
        exact hs.2 i' hi' hlt' (by omega)
    · refine ⟨hs.1,?_⟩
      intro i' hi' hd
      exact hs.2 i' hi' (by omega) hd
  | reloadCursor v head i =>
    simp only [Publish.next, Publish.committed, append_nil, Action.perform]
    refine ⟨(hcur i hs.1).1,?_⟩
    intro i' hi' hlt' hd
    rcases lt_or_ge i' i with hii | hii
    · exact hs.2 i' hi' hii
    · rwa [show i' = i by omega]
  | roomCheck v head minCursor =>
    simp only [Publish.next, Publish.committed, append_nil, Action.perform]
    split
    · trivial
    · rename_i hd
      obtain ⟨-,rfl⟩ := hring.registers
      have hmin := hs.1
      have hsub : (published.length+wordSize-minCursor)%wordSize =
          published.length-minCursor := by
        rw [show published.length+wordSize-minCursor =
          published.length-minCursor+wordSize by omega, Nat.add_mod_right,
          Nat.mod_eq_of_lt (by omega)]
      exact fun i' hi' => hs.2 i' hi' (by omega)
  | storeSequence v head | fence v head =>
    simp only [Publish.next, Publish.committed, append_nil]
    exact hs
  | copy v head j =>
    simp only [Publish.next, Publish.committed, append_nil]
    split
    · split <;> exact hs
    · exact hs
  | wake base sequence i =>
    simp only [Publish.next]
    split
    · split <;> simp only [Action.perform] <;> split <;> trivial
    · trivial
  | touch base sequence i =>
    simp only [Publish.next]
    split <;> simp only [Action.perform, afterTouch] <;> split <;> trivial
  | _ => trivial

theorem ReliableInv.answers {r : Ring} (h : ReliableInv r s)
    (hi : i < r.subscribers) (hc : s.mem (.cursor i) < s.producer.published.length) :
    s.mem (.sequence (r.slotOf (s.mem (.cursor i)))) = s.mem (.cursor i)+1 := by
  apply h.ring.kept _ hc (h.cursors i hi).2
  intro he hw
  -- a slot is refilled only after every cursor has passed it
  have hs := h.scanned
  cases hpc : s.producer.pc <;> rw [hpc] at hs hw <;> try exact hw
  all_goals
    have := hs i hi
    omega

/-- One action of a subscriber: it moves only its own cursor, only up to the
message it has copied, and stays in step with the published list. -/
theorem follows_step {r : Ring} (h : ReliableInv r s)
    (hlt : s.producer.published.length < wordSize) (hi : i < r.subscribers) (x : ℕ) :
    let a := ((s.subscriber i).pc.next r i).perform x s.mem
    s.mem (.cursor i) ≤ a.2 (.cursor i) ∧ a.2 (.cursor i) ≤ s.producer.published.length ∧
    (∀ i' ≠ i, a.2 (.cursor i') = s.mem (.cursor i')) ∧
    a.1.Follows s.producer.published
      ((s.subscriber i).received++(s.subscriber i).pc.delivered) (a.2 (.cursor i)) := by
  have hf := h.follows i hi
  have hle := (h.cursors i hi).1
  have hans := h.answers hi
  generalize hpc : (s.subscriber i).pc = pc at hf ⊢
  -- most actions leave memory as it is and deliver nothing
  have quiet {p q : TryNext} (hd : p.delivered = [])
      (hq : q.Follows s.producer.published (s.subscriber i).received (s.mem (.cursor i))) :
      s.mem (.cursor i) ≤ s.mem (.cursor i) ∧ s.mem (.cursor i) ≤ s.producer.published.length ∧
      (∀ i' ≠ i, s.mem (.cursor i') = s.mem (.cursor i')) ∧ q.Follows s.producer.published
        ((s.subscriber i).received++p.delivered) (s.mem (.cursor i)) := by
    rw [hd, append_nil]
    exact ⟨le_rfl,hle,fun _ _ => rfl,hq⟩
  cases pc with
  | loadCursor => exact quiet rfl ⟨rfl,hf⟩
  | loadHead c =>
    obtain ⟨rfl,hrec⟩ := hf
    refine quiet rfl ?_
    simp only [TryNext.next, Action.perform, h.ring.head]
    split
    · exact hrec
    · exact ⟨rfl,by omega,le_rfl,hrec⟩
  | loadSequence c head =>
    obtain ⟨rfl,hch,hhl,hrec⟩ := hf
    refine quiet rfl ?_
    simp only [TryNext.next, Action.perform]
    rw [hans (by omega), Nat.mod_eq_of_lt (by omega), if_pos rfl]
    exact ⟨rfl,by omega,hrec⟩
  | fence c =>
    obtain ⟨rfl,hcl,hrec⟩ := hf
    exact quiet rfl ⟨rfl,hrec,_,getElem?_eq_getElem hcl,rfl⟩
  | copy c out =>
    obtain ⟨rfl,hrec,v,hv,hout⟩ := hf
    have hcl := (List.getElem?_eq_some_iff.mp hv).1
    have hlen := h.ring.lengths v (mem_of_getElem? hv)
    simp only [TryNext.next, TryNext.delivered, append_nil]
    split
    · -- each word read is the message's own, whatever was published meanwhile
      rename_i hj
      have hw := h.ring.held _ v hv (hans hcl) _ hj
      refine ⟨le_rfl,hle,fun _ _ => rfl,rfl,hrec,v,hv,?_⟩
      rw [length_append, length_singleton, take_add_one, hw, toList_some, ← hout]
    · rename_i hj
      refine ⟨le_rfl,hle,fun _ _ => rfl,Nat.mod_eq_of_lt (by omega),rfl,?_,hrec⟩
      rw [hout, take_of_length_le (by omega)]
      exact hv
  | storeCursor value result =>
    cases result with
    | none => exact hf.elim
    | some d =>
      obtain ⟨rfl,hd,hp,hrec⟩ := hf
      have hcl := (List.getElem?_eq_some_iff.mp hp).1
      simp only [TryNext.next, Action.perform, update_self, TryNext.delivered, append_nil]
      refine ⟨by omega,hcl,?_,by omega,by rw [hd]; exact hp,by rw [hd]; exact hrec⟩
      intro i' hne
      rw [update_of_ne (by simpa using hne)]
  | disarm value result | touchProducer value result =>
    simp only [TryNext.next, Action.perform, TryNext.delivered, append_nil]
    refine ⟨by simp,by simpa using hle,by simp,?_⟩
    cases result with
    | none => exact hf.elim
    | some d => split <;> exact hf
  | loadProducerWaitline value result =>
    refine quiet rfl ?_
    simp only [TryNext.next, Action.perform]
    cases result with
    | none => exact hf.elim
    | some d => split <;> exact hf
  | touchFence result => exact quiet rfl hf
  | signalProducer result =>
    cases result with
    | none => exact hf.elim
    | some d => exact quiet rfl hf
  | returned result =>
    refine ⟨le_rfl,hle,fun _ _ => rfl,?_⟩
    simp only [TryNext.next, Action.perform]
    cases result with
    | none =>
      simp only [TryNext.delivered, append_nil]
      exact hf
    | some d =>
      obtain ⟨hd,hp,hrec⟩ := hf
      simp only [TryNext.delivered, TryNext.Follows]
      rw [hd, take_add_one, hp, hrec]
      rfl

theorem reliable_producer (hr : r.reliable) (s : System) (x : ℕ) (h : ReliableInv r s)
    (hlt : (s.producer.published++s.producer.pc.committed).length < wordSize)
    (values : List Payload) :
    ReliableInv r {s with
      mem := ((s.producer.pc.next r).perform x s.mem).2
      producer := ⟨((s.producer.pc.next r).perform x s.mem).1,
        s.producer.published++s.producer.pc.committed⟩
      values := values} := by
  have hlt' : s.producer.published.length < wordSize := by
    rw [length_append] at hlt
    omega
  have hscan := scanned_step r hr s.mem s.producer.pc s.producer.published x h.ring hlt'
    h.cursors h.scanned
  constructor
  · have hslot : r.misdirects = false := by simp [Ring.misdirects, hr]
    exact ring_step r hslot s.mem s.producer.pc s.producer.published x h.ring hlt
  · intro i hi
    have hc := h.cursors i hi
    have hs := h.scanned
    simp only [producer_cursor]
    cases hpc : s.producer.pc with
    | storeHead v head =>
      rw [hpc] at hs
      have := hs i hi
      simp only [Publish.committed, length_append, length_singleton]
      omega
    | _ => simpa [Publish.committed] using hc
  · exact hscan.mono (fun i => by simp [producer_cursor])
  · intro i hi
    simp only [producer_cursor]
    exact (h.follows i hi).append (h.cursors i hi).1 _

theorem reliable_subscriber (s : System) (i x : ℕ) (hi : i < r.subscribers)
    (h : ReliableInv r s) (hlt : s.producer.published.length < wordSize) :
    ReliableInv r {s with
      mem := (((s.subscriber i).pc.next r i).perform x s.mem).2
      subscriber := update s.subscriber i
        ⟨(((s.subscriber i).pc.next r i).perform x s.mem).1,
          (s.subscriber i).received++(s.subscriber i).pc.delivered⟩} := by
  obtain ⟨hup,hle,hother,hfol⟩ := follows_step h hlt hi x
  constructor
  · exact h.ring.congr (fun l hl => subscriber_frame r i _ x s.mem l hl)
  · intro i' hi'
    have hc := h.cursors i' hi'
    by_cases hne : i' = i
    · subst hne
      exact ⟨hle,hc.2.trans (Nat.add_le_add_right hup _)⟩
    · simp only [hother i' hne]
      exact hc
  · apply h.scanned.mono
    intro i'
    by_cases hne : i' = i
    · subst hne
      exact hup
    · simp [hother i' hne]
  · intro i' hi'
    by_cases hne : i' = i
    · subst hne
      simpa using hfol
    · simp only [update_of_ne hne, hother i' hne]
      exact h.follows i' hi'

theorem reliable_step {r : Ring} (hr : r.reliable) {s t : System} {e : Event}
    (h : ReliableInv r s) (hst : step r s e = some t)
    (hlt : t.producer.published.length < wordSize) : ReliableInv r t := by
  cases e with
  | publish v handles =>
    simp only [step, ite_none_right_eq_some, some.injEq] at hst
    obtain ⟨⟨hidle,hv⟩,rfl⟩ := hst
    have hwords := (length_copied r handles).trans hv
    exact ⟨h.ring.move hwords (by simp [hidle, Publish.Writing]),h.cursors,trivial,h.follows⟩
  | producer x =>
    simp only [step, Producer.next, perform_map, some.injEq] at hst
    subst hst
    exact reliable_producer r hr s x h hlt _
  | subscriber i x =>
    simp only [step, Subscriber.next, perform_map, ite_none_right_eq_some, some.injEq] at hst
    obtain ⟨hi,rfl⟩ := hst
    exact reliable_subscriber r s i x hi h hlt

theorem reachable_reliable {r : Ring} (hr : r.reliable) (h : SystemReachable r s)
    (hlt : s.producer.published.length < wordSize) : ReliableInv r s := by
  have hinv : s.producer.published.length < wordSize → ReliableInv r s := by
    apply Reachable.invariant (P := fun s => s.producer.published.length < wordSize →
      ReliableInv r s) _ _ h
    · rintro s rfl -
      exact initial_reliable r
    · rintro s t ih ⟨e,hst⟩ ht
      have := published_mono hst
      exact reliable_step hr (ih (by omega)) hst ht
  exact hinv hlt

def orders (payloadSize : UInt64) : TopicLayout :=
  ⟨"orders",.reliable,1,payloadSize,8,["engine"],["billing", "audit"]⟩

/-- Messages passed by handle through a ring of one slot, with two subscribers. -/
def reliableRing (payloadSize : UInt64)
    (h : planTopicDataChecked (orders payloadSize) = .ok (planTopicData (orders payloadSize))) :
    Ring where
  source := orders payloadSize
  layout := planTopicData (orders payloadSize)
  planned := h
  wakes _ := true
  wakesProducer := true
  keepsBase := false
  byHandle := true
  dataWords := []

end Wrela.TopicProtocol

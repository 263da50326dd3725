import Wrela.Topic.Ring

/-!
# Gap-detecting topics and the lapped reader

A subscriber compares the slot's sequence word once, before it copies the
payload. The copy is sound as long as the producer does not start to refill
that slot before the last word is read; nothing in the protocol keeps it from
doing so.
-/

set_option autoImplicit false

namespace Wrela.TopicProtocol
open SharedMemory TopicData Transition List Option Function

variable (r : Ring)

def TryNext.reading : TryNext → Option ℕ
  | .fence cursor => some (r.slotOf cursor)
  | .copy cursor out => if out.length < r.chunks then some (r.slotOf cursor) else none
  | _ => none

def Publish.refilling : Publish → Option ℕ
  | .storeSequence _ head => some (r.slotOf head)
  | _ => none

def Event.overwrites (s : System) : Event → Option ℕ
  | .producer _ => s.producer.pc.refilling r
  | _ => none

/-- The step starts to refill no slot that a subscriber is still reading. -/
def Undisturbed (s : System) (e : Event) : Prop :=
  e.overwrites r s = none ∨
  ∀ i < r.subscribers, (s.subscriber i).pc.reading r ≠ e.overwrites r s

instance (r : Ring) (s : System) (e : Event) : Decidable (Undisturbed r s e) :=
  inferInstanceAs (Decidable (_ ∨ _))

/-- A result on its way to the caller is the message of the position it was
read at. -/
def Answers (published : List Payload) (cursor : ℕ) (result : Option Delivery) : Prop :=
  cursor ≤ published.length ∧
  ∀ d, result = some d → cursor = d.position+1 ∧ published[d.position]? = some d.payload

def TryNext.Tracks (m : Loc → ℕ) (published : List Payload) (cursor : ℕ) : TryNext → Prop
  | .loadCursor => cursor ≤ published.length
  | .loadHead c => c = cursor ∧ cursor ≤ published.length
  | .loadSequence c head => c = cursor ∧ c < head ∧ head ≤ published.length
  | .fence c => c = cursor ∧ c < published.length ∧ m (.sequence (r.slotOf c)) = c+1
  | .copy c out => c = cursor ∧ (out.length < r.chunks → m (.sequence (r.slotOf c)) = c+1) ∧
    ∃ v, published[c]? = some v ∧ out = v.take out.length
  | .storeCursor value (some d) => value = cursor+1 ∧ d.position = cursor ∧
    published[cursor]? = some d.payload
  | .storeCursor value none => cursor < value ∧ value ≤ published.length
  | .disarm _ result => Answers published cursor result
  | .loadProducerWaitline _ result => Answers published cursor result
  | .touchProducer _ result => Answers published cursor result
  | .touchFence result => Answers published cursor result
  | .signalProducer result => Answers published cursor result
  | .returned result => Answers published cursor result

structure GapInv (r : Ring) (s : System) : Prop where
  ring : RingInv r s.mem s.producer.pc s.producer.published
  tracks : ∀ i < r.subscribers,
    (s.subscriber i).pc.Tracks r s.mem s.producer.published (s.mem (.cursor i))

theorem initial_gap : GapInv r initial where
  ring := initial_ring r
  tracks _ _ := Nat.zero_le _

variable {r : Ring} {published : List Payload} {cursor : ℕ} {s : System}

theorem Answers.append {result : Option Delivery} (h : Answers published cursor result)
    (more : List Payload) : Answers (published++more) cursor result := by
  constructor
  · rw [length_append]
    have := h.1
    omega
  · intro d hd
    exact ⟨(h.2 d hd).1,getElem?_of_append more (h.2 d hd).2⟩

/-- Publishing more and refilling other slots changes nothing for a subscriber
at work. -/
theorem TryNext.Tracks.mono {m m' : Loc → ℕ} {pc : TryNext} (h : pc.Tracks r m published cursor)
    (hm : ∀ slot, pc.reading r = some slot → m' (.sequence slot) = m (.sequence slot))
    (more : List Payload) : pc.Tracks r m' (published++more) cursor := by
  have hlen : published.length ≤ (published++more).length := by
    rw [length_append]
    omega
  cases pc with
  | loadCursor => exact le_trans h hlen
  | loadHead c => exact ⟨h.1,h.2.trans hlen⟩
  | loadSequence c head => exact ⟨h.1,h.2.1,h.2.2.trans hlen⟩
  | fence c =>
    obtain ⟨h1,h2,h3⟩ := h
    exact ⟨h1,lt_of_lt_of_le h2 hlen,by rw [hm _ rfl, h3]⟩
  | copy c out =>
    obtain ⟨h1,h2,v,h3,h4⟩ := h
    refine ⟨h1,?_,v,getElem?_of_append more h3,h4⟩
    intro ho
    rw [hm _ (by simp [TryNext.reading, ho]), h2 ho]
  | storeCursor value result =>
    cases result with
    | none => exact ⟨h.1,h.2.trans hlen⟩
    | some d => exact ⟨h.1,h.2.1,getElem?_of_append more h.2.2⟩
  | disarm value result | loadProducerWaitline value result | touchProducer value result
  | touchFence result | signalProducer result | returned result => exact Answers.append h more

theorem producer_sequence (r : Ring) (pc : Publish) (x : ℕ) (m : Loc → ℕ) (slot : ℕ)
    (h : pc.refilling r ≠ some slot) :
    ((pc.next r).perform x m).2 (.sequence slot) = m (.sequence slot) := by
  apply perform_of_target_ne
  intro ht
  rcases producer_target r pc _ ht with ⟨v,head,rfl,he⟩ | he
  · exact h (by rw [Publish.refilling, Loc.sequence.inj he])
  · simp at he

theorem subscriber_cursor (r : Ring) (i : ℕ) (pc : TryNext) (x : ℕ) (m : Loc → ℕ) {i' : ℕ}
    (h : i' ≠ i) : ((pc.next r i).perform x m).2 (.cursor i') = m (.cursor i') := by
  apply perform_of_target_ne
  intro ht
  simpa [h] using subscriber_target r i pc _ ht

theorem tracks_step (h : GapInv r s)
    (hlt : s.producer.published.length < wordSize) {i : ℕ} (hi : i < r.subscribers) (x : ℕ) :
    (((s.subscriber i).pc.next r i).perform x s.mem).1.Tracks r s.mem s.producer.published
      ((((s.subscriber i).pc.next r i).perform x s.mem).2 (.cursor i)) := by
  have hf := h.tracks i hi
  generalize (s.subscriber i).pc = pc at hf ⊢
  cases pc with
  | loadCursor =>
    exact ⟨rfl,hf⟩
  | loadHead c =>
    obtain ⟨rfl,hle⟩ := hf
    simp only [TryNext.next, Action.perform, h.ring.head]
    split
    · exact ⟨hle,by simp⟩
    · exact ⟨rfl,by omega,le_rfl⟩
  | loadSequence c head =>
    obtain ⟨rfl,hch,hhl⟩ := hf
    simp only [TryNext.next, Action.perform]
    rw [Nat.mod_eq_of_lt (by omega)]
    split
    · exact ⟨rfl,by omega,by assumption⟩
    · exact ⟨hch,hhl⟩
  | fence c =>
    obtain ⟨rfl,hcl,hs⟩ := hf
    exact ⟨rfl,fun _ => hs,_,getElem?_eq_getElem hcl,rfl⟩
  | copy c out =>
    obtain ⟨rfl,hs,v,hv,hout⟩ := hf
    have hcl := (List.getElem?_eq_some_iff.mp hv).1
    have hlen := h.ring.lengths v (mem_of_getElem? hv)
    simp only [TryNext.next]
    split
    · rename_i hj
      have hw := h.ring.held _ v hv (hs hj) _ hj
      refine ⟨rfl,fun _ => hs hj,v,hv,?_⟩
      rw [length_append, length_singleton, take_add_one, hw, toList_some, ← hout]
    · refine ⟨Nat.mod_eq_of_lt (by omega),rfl,?_⟩
      rw [hout, take_of_length_le (by omega)]
      exact hv
  | storeCursor value result =>
    simp only [TryNext.next, Action.perform, update_self]
    cases result with
    | none => exact ⟨hf.2,by simp⟩
    | some d =>
      obtain ⟨rfl,hd,hp⟩ := hf
      refine ⟨(List.getElem?_eq_some_iff.mp hp).1,?_⟩
      rintro e ⟨rfl⟩
      exact ⟨by rw [hd],by rw [hd]; exact hp⟩
  | disarm value result | touchProducer value result =>
    simp only [TryNext.next, Action.perform]
    rw [update_of_ne (by simp)]
    split <;> exact hf
  | loadProducerWaitline value result =>
    simp only [TryNext.next, Action.perform]
    split <;> exact hf
  | touchFence result | signalProducer result =>
    exact hf
  | returned result =>
    exact hf.1

theorem gap_step (hr : r.misdirects = false) {t : System} {e : Event}
    (h : GapInv r s) (hg : Undisturbed r s e) (hst : step r s e = some t)
    (hlt : t.producer.published.length < wordSize) : GapInv r t := by
  have hmono := published_mono hst
  cases e with
  | publish v handles =>
    simp only [step, ite_none_right_eq_some, some.injEq] at hst
    obtain ⟨⟨hidle,hv⟩,rfl⟩ := hst
    have hwords := (length_copied r handles).trans hv
    exact ⟨h.ring.move hwords (by simp [hidle, Publish.Writing]),h.tracks⟩
  | producer x =>
    simp only [step, Producer.next, perform_map, some.injEq] at hst
    subst hst
    constructor
    · exact ring_step r hr s.mem s.producer.pc s.producer.published x h.ring hlt
    · intro i hi
      simp only [producer_cursor]
      refine (h.tracks i hi).mono ?_ _
      intro slot hslot
      apply producer_sequence
      intro hre
      -- the guard: the slot being refilled is not the one being read
      rcases hg with hn | hg
      · exact absurd (hre.symm.trans hn) (by simp)
      · exact hg i hi (hslot.trans hre.symm)
  | subscriber i x =>
    simp only [step, Subscriber.next, perform_map, ite_none_right_eq_some, some.injEq] at hst
    obtain ⟨hi,rfl⟩ := hst
    have hframe := subscriber_frame r i (s.subscriber i).pc x s.mem
    constructor
    · exact h.ring.congr (fun l hl => hframe l hl)
    · intro i' hi'
      have hseq : ∀ slot, (((s.subscriber i).pc.next r i).perform x s.mem).2 (.sequence slot) =
        s.mem (.sequence slot) := fun slot => hframe (.sequence slot) trivial
      by_cases hne : i' = i
      · subst hne
        have := (tracks_step h hlt hi x).mono (fun slot _ => hseq slot) []
        simpa using this
      · have := (h.tracks i' hi').mono (fun slot _ => hseq slot) []
        simpa only [update_of_ne hne, append_nil, subscriber_cursor r i _ x s.mem hne] using this

def UndisturbedReachable (r : Ring) : System → Prop :=
  Reachable (· = initial) (Steps (guarded (Undisturbed r) (step r)))

theorem UndisturbedReachable.reachable (h : UndisturbedReachable r s) : SystemReachable r s := by
  obtain ⟨s₀,h₀,hr⟩ := h
  have hstep (s t : System) (h : Steps (guarded (Undisturbed r) (step r)) s t) :
      Steps (step r) s t := by
    obtain ⟨e,hst⟩ := h
    exact ⟨e,(guarded_eq_some.mp hst).2⟩
  exact ⟨s₀,h₀,Relation.ReflTransGen.mono hstep s₀ s hr⟩

theorem reachable_gap (hr : r.misdirects = false) (h : UndisturbedReachable r s)
    (hlt : s.producer.published.length < wordSize) : GapInv r s := by
  have hinv : s.producer.published.length < wordSize → GapInv r s := by
    apply Reachable.invariant (P := fun s => s.producer.published.length < wordSize →
      GapInv r s) _ _ h
    · rintro s rfl -
      exact initial_gap r
    · rintro s t ih ⟨e,hst⟩ ht
      obtain ⟨hg,hst⟩ := guarded_eq_some.mp hst
      have := published_mono hst
      exact gap_step hr (ih (by omega)) hg hst ht
  exact hinv hlt

/-- A message a call returns is the one published at the position of its
cursor; a call of a subscriber that has been lapped returns none and moves the
cursor to the head it loaded. -/
def FaithfulReads (r : Ring) (s : System) : Prop :=
  ∀ i < r.subscribers,
    (∀ d, (s.subscriber i).pc = .returned (some d) →
      s.values[d.position]? = some d.payload ∧ s.mem (.cursor i) = d.position+1) ∧
    (∀ c head x, (s.subscriber i).pc = .loadSequence c head → c+r.depth < s.values.length →
      (((s.subscriber i).pc.next r i).perform x s.mem).1 = .storeCursor head none) ∧
    (∀ value, (s.subscriber i).pc = .storeCursor value none →
      s.mem (.cursor i) < value ∧ value ≤ s.mem .head)

def gapRing : Ring where
  source := ⟨"ticks",.topic,1,12,8,["clock"],["log"]⟩
  layout := planTopicData ⟨"ticks",.topic,1,12,8,["clock"],["log"]⟩
  planned := rfl
  wakes _ := true
  wakesProducer := true
  keepsBase := true
  byHandle := true
  dataWords := []

end Wrela.TopicProtocol

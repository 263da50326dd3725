import Wrela.Topic.Ring

/-!
# Sleeping on a topic

The subscriber's loop of draining, arming, re-checking and sleeping next to a
publishing producer, each on a core with a store buffer of its own. The
publisher stores the head and then loads the waitline; the subscriber stores
the waitline and then loads the head. Neither side has a fence between its
store and its load.
-/

set_option autoImplicit false

namespace Wrela.TopicProtocol
open SharedMemory TopicData Transition Function

/-- The executor loop. Between `waitLoadCursor` and `halted` interrupts are
disabled; `sti; hlt` lets a pending one in. -/
inductive Waiter where
  | drain (pc : TryNext)
  | armLoadHead
  | armStore (head : ℕ)
  | recheck (pc : TryNext)
  | waitLoadCursor
  | waitLoadWaitline (cursor : ℕ)
  | halted
  deriving DecidableEq, Repr

variable (r : Ring)

/-- `again` says whether a re-check that found a message is repeated, as in a
loop of re-checks, or followed by the wait at once. -/
def Waiter.next (again : Bool) (i : ℕ) : Waiter → Action Loc ℕ Core Waiter
  | .drain pc =>
    match pc with
    | .returned none => .jump .armLoadHead
    | .returned (some _) => .jump (.drain .loadCursor)
    | pc => (pc.next r i).map .drain
  | .armLoadHead => .read .head .armStore
  | .armStore head => .write (.waitline i) head (.recheck .loadCursor)
  | .recheck pc =>
    match pc with
    | .returned none => .jump .waitLoadCursor
    | .returned (some _) => .jump (if again then .recheck .loadCursor else .waitLoadCursor)
    | pc => (pc.next r i).map .recheck
  | .waitLoadCursor => .read (.cursor i) .waitLoadWaitline
  | .waitLoadWaitline cursor =>
    .read (.waitline i) fun waitline =>
      if waitline = topicWaitlineDisarmed ∨ cursor ≠ waitline then .drain .loadCursor
      else .halted
  | .halted => .jump .halted

def Waiter.interruptible : Waiter → Bool
  | .waitLoadCursor => false
  | .waitLoadWaitline _ => false
  | _ => true

structure Machine where
  mem : Loc → ℕ
  producer : Producer
  producerBuffer : List (Loc × ℕ)
  subscriber : ℕ → Waiter
  buffer : ℕ → List (Loc × ℕ)
  pending : ℕ → Bool

def Machine.initial : Machine where
  mem := initialMemory
  producer := ⟨.idle,[]⟩
  producerBuffer := []
  subscriber _ := .drain .loadCursor
  buffer _ := []
  pending _ := false

/-- A step of a thread, the oldest store of a buffer reaching memory, or a core
taking its wake interrupt. -/
inductive Tso where
  | publish (v : Payload)
  | producer (outside : ℕ)
  | subscriber (i outside : ℕ)
  | drainProducer
  | drainSubscriber (i : ℕ)
  | interrupt (i : ℕ)

def raise (pending : ℕ → Bool) : Option Core → ℕ → Bool
  | some (.subscriber i) => update pending i true
  | _ => pending

def Machine.step (again : Bool) (s : Machine) : Tso → Option Machine
  | .publish v =>
    if s.producer.pc = .idle ∧ v.length = r.chunks then
      some {s with producer := ⟨.loadHead v,s.producer.published⟩}
    else none
  | .producer x =>
    let action := s.producer.next r
    match action.performBuffered x s.mem s.producerBuffer with
    | some (p, b) =>
      some {s with
        producer := p, producerBuffer := b, pending := raise s.pending action.signalled}
    | none => none
  | .subscriber i x =>
    if i < r.subscribers then
      match ((s.subscriber i).next r again i).performBuffered x s.mem (s.buffer i) with
      | some (u, b) =>
        some {s with
          subscriber := update s.subscriber i u
          buffer := update s.buffer i b}
      | none => none
    else none
  | .drainProducer =>
    match s.producerBuffer with
    | e::b => some {s with mem := update s.mem e.1 e.2, producerBuffer := b}
    | [] => none
  | .drainSubscriber i =>
    match s.buffer i with
    | e::b =>
      some {s with
        mem := update s.mem e.1 e.2, buffer := update s.buffer i b}
    | [] => none
  | .interrupt i =>
    if s.pending i ∧ (s.subscriber i).interruptible then
      some {s with
        pending := update s.pending i false
        subscriber := update s.subscriber i
          (if s.subscriber i = .halted then .drain .loadCursor else s.subscriber i)}
    else none

/-- The producer has not finished with subscriber `i` in the wake loop of the
message it has published. -/
def Publish.stillToWake (i : ℕ) : Publish → Bool
  | .disarmProducer _ => true
  | .wake _ _ x => x ≤ i
  | .touch _ _ x => x ≤ i
  | .touchFence x => x ≤ i
  | .signal x => x ≤ i
  | .clobbered x => x < i
  | _ => false

/-- Subscriber `i` sleeps on a published message that nothing will wake it for. -/
def LostWakeup (s : Machine) (i : ℕ) : Prop :=
  s.subscriber i = .halted ∧ s.mem (.cursor i) < s.mem .head ∧ s.producerBuffer = [] ∧
  (∀ j, s.buffer j = []) ∧ s.pending i = false ∧ s.producer.pc.stillToWake i = false

def Publish.loadsWaitline : Publish → Bool
  | .wake _ _ i => i < r.subscribers
  | _ => false

def Publish.goesOnAfterWake : Publish → Bool
  | .clobbered i => i+1 < r.subscribers
  | _ => false

def Waiter.rechecksHead : Waiter → Bool
  | .recheck (.loadHead _) => true
  | _ => false

/-- Each side's load comes after its store has reached memory, and a subscriber
that is woken is the last one of the topic. -/
def Ordered (s : Machine) : Tso → Prop
  | .producer _ => (s.producer.pc.loadsWaitline r → s.producerBuffer = []) ∧
    s.producer.pc.goesOnAfterWake r = false
  | .subscriber i _ => (s.subscriber i).rechecksHead → s.buffer i = []
  | _ => True

instance (r : Ring) (s : Machine) : (e : Tso) → Decidable (Ordered r s e)
  | .publish _ => isTrue trivial
  | .producer _ => inferInstanceAs (Decidable (_ ∧ _))
  | .subscriber _ _ => inferInstanceAs (Decidable (_ → _))
  | .drainProducer => isTrue trivial
  | .drainSubscriber _ => isTrue trivial
  | .interrupt _ => isTrue trivial

/-! ### The publisher as one subscriber sees it -/

open List

def Publish.Counts (r : Ring) (h : ℕ) : Publish → Prop
  | .loadFirstCursor _ head => head = h
  | .compareCursor _ head _ _ => head = h
  | .reloadCursor _ head _ => head = h
  | .roomCheck _ head _ => head = h
  | .storeSequence _ head => head = h
  | .copy _ head _ => head = h
  | .fence _ head => head = h
  | .storeHead _ head => head = h
  | .disarmProducer sequence => sequence = h
  | .wake base sequence x => x < r.subscribers → base ∧ sequence = h
  | .touch base sequence x => base ∧ sequence = h ∧ x < r.subscribers
  | _ => True

/-- The publisher has announced the message and not yet looked at subscriber
`i`, or is stuck before it. -/
def Publish.Before (i : ℕ) : Publish → Prop
  | .disarmProducer _ => True
  | .wake _ _ x => x ≤ i
  | .touch _ _ x => x ≤ i
  | .touchFence x => x < i
  | .signal x => x < i
  | .clobbered x => x < i
  | _ => False

def Publish.Announcing (h : ℕ) (pc : Publish) : Prop :=
  pc = .disarmProducer h ∨ pc = .wake true h 0

/-- A step of a publisher in order, as subscriber `i` sees it: what is in the
buffer, where the publisher is and how many messages there are, before and
after. -/
inductive Move (r : Ring) (i : ℕ) (m : Loc → ℕ) : List (Loc × ℕ) → Publish → ℕ →
    List (Loc × ℕ) → Publish → ℕ → Option Core → Prop where
  | head (v : Payload) (h : ℕ) (pc : Publish) (hpc : pc.Announcing (h+1)) :
    Move r i m [] (.storeHead v h) h [(.head, h+1)] pc (h+1) none
  | skip (h : ℕ) (hw : m (.waitline i) = topicWaitlineDisarmed ∨ h = m (.waitline i)) :
    Move r i m [] (.wake true h i) h [] (.wake true h (i+1)) h none
  | hit (h : ℕ) (hw : ¬ (m (.waitline i) = topicWaitlineDisarmed ∨ h = m (.waitline i))) :
    Move r i m [] (.wake true h i) h [] (.touch true h i) h none
  | touch (b : List (Loc × ℕ)) (h : ℕ) :
    Move r i m b (.touch true h i) h (b++[(.waitline i, h)]) (.touchFence i) h none
  | fence (h : ℕ) : Move r i m [] (.touchFence i) h [] (.signal i) h none
  | signal (h : ℕ) (b : List (Loc × ℕ)) :
    Move r i m b (.signal i) h b (.clobbered i) h (some (.subscriber i))
  | other (b b' : List (Loc × ℕ)) (pc pc' : Publish) (h : ℕ) (sig : Option Core)
    (hb : b' = b ∨ ∃ l v, b' = b++[(l, v)] ∧ l ≠ .head ∧ l ≠ .waitline i ∧ ∀ j, l ≠ .cursor j)
    (hbefore : pc.Before i → pc'.Before i)
    (hann : b ≠ [] → pc.Announcing h → pc'.Announcing h)
    (hpc : pc ≠ .touchFence i ∧ pc ≠ .signal i ∧ pc' ≠ .touchFence i ∧ pc' ≠ .signal i)
    (hcounts : pc'.Counts r h) (hfence : ∀ v head, pc' = .storeHead v head → b' = [])
    (hsig : sig ≠ some (.subscriber i)) : Move r i m b pc h b' pc' h sig

structure ProducerInv (r : Ring) (i : ℕ) (m : Loc → ℕ) (b : List (Loc × ℕ)) (pc : Publish)
    (h : ℕ) : Prop where
  view : flush b m .head = h
  headLe : m .head ≤ h
  counts : pc.Counts r h
  fenced : ∀ v head, pc = .storeHead v head → b = []
  heads : ∀ v, (.head, v) ∈ b → v = h ∧ pc.Announcing h
  touches : ∀ v, (.waitline i, v) ∈ b → v = h ∧ pc = .touchFence i
  noCursor : ∀ e ∈ b, ∀ j, e.1 ≠ .cursor j

def Publish.Preparing : Publish → Prop
  | .disarmProducer _ => False
  | .wake _ _ _ => False
  | .touch _ _ _ => False
  | .touchFence _ => False
  | .signal _ => False
  | .clobbered _ => False
  | _ => True

variable {pc : Publish} {b b' : List (Loc × ℕ)} {i h : ℕ} {r : Ring} {m : Loc → ℕ}

theorem Publish.Preparing.ne (hp : pc.Preparing) :
    ¬ pc.Before i ∧ ¬ pc.Announcing h ∧ pc ≠ .touchFence i ∧ pc ≠ .signal i := by
  cases pc <;> simp_all [Publish.Preparing, Publish.Before, Publish.Announcing]

theorem Move.prepare {pc pc' : Publish} (hpc : pc.Preparing) (hpc' : pc'.Preparing)
    (hb : b' = b ∨ ∃ l v, b' = b++[(l, v)] ∧ l ≠ .head ∧ l ≠ .waitline i ∧ ∀ j, l ≠ .cursor j)
    (hc : pc'.Counts r h) (hf : ∀ v head, pc' = .storeHead v head → b' = []) :
    Move r i m b pc h b' pc' h none := by
  obtain ⟨h1,h2,h3,h4⟩ := hpc.ne (i := i) (h := h)
  obtain ⟨-,-,h5,h6⟩ := hpc'.ne (i := i) (h := h)
  exact .other b b' pc pc' h none hb (fun hp => absurd hp h1) (fun _ hp => absurd hp h2)
    ⟨h3,h4,h5,h6⟩ hc hf (by simp)

theorem producer_move {pc pc' : Publish} {x : ℕ} (hi : i < r.subscribers) (hw : r.wakes i)
    (hinv : ProducerInv r i m b pc h) (hload : pc.loadsWaitline r → b = [])
    (hgo : pc.goesOnAfterWake r = false) (hlt : h+pc.committed.length < wordSize)
    (hstep : (pc.next r).performBuffered x m b = some (pc', b')) :
    Move r i m b pc h b' pc' (h+pc.committed.length) (pc.next r).signalled := by
  have hc := hinv.counts
  cases pc with
  | idle =>
    cases hstep
    exact .prepare trivial trivial (.inl rfl) trivial (by simp)
  | loadHead v =>
    cases hstep
    rw [hinv.view]
    split <;> exact .prepare trivial trivial (.inl rfl) rfl (by simp)
  | loadFirstCursor v head =>
    simp only [Publish.next, if_neg (by omega : ¬ r.subscribers = 0), Action.performBuffered,
      Option.some.injEq, Prod.mk.injEq] at hstep
    obtain ⟨rfl,rfl⟩ := hstep
    simp only [Publish.next, if_neg (by omega : ¬ r.subscribers = 0)]
    exact .prepare trivial trivial (.inl rfl) hc (by simp)
  | compareCursor v head minCursor k =>
    by_cases hk : k < r.subscribers
    · simp only [Publish.next, if_pos hk, Action.performBuffered, Action.signalled,
        Option.some.injEq, Prod.mk.injEq] at hstep ⊢
      obtain ⟨rfl,rfl⟩ := hstep
      split <;> exact .prepare trivial trivial (.inl rfl) hc (by simp)
    · simp only [Publish.next, if_neg hk] at hstep ⊢
      cases hstep
      exact .prepare trivial trivial (.inl rfl) hc (by simp)
  | reloadCursor v head k =>
    cases hstep
    exact .prepare trivial trivial (.inl rfl) hc (by simp)
  | roomCheck v head minCursor =>
    cases hstep
    split
    · exact .prepare trivial trivial (.inl rfl) trivial (by simp)
    · exact .prepare trivial trivial (.inl rfl) hc (by simp)
  | storeSequence v head =>
    cases hstep
    exact .prepare trivial trivial (.inr ⟨_,_,rfl,by simp,by simp,by simp⟩) hc (by simp)
  | copy v head j =>
    simp only [Publish.next] at hstep ⊢
    split at hstep
    · rw [dif_pos (by assumption)]
      split at hstep
      · cases hstep
        rw [if_pos (by assumption)]
        exact .prepare trivial trivial (.inl rfl) hc (by simp)
      · cases hstep
        rw [if_neg (by assumption)]
        exact .prepare trivial trivial (.inr ⟨_,_,rfl,by simp,by simp,by simp⟩) hc (by simp)
    · cases hstep
      rw [dif_neg (by assumption)]
      exact .prepare trivial trivial (.inl rfl) hc (by simp)
  | fence v head =>
    simp only [Publish.next, Action.performBuffered, Option.ite_none_right_eq_some,
      List.isEmpty_iff, Option.some.injEq, Prod.mk.injEq] at hstep
    obtain ⟨hb,rfl,rfl⟩ := hstep
    exact .prepare trivial trivial (.inl rfl) hc (fun _ _ _ => hb)
  | storeHead v head =>
    obtain rfl : head = h := hc
    obtain rfl := hinv.fenced v head rfl
    cases hstep
    simp only [Publish.committed, length_singleton] at hlt ⊢
    rw [Nat.mod_eq_of_lt hlt]
    apply Move.head
    split
    · exact .inl rfl
    · exact .inr rfl
  | disarmProducer sequence =>
    obtain rfl : sequence = h := hc
    cases hstep
    exact .other _ _ _ _ _ _ (.inr ⟨_,_,rfl,by simp,by simp,by simp⟩)
      (fun _ => Nat.zero_le i) (fun _ _ => .inr rfl) (by simp) (fun _ => ⟨rfl,rfl⟩) (by simp)
      (by simp [Publish.next, Action.signalled])
  | wake base sequence k =>
    by_cases hk : k < r.subscribers
    · obtain ⟨rfl,rfl⟩ := hc hk
      obtain rfl := hload (by simpa [Publish.loadsWaitline] using hk)
      simp only [Publish.next, if_pos hk, if_true, Action.performBuffered, Action.signalled,
        Option.some.injEq, Prod.mk.injEq] at hstep ⊢
      obtain ⟨rfl,rfl⟩ := hstep
      by_cases hki : k = i
      · subst hki
        split
        · exact .skip _ (by assumption)
        · exact .hit _ (by assumption)
      · split
        · refine .other _ _ _ _ _ _ (.inl rfl) ?_ (by simp) (by simp) (fun _ => ⟨rfl,rfl⟩) (by simp)
            (by simp)
          simp only [Publish.Before]
          omega
        · exact .other _ _ _ _ _ _ (.inl rfl) id (by simp) (by simp) ⟨rfl,rfl,hk⟩ (by simp)
            (by simp)
    · simp only [Publish.next, if_neg hk] at hstep ⊢
      cases hstep
      refine .other _ _ _ _ _ _ (.inl rfl) ?_ ?_ (by simp) trivial (by simp)
        (by simp [Action.signalled])
      · simp only [Publish.Before]
        omega
      · rintro - (he | he)
        · cases he
        · cases he
          omega
  | touch base sequence k =>
    obtain ⟨rfl,rfl,hk⟩ := hc
    simp only [Publish.next, if_true, Action.performBuffered, Option.some.injEq,
      Prod.mk.injEq] at hstep ⊢
    obtain ⟨rfl,rfl⟩ := hstep
    by_cases hki : k = i
    · subst hki
      simp only [afterTouch, hw, if_true]
      exact .touch _ _
    · refine .other _ _ _ _ _ _ (.inr ⟨_,_,rfl,by simp,by simpa using hki,by simp⟩) ?_
        (by simp [Publish.Announcing]) ?_ ?_ ?_ (by simp [Action.signalled])
      all_goals
        simp only [afterTouch]
        split
      · simp only [Publish.Before]
        omega
      · simp only [Publish.Before]
        omega
      · simpa using hki
      · simp
      · trivial
      · exact fun _ => ⟨rfl,rfl⟩
      · simp
      · simp
  | touchFence k =>
    simp only [Publish.next, Action.performBuffered, Option.ite_none_right_eq_some,
      List.isEmpty_iff, Option.some.injEq, Prod.mk.injEq] at hstep
    obtain ⟨rfl,rfl,rfl⟩ := hstep
    by_cases hki : k = i
    · subst hki
      exact .fence _
    · exact .other _ _ _ _ _ _ (.inl rfl) id (by simp) (by simpa using hki) trivial (by simp)
        (by simp [Publish.next, Action.signalled])
  | signal k =>
    cases hstep
    by_cases hki : k = i
    · subst hki
      exact .signal _ _
    · exact .other _ _ _ _ _ _ (.inl rfl) id (by simp [Publish.Announcing])
        (by simpa using hki) trivial (by simp) (by simpa [Publish.next, Action.signalled] using hki)
  | clobbered k =>
    simp only [Publish.goesOnAfterWake, decide_eq_false_iff_not, not_lt] at hgo
    cases hstep
    refine .other _ _ _ _ _ _ (.inl rfl) ?_ (by simp [Publish.Announcing]) (by simp) ?_ (by simp)
      (by simp [Publish.next, Action.signalled])
    · simp only [Publish.Before]
      omega
    · intro hlt'
      omega

theorem Publish.Announcing.before (ha : pc.Announcing h) : pc.Before i := by
  rcases ha with rfl | rfl
  · trivial
  · exact Nat.zero_le i

theorem Publish.Announcing.counts (ha : pc.Announcing h) : pc.Counts r h := by
  rcases ha with rfl | rfl
  · rfl
  · exact fun _ => ⟨rfl,rfl⟩

section
variable {r : Ring} {i h h' : ℕ} {m : Loc → ℕ} {b b' : List (Loc × ℕ)} {pc pc' : Publish}
  {sig : Option Core}

theorem ProducerInv.move (hi : i < r.subscribers) (hinv : ProducerInv r i m b pc h)
    (hmove : Move r i m b pc h b' pc' h' sig) : ProducerInv r i m b' pc' h' := by
  cases hmove with
  | head v _ _ hpc =>
    refine ⟨by simp,hinv.headLe.trans (Nat.le_succ _),hpc.counts,?_,?_,by simp,by simp⟩
    · rintro w head rfl
      rcases hpc with he | he <;> cases he
    · intro w hw
      simp only [mem_singleton, Prod.mk.injEq, true_and] at hw
      exact ⟨hw,hpc⟩
  | skip _ hw =>
    exact ⟨hinv.view,hinv.headLe,fun _ => ⟨rfl,rfl⟩,by simp,by simp,by simp,by simp⟩
  | hit _ hw =>
    exact ⟨hinv.view,hinv.headLe,⟨rfl,rfl,hi⟩,by simp,by simp,by simp,by simp⟩
  | touch _ _ =>
    refine ⟨?_,hinv.headLe,trivial,by simp,?_,?_,?_⟩
    · rw [flush_append]
      simpa using hinv.view
    · intro v hv
      simp only [mem_append, mem_singleton, Prod.mk.injEq, reduceCtorEq, false_and, or_false] at hv
      rcases (hinv.heads v hv).2 with he | he <;> cases he
    · intro v hv
      rcases mem_append.mp hv with hv | hv
      · cases (hinv.touches v hv).2
      · simp only [mem_singleton, Prod.mk.injEq, true_and] at hv
        exact ⟨hv,rfl⟩
    · intro e he j
      rcases mem_append.mp he with he | he
      · exact hinv.noCursor e he j
      · simp [mem_singleton.mp he]
  | fence _ => exact ⟨hinv.view,hinv.headLe,trivial,by simp,by simp,by simp,by simp⟩
  | signal _ _ =>
    refine ⟨hinv.view,hinv.headLe,trivial,by simp,?_,?_,hinv.noCursor⟩
    · intro v hv
      rcases (hinv.heads v hv).2 with he | he <;> cases he
    · intro v hv
      cases (hinv.touches v hv).2
  | other _ _ _ _ _ _ hb hbefore hann hpc hcounts hfence hsig =>
    refine ⟨?_,hinv.headLe,hcounts,hfence,?_,?_,?_⟩
    · rcases hb with rfl | ⟨l,v,rfl,hl,-,-⟩
      · exact hinv.view
      · rw [flush_append]
        simpa [update_of_ne (Ne.symm hl)] using hinv.view
    · intro v hv
      have hv' : (.head, v) ∈ b := by
        rcases hb with rfl | ⟨l,w,rfl,hl,-,-⟩
        · exact hv
        · simpa [Ne.symm hl] using hv
      exact ⟨(hinv.heads v hv').1,hann (ne_nil_of_mem hv') (hinv.heads v hv').2⟩
    · intro v hv
      have hv' : (.waitline i, v) ∈ b := by
        rcases hb with rfl | ⟨l,w,rfl,-,hl,-⟩
        · exact hv
        · simpa [Ne.symm hl] using hv
      exact absurd (hinv.touches v hv').2 hpc.1
    · intro e he j
      rcases hb with rfl | ⟨l,w,rfl,-,-,hl⟩
      · exact hinv.noCursor e he j
      · rcases mem_append.mp he with he | he
        · exact hinv.noCursor e he j
        · rw [mem_singleton.mp he]
          exact hl j

theorem ProducerInv.drain {e : Loc × ℕ} (hinv : ProducerInv r i m (e::b) pc h) :
    ProducerInv r i (update m e.1 e.2) b pc h where
  view := hinv.view
  headLe := by
    by_cases he : e.1 = .head
    · rw [he, update_self]
      exact (hinv.heads e.2 (he ▸ mem_cons_self)).1.le
    · rw [update_of_ne (Ne.symm he)]
      exact hinv.headLe
  counts := hinv.counts
  fenced v head hpc := absurd (hinv.fenced v head hpc) (cons_ne_nil _ _)
  heads v hv := hinv.heads v (mem_cons_of_mem _ hv)
  touches v hv := hinv.touches v (mem_cons_of_mem _ hv)
  noCursor f hf := hinv.noCursor f (mem_cons_of_mem _ hf)

theorem ProducerInv.congr {m' : Loc → ℕ} (hinv : ProducerInv r i m b pc h)
    (hm : m' .head = m .head) : ProducerInv r i m' b pc h :=
  { hinv with
    view := (flush_congr b hm).trans hinv.view
    headLe := hm ▸ hinv.headLe }

end

end Wrela.TopicProtocol

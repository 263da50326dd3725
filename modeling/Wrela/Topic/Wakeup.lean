import Wrela.Topic.Wait

/-!
# No wake-up is lost when stores and loads keep their order

The invariant of the handshake follows the subscriber from its re-check to its
sleep: what it may rely on before it decides, and what wakes it afterwards.
-/

set_option autoImplicit false

namespace Wrela.TopicProtocol
open SharedMemory TopicData Transition List Option Function

def TryNext.Past : TryNext → Prop
  | .loadCursor => False
  | .loadHead _ => False
  | _ => True

/-- The call stores nothing more to the subscriber's cursor or waitline. -/
def TryNext.Settled : TryNext → Prop
  | .loadProducerWaitline _ _ => True
  | .touchProducer _ _ => True
  | .touchFence _ => True
  | .signalProducer _ => True
  | .returned _ => True
  | _ => False

/-- The call's registers against the subscriber's own view of its cursor. -/
def TryNext.Bounded (h cursor : ℕ) : TryNext → Prop
  | .loadHead c => c = cursor
  | .loadSequence c head => c < head ∧ head ≤ h
  | .fence c => c < h
  | .copy c _ => c < h
  | .storeCursor value _ => value ≤ h
  | _ => True

def Waiter.Past : Waiter → Prop
  | .recheck pc => pc.Past
  | .waitLoadCursor => True
  | .waitLoadWaitline _ => True
  | .halted => True
  | _ => False

def Waiter.Settled : Waiter → Prop
  | .recheck pc => pc.Settled
  | .waitLoadCursor => True
  | .waitLoadWaitline _ => True
  | _ => False

def Waiter.Bounded (h cursor : ℕ) : Waiter → Prop
  | .drain pc => pc.Bounded h cursor
  | .recheck pc => pc.Bounded h cursor
  | .waitLoadWaitline c => c = cursor
  | _ => True

structure SubscriberInv (i : ℕ) (m : Loc → ℕ) (b : List (Loc × ℕ)) (u : Waiter) (h : ℕ) :
    Prop where
  targets : ∀ e ∈ b, e.1 = .cursor i ∨ e.1 = .waitline i ∨ e.1 = .producerWaitline
  cursorLe : flush b m (.cursor i) ≤ h
  bounded : u.Bounded h (flush b m (.cursor i))
  disarms : u.Past → ∀ v, (.waitline i, v) ∈ b → v = topicWaitlineDisarmed

/-- Before the subscriber decides to sleep: nothing is above its cursor, or the
publisher has yet to look at its waitline, or it will not find itself armed. -/
def Answered (i : ℕ) (m : Loc → ℕ) (pb : List (Loc × ℕ)) (pc : Publish)
    (b : List (Loc × ℕ)) : Prop :=
  m .head ≤ flush b m (.cursor i) ∨ pc.Before i ∨
  (pc = .touchFence i ∧ ∃ v, (.waitline i, v) ∈ pb) ∨
  (flush b m (.waitline i) ≠ flush b m (.cursor i) ∧
    (.waitline i, flush b m (.cursor i)) ∉ pb)

/-- Asleep: an interrupt is on its way, or the waitline is still armed and
nothing is above the cursor that the publisher has already passed over. -/
def Woken (i : ℕ) (m : Loc → ℕ) (pc : Publish) (b : List (Loc × ℕ)) (pending : Bool) : Prop :=
  (∀ v, (.waitline i, v) ∉ b) ∧
  (pending ∨ pc = .touchFence i ∨ pc = .signal i ∨
    (m (.waitline i) ≤ flush b m (.cursor i) ∧
      (m .head ≤ flush b m (.cursor i) ∨ pc.Before i)))

variable {x i : ℕ} {again : Bool}

section
variable {r : Ring} {i h h' : ℕ} {m m' : Loc → ℕ} {pb pb' b b' : List (Loc × ℕ)}
  {pc pc' : Publish} {sig : Option Core} {u : Waiter} {pending : Bool} {q : TryNext} {u' : Waiter}

theorem Waiter.Settled.past {u : Waiter} (h : u.Settled) : u.Past := by
  cases u with
  | recheck pc => cases pc <;> trivial
  | drain pc | armLoadHead | armStore head => exact h
  | _ => trivial

/-- The subscriber's own view of its waitline, once it has loaded the head. -/
theorem SubscriberInv.waitline (hs : SubscriberInv i m b u h) (hp : u.Past) :
    flush b m (.waitline i) = topicWaitlineDisarmed ∨
    flush b m (.waitline i) = m (.waitline i) := by
  by_cases hb : ∃ v, (.waitline i, v) ∈ b
  · obtain ⟨v,hv⟩ := hb
    exact .inl (hs.disarms hp _ (flush_of_mem b m hv))
  · refine .inr (flush_other b m _ ?_)
    rintro ⟨l,v⟩ he rfl
    exact hb ⟨v,he⟩

theorem Answered.move (hd : h < topicWaitlineDisarmed) (hinv : ProducerInv r i m pb pc h)
    (hs : SubscriberInv i m b u h) (hp : u.Past) (ha : Answered i m pb pc b)
    (hmove : Move r i m pb pc h pb' pc' h' sig) : Answered i m pb' pc' b := by
  cases hmove with
  | head v _ _ hpc => exact .inr (.inl hpc.before)
  | skip _ hw =>
    by_cases hle : m .head ≤ flush b m (.cursor i)
    · exact .inl hle
    · have hv : m .head = h := hinv.view
      refine .inr (.inr (.inr ⟨?_,by simp⟩))
      rcases hs.waitline hp with he | he
      · rw [he]
        omega
      · rw [he]
        rcases hw with hw | hw <;> omega
  | hit _ hw => exact .inr (.inl (le_refl i))
  | touch _ _ => exact .inr (.inr (.inl ⟨rfl,h,by simp⟩))
  | fence _ =>
    rcases ha with ha | ha | ⟨-,v,hv⟩ | ha
    · exact .inl ha
    · exact absurd ha (lt_irrefl i)
    · simp at hv
    · exact .inr (.inr (.inr ha))
  | signal _ _ =>
    rcases ha with ha | ha | ⟨ha,-⟩ | ha
    · exact .inl ha
    · exact absurd ha (lt_irrefl i)
    · cases ha
    · exact .inr (.inr (.inr ha))
  | other _ _ _ _ _ _ hb hbefore hann hpc hcounts hfence hsig =>
    rcases ha with ha | ha | ⟨ha,-⟩ | ⟨ha,hn⟩
    · exact .inl ha
    · exact .inr (.inl (hbefore ha))
    · exact absurd ha hpc.1
    · refine .inr (.inr (.inr ⟨ha,?_⟩))
      rcases hb with rfl | ⟨l,v,rfl,-,hl,-⟩
      · exact hn
      · simp [hn, Ne.symm hl]

theorem SubscriberInv.congr (hs : SubscriberInv i m b u h)
    (hc : m' (.cursor i) = m (.cursor i)) : SubscriberInv i m' b u h := by
  have hcur := flush_congr b hc
  exact ⟨hs.targets,hcur ▸ hs.cursorLe,hcur ▸ hs.bounded,hs.disarms⟩

variable {e : Loc × ℕ}

theorem Answered.drain (hd : h < topicWaitlineDisarmed)
    (hinv : ProducerInv r i m (e::pb) pc h) (hs : SubscriberInv i m b u h) (hp : u.Past)
    (ha : Answered i m (e::pb) pc b) : Answered i (update m e.1 e.2) pb pc b := by
  have hkeep := update_of_ne (Ne.symm (hinv.noCursor e mem_cons_self i)) e.2 m
  simp only [Answered, flush_congr b hkeep]
  by_cases hh : e.1 = .head
  · exact .inr (.inl (hinv.heads e.2 (hh ▸ mem_cons_self)).2.before)
  · rw [update_of_ne (Ne.symm hh)]
    by_cases hw : e.1 = .waitline i
    · -- the touch reaches memory: armed or disarmed, the waitline is not the cursor
      obtain ⟨hv,-⟩ := hinv.touches e.2 (hw ▸ mem_cons_self)
      by_cases hle : m .head ≤ flush b m (.cursor i)
      · exact .inl hle
      · have hle' := hinv.headLe
        refine .inr (.inr (.inr ⟨?_,?_⟩))
        · rcases (hs.congr hkeep).waitline hp with he | he <;> rw [he]
          · omega
          · rw [hw, update_self]
            omega
        · intro hm
          have := (hinv.touches _ (mem_cons_of_mem e hm)).1
          omega
    · have hwl : flush b (update m e.1 e.2) (.waitline i) = flush b m (.waitline i) :=
        flush_congr b (update_of_ne (Ne.symm hw) _ _)
      rw [hwl]
      rcases ha with ha | ha | ⟨ha,v,hv⟩ | ⟨ha,hn⟩
      · exact .inl ha
      · exact .inr (.inl ha)
      · refine .inr (.inr (.inl ⟨ha,v,?_⟩))
        rcases mem_cons.mp hv with hv | hv
        · exact absurd (by rw [← hv]) hw
        · exact hv
      · exact .inr (.inr (.inr ⟨ha,fun hm => hn (mem_cons_of_mem e hm)⟩))

/-- Stores of other cores that leave the head, the cursor and the waitline. -/
theorem Answered.congr (ha : Answered i m pb pc b) (hh : m' .head = m .head)
    (hc : m' (.cursor i) = m (.cursor i)) (hw : m' (.waitline i) = m (.waitline i)) :
    Answered i m' pb pc b := by
  simp only [Answered, hh, flush_congr b hc, flush_congr b hw]
  exact ha

theorem Woken.congr (ha : Woken i m pc b pending) (hh : m' .head = m .head)
    (hc : m' (.cursor i) = m (.cursor i)) (hw : m' (.waitline i) = m (.waitline i)) :
    Woken i m' pc b pending := by
  simp only [Woken, hh, hw, flush_congr b hc]
  exact ha

theorem Woken.move (hd : h < topicWaitlineDisarmed) (hinv : ProducerInv r i m pb pc h)
    (hs : SubscriberInv i m b u h) (ha : Woken i m pc b pending)
    (hmove : Move r i m pb pc h pb' pc' h' sig) :
    Woken i m pc' b (pending || sig = some (.subscriber i)) := by
  obtain ⟨hb,ha⟩ := ha
  refine ⟨hb,?_⟩
  rcases ha with ha | ha
  · exact .inl (by simp [ha])
  · have hc := hs.cursorLe
    cases hmove with
    | head v _ _ hpc =>
      rcases ha with ha | ha | ⟨ha,-⟩
      · cases ha
      · cases ha
      · exact .inr (.inr (.inr ⟨ha,.inr hpc.before⟩))
    | skip _ hw =>
      rcases ha with ha | ha | ⟨hle,-⟩
      · cases ha
      · cases ha
      · -- the waitline is armed, so the publisher passes over it only for a
        -- message the subscriber already has
        have hv : m .head = h := hinv.view
        exact .inr (.inr (.inr ⟨hle,.inl (by rcases hw with hw | hw <;> omega)⟩))
    | hit _ hw =>
      rcases ha with ha | ha | ⟨hle,-⟩
      · cases ha
      · cases ha
      · exact .inr (.inr (.inr ⟨hle,.inr (le_refl i)⟩))
    | touch _ _ => exact .inr (.inl rfl)
    | fence _ => exact .inr (.inr (.inl rfl))
    | signal _ _ => exact .inl (by simp)
    | other _ _ _ _ _ _ hb hbefore hann hpc hcounts hfence hsig =>
      rcases ha with ha | ha | ⟨hle,ha⟩
      · exact absurd ha hpc.1
      · exact absurd ha hpc.2.1
      · exact .inr (.inr (.inr ⟨hle,ha.imp_right hbefore⟩))

theorem Woken.drain (hinv : ProducerInv r i m (e::pb) pc h)
    (ha : Woken i m pc b pending) : Woken i (update m e.1 e.2) pc b pending := by
  have hcur : flush b (update m e.1 e.2) (.cursor i) = flush b m (.cursor i) :=
    flush_congr b (update_of_ne (Ne.symm (hinv.noCursor e mem_cons_self i)) _ _)
  obtain ⟨hb,ha⟩ := ha
  refine ⟨hb,?_⟩
  rw [hcur]
  rcases ha with ha | ha | ha | ⟨hle,ha⟩
  · exact .inl ha
  · exact .inr (.inl ha)
  · exact .inr (.inr (.inl ha))
  · by_cases hw : e.1 = .waitline i
    · exact .inr (.inl (hinv.touches e.2 (hw ▸ mem_cons_self)).2)
    · rw [update_of_ne (Ne.symm hw)]
      by_cases hh : e.1 = .head
      · have hpc := (hinv.heads e.2 (hh ▸ mem_cons_self)).2
        exact .inr (.inr (.inr ⟨hle,.inr hpc.before⟩))
      · rw [update_of_ne (Ne.symm hh)]
        exact .inr (.inr (.inr ⟨hle,ha⟩))

theorem SubscriberInv.drain (hs : SubscriberInv i m (e::b) u h) :
    SubscriberInv i (update m e.1 e.2) b u h where
  targets f hf := hs.targets f (mem_cons_of_mem e hf)
  cursorLe := hs.cursorLe
  bounded := hs.bounded
  disarms hp v hv := hs.disarms hp v (mem_cons_of_mem e hv)

theorem SubscriberInv.head_ne (hs : SubscriberInv i m b u h) (he : e ∈ b) : e.1 ≠ .head := by
  rcases hs.targets e he with h | h | h <;> simp [h]

theorem Answered.ownDrain (hs : SubscriberInv i m (e::b) u h)
    (ha : Answered i m pb pc (e::b)) : Answered i (update m e.1 e.2) pb pc b := by
  simp only [Answered, update_of_ne (Ne.symm (hs.head_ne mem_cons_self))]
  exact ha

theorem Woken.ownDrain (hs : SubscriberInv i m (e::b) u h)
    (ha : Woken i m pc (e::b) pending) : Woken i (update m e.1 e.2) pc b pending := by
  have hw : e.1 ≠ .waitline i := fun he => ha.1 e.2 (he ▸ mem_cons_self)
  refine ⟨fun v hv => ha.1 v (mem_cons_of_mem e hv),?_⟩
  rw [update_of_ne (Ne.symm (hs.head_ne mem_cons_self)), update_of_ne (Ne.symm hw)]
  exact ha.2

theorem TryNext.Bounded.mono {cursor : ℕ} {pc : TryNext} (hb : pc.Bounded h cursor)
    (hle : h ≤ h') : pc.Bounded h' cursor := by
  cases pc with
  | loadSequence c head => exact ⟨hb.1,hb.2.trans hle⟩
  | fence c | copy c out => exact lt_of_lt_of_le hb hle
  | storeCursor value result => exact le_trans hb hle
  | _ => exact hb

theorem SubscriberInv.mono (hs : SubscriberInv i m b u h) (hle : h ≤ h') :
    SubscriberInv i m b u h' where
  targets := hs.targets
  cursorLe := hs.cursorLe.trans hle
  bounded := by
    have hb := hs.bounded
    cases u with
    | drain pc | recheck pc => exact hb.mono hle
    | _ => exact hb
  disarms := hs.disarms

theorem TryNext.Bounded.step {w : Loc → ℕ} {pc : TryNext} (x : ℕ) (hhead : w .head ≤ h)
    (hc : w (.cursor i) ≤ h) (hb : pc.Bounded h (w (.cursor i))) :
    ((pc.next r i).perform x w).1.Bounded h (((pc.next r i).perform x w).2 (.cursor i)) ∧
    ((pc.next r i).perform x w).2 (.cursor i) ≤ h := by
  cases pc with
  | loadCursor => exact ⟨rfl,hc⟩
  | loadHead c =>
    refine ⟨?_,hc⟩
    simp only [TryNext.next, Action.perform]
    split
    · trivial
    · exact ⟨by omega,hhead⟩
  | loadSequence c head =>
    refine ⟨?_,hc⟩
    simp only [TryNext.next, Action.perform]
    split
    · exact lt_of_lt_of_le hb.1 hb.2
    · exact hb.2
  | fence c => exact ⟨hb,hc⟩
  | copy c out =>
    simp only [TryNext.next]
    split
    · exact ⟨hb,hc⟩
    · exact ⟨(Nat.mod_le _ _).trans hb,hc⟩
  | storeCursor value result =>
    simp only [TryNext.next, Action.perform, update_self]
    exact ⟨trivial,hb⟩
  | disarm value result | loadProducerWaitline value result | touchProducer value result =>
    simp only [TryNext.next, Action.perform]
    split <;> exact ⟨trivial,hc⟩
  | _ => exact ⟨trivial,hc⟩

theorem SubscriberInv.head_view (hs : SubscriberInv i m b u h) : flush b m .head = m .head :=
  flush_other b m _ (fun _ he => hs.head_ne he)

theorem SubscriberInv.call (phase : TryNext → Waiter) {q' : TryNext}
    (hphase : ∀ q c, (phase q).Bounded h c ↔ q.Bounded h c) (hhead : m .head ≤ h)
    (hs : SubscriberInv i m b (phase q) h)
    (hstep : (q.next r i).performBuffered x m b = some (q', b'))
    (hdis : (phase q').Past → ∀ v, (.waitline i, v) ∈ b' → v = topicWaitlineDisarmed) :
    SubscriberInv i m b' (phase q') h := by
  have hview := performBuffered_view x m b b' _ q' hstep
  have hb := TryNext.Bounded.step (r := r) x (hs.head_view ▸ hhead) hs.cursorLe
    ((hphase q _).mp hs.bounded)
  rw [hview] at hb
  refine ⟨?_,hb.2,(hphase q' _).mpr hb.1,hdis⟩
  intro e he
  rcases performBuffered_buffer x m b b' _ q' hstep with rfl | ⟨l,v,hl,rfl⟩
  · exact hs.targets e he
  · rcases mem_append.mp he with he | he
    · exact hs.targets e he
    · rw [mem_singleton.mp he]
      exact subscriber_target r i q l hl

theorem recheck_step {q' : TryNext} (hd : h < topicWaitlineDisarmed)
    (hinv : ProducerInv r i m pb pc h) (hs : SubscriberInv i m b (.recheck q) h)
    (ha : q.Settled → Answered i m pb pc b) (hguard : (Waiter.recheck q).rechecksHead → b = [])
    (hq : ∀ result, q ≠ .returned result)
    (hstep : (q.next r i).performBuffered x m b = some (q', b')) :
    (q'.Past → ∀ v, (.waitline i, v) ∈ b' → v = topicWaitlineDisarmed) ∧
    (q'.Settled → Answered i m pb pc b') := by
  have hdis := hs.disarms
  cases q with
  | loadCursor =>
    cases hstep
    exact ⟨fun h => h.elim,fun h => h.elim⟩
  | loadHead c =>
    obtain rfl := hguard rfl
    cases hstep
    refine ⟨by simp,?_⟩
    have hc : c = m (.cursor i) := hs.bounded
    beta_reduce
    split
    · rename_i hle
      exact fun _ => .inl (le_trans hle hc.le)
    · exact fun h => h.elim
  | loadSequence c head =>
    cases hstep
    refine ⟨fun _ => hdis trivial,?_⟩
    beta_reduce
    split <;> exact fun h => h.elim
  | fence c =>
    simp only [TryNext.next, Action.performBuffered, ite_none_right_eq_some,
      some.injEq, Prod.mk.injEq] at hstep
    obtain ⟨-,rfl,rfl⟩ := hstep
    exact ⟨fun _ => hdis trivial,fun h => h.elim⟩
  | copy c out =>
    simp only [TryNext.next] at hstep
    split at hstep <;> cases hstep <;> exact ⟨fun _ => hdis trivial,fun h => h.elim⟩
  | storeCursor value result =>
    cases hstep
    refine ⟨fun _ v hv => hdis trivial v ?_,fun h => h.elim⟩
    simpa using hv
  | disarm value result =>
    obtain ⟨rfl,rfl⟩ := hstep
    constructor
    · intro _ v hv
      rcases mem_append.mp hv with hv | hv
      · exact hdis trivial v hv
      · simpa using hv
    · intro _
      have hc := hs.cursorLe
      simp only [Answered, flush_append, flush_cons, flush_nil, update_self,
        update_of_ne (show Loc.cursor i ≠ Loc.waitline i by simp)]
      -- a touch still on its way is for the message the cursor is at
      by_cases hm : (.waitline i, flush b m (.cursor i)) ∈ pb
      · have := (hinv.touches _ hm).1
        have := hinv.headLe
        exact .inl (by omega)
      · exact .inr (.inr (.inr ⟨by omega,hm⟩))
  | loadProducerWaitline value result =>
    obtain ⟨rfl,rfl⟩ := hstep
    exact ⟨fun _ => hdis trivial,fun _ => ha trivial⟩
  | touchProducer value result =>
    obtain ⟨rfl,rfl⟩ := hstep
    constructor
    · intro _ v hv
      exact hdis trivial v (by simpa using hv)
    · intro _
      simp only [Answered, flush_append, flush_cons, flush_nil,
        update_of_ne (show Loc.waitline i ≠ Loc.producerWaitline by simp)]
      exact ha trivial
  | touchFence result =>
    simp only [TryNext.next, Action.performBuffered, ite_none_right_eq_some,
      some.injEq, Prod.mk.injEq] at hstep
    obtain ⟨-,rfl,rfl⟩ := hstep
    exact ⟨fun _ => hdis trivial,fun _ => ha trivial⟩
  | signalProducer result =>
    cases hstep
    exact ⟨fun _ => hdis trivial,fun _ => ha trivial⟩
  | returned result => exact absurd rfl (hq result)

theorem TryNext.runs_or_returned (q : TryNext) :
    (∀ result, q ≠ .returned result) ∨ ∃ result, q = .returned result := by
  rw [← not_exists]
  exact (Classical.em _).symm

theorem next_drain (again : Bool) (hq : ∀ result, q ≠ .returned result) :
    (Waiter.drain q).next r again i = (q.next r i).map .drain := by
  cases q with
  | returned result => exact absurd rfl (hq result)
  | _ => rfl

theorem next_recheck (again : Bool) (hq : ∀ result, q ≠ .returned result) :
    (Waiter.recheck q).next r again i = (q.next r i).map .recheck := by
  cases q with
  | returned result => exact absurd rfl (hq result)
  | _ => rfl

theorem SubscriberInv.leave (hs : SubscriberInv i m b u h)
    (hb : u'.Bounded h (flush b m (.cursor i))) (hp : ¬ u'.Past) : SubscriberInv i m b u' h :=
  ⟨hs.targets,hs.cursorLe,hb,fun h => absurd h hp⟩

theorem waiter_step (hd : h < topicWaitlineDisarmed) (hinv : ProducerInv r i m pb pc h)
    (hs : SubscriberInv i m b u h) (ha : u.Settled → Answered i m pb pc b)
    (hw : u = .halted → Woken i m pc b pending) (hguard : u.rechecksHead → b = [])
    (hstep : (u.next r again i).performBuffered x m b = some (u', b')) :
    SubscriberInv i m b' u' h ∧ (u'.Settled → Answered i m pb pc b') ∧
    (u' = .halted → Woken i m pc b' pending) := by
  cases u with
  | drain q =>
    obtain hq | ⟨result,rfl⟩ := q.runs_or_returned
    · rw [next_drain again hq, performBuffered_map] at hstep
      obtain ⟨⟨q',b''⟩,hcall,he⟩ := map_eq_some_iff.mp hstep
      cases he
      exact ⟨SubscriberInv.call .drain (fun _ _ => Iff.rfl) hinv.headLe hs hcall (fun h => h.elim),
        fun h => h.elim,by simp⟩
    · cases result <;> cases hstep <;>
        exact ⟨hs.leave trivial id,fun h => h.elim,by simp⟩
  | armLoadHead =>
    cases hstep
    exact ⟨hs.leave trivial id,fun h => h.elim,by simp⟩
  | armStore head =>
    cases hstep
    refine ⟨⟨?_,?_,trivial,fun h => h.elim⟩,fun h => h.elim,by simp⟩
    · intro e he
      rcases mem_append.mp he with he | he
      · exact hs.targets e he
      · rw [mem_singleton.mp he]
        exact .inr (.inl rfl)
    · rw [flush_append]
      simpa using hs.cursorLe
  | recheck q =>
    obtain hq | ⟨result,rfl⟩ := q.runs_or_returned
    · rw [next_recheck again hq, performBuffered_map] at hstep
      obtain ⟨⟨q',b''⟩,hcall,he⟩ := map_eq_some_iff.mp hstep
      cases he
      obtain ⟨hdis,hset⟩ := recheck_step hd hinv hs ha hguard hq hcall
      exact ⟨SubscriberInv.call .recheck (fun _ _ => Iff.rfl) hinv.headLe hs hcall hdis,hset,by simp⟩
    · have hstay : SubscriberInv i m b .waitLoadCursor h :=
        ⟨hs.targets,hs.cursorLe,trivial,fun _ => hs.disarms trivial⟩
      cases result with
      | none =>
        cases hstep
        exact ⟨hstay,fun _ => ha trivial,by simp⟩
      | some d =>
        cases again <;> cases hstep
        · exact ⟨hstay,fun _ => ha trivial,by simp⟩
        · exact ⟨hs.leave trivial id,fun h => h.elim,by simp⟩
  | waitLoadCursor =>
    cases hstep
    exact ⟨⟨hs.targets,hs.cursorLe,rfl,fun _ => hs.disarms trivial⟩,fun _ => ha trivial,by simp⟩
  | waitLoadWaitline cursor =>
    cases hstep
    beta_reduce
    split
    · exact ⟨hs.leave trivial id,fun h => h.elim,by simp⟩
    · rename_i hn
      simp only [not_or, not_not] at hn
      obtain ⟨hne,hcw⟩ := hn
      refine ⟨⟨hs.targets,hs.cursorLe,trivial,fun _ => hs.disarms trivial⟩,fun h => h.elim,?_⟩
      intro _
      have hc : cursor = flush b m (.cursor i) := hs.bounded
      have hnone : ∀ v, (.waitline i, v) ∉ b :=
        fun v hv => hne (hs.disarms trivial _ (flush_of_mem b m hv))
      have hmem : flush b m (.waitline i) = m (.waitline i) :=
        (hs.waitline trivial).resolve_left hne
      -- armed at its own cursor, so the last way of being answered is out
      rcases ha trivial with ha | ha | ⟨ha,-⟩ | ⟨ha,-⟩
      · exact ⟨hnone,.inr (.inr (.inr ⟨by omega,.inl ha⟩))⟩
      · exact ⟨hnone,.inr (.inr (.inr ⟨by omega,.inr ha⟩))⟩
      · exact ⟨hnone,.inr (.inl ha)⟩
      · exact absurd (hcw.symm.trans hc) ha
  | halted =>
    cases hstep
    exact ⟨hs,fun h => h.elim,hw⟩

end

/-- The handshake between the publisher and subscriber `i`. The stores of every
other subscriber stay on its own cells. -/
structure WakeInv (r : Ring) (i : ℕ) (s : Machine) : Prop where
  producer : ProducerInv r i s.mem s.producerBuffer s.producer.pc s.producer.published.length
  subscriber : SubscriberInv i s.mem (s.buffer i) (s.subscriber i) s.producer.published.length
  answered : (s.subscriber i).Settled →
    Answered i s.mem s.producerBuffer s.producer.pc (s.buffer i)
  woken : s.subscriber i = .halted →
    Woken i s.mem s.producer.pc (s.buffer i) (s.pending i)
  others : ∀ j, ∀ e ∈ s.buffer j,
    e.1 = .cursor j ∨ e.1 = .waitline j ∨ e.1 = .producerWaitline

theorem initial_wake (r : Ring) (i : ℕ) : WakeInv r i Machine.initial where
  producer := ⟨rfl,le_rfl,trivial,by simp [Machine.initial],by simp [Machine.initial],
    by simp [Machine.initial],by simp [Machine.initial]⟩
  subscriber := ⟨by simp [Machine.initial],le_rfl,trivial,by simp [Machine.initial]⟩
  answered h := h.elim
  woken h := by simp [Machine.initial] at h
  others := by simp [Machine.initial]

theorem waiter_target (r : Ring) (again : Bool) (i : ℕ) (u : Waiter) (l : Loc)
    (h : (u.next r again i).target = some l) :
    l = .cursor i ∨ l = .waitline i ∨ l = .producerWaitline := by
  cases u with
  | drain q =>
    obtain hq | ⟨result,rfl⟩ := q.runs_or_returned
    · rw [next_drain again hq, target_map] at h
      exact subscriber_target r i q l h
    · cases result <;> cases h
  | recheck q =>
    obtain hq | ⟨result,rfl⟩ := q.runs_or_returned
    · rw [next_recheck again hq, target_map] at h
      exact subscriber_target r i q l h
    · cases result <;> cases h
  | armStore head =>
    simp only [Waiter.next, Action.target, some.injEq] at h
    exact .inr (.inl h.symm)
  | _ => cases h

section
variable {r : Ring} {again : Bool} {i : ℕ} {s : Machine} {j : ℕ} {e : Loc × ℕ} {t : Machine}

theorem WakeInv.producer_step (hd : s.producer.published.length < topicWaitlineDisarmed)
    (hinv : WakeInv r i s) {pb : List (Loc × ℕ)} {p : Producer} {sig : Option Core}
    (hle : s.producer.published.length ≤ p.published.length) (hi : i < r.subscribers)
    (hmove : Move r i s.mem s.producerBuffer s.producer.pc s.producer.published.length
      pb p.pc p.published.length sig) :
    WakeInv r i {s with producer := p, producerBuffer := pb, pending := raise s.pending sig} where
  producer := hinv.producer.move hi hmove
  subscriber := hinv.subscriber.mono hle
  answered hset := (hinv.answered hset).move hd hinv.producer hinv.subscriber hset.past hmove
  woken hh := by
    have hw := (hinv.woken hh).move hd hinv.producer hinv.subscriber hmove
    have hp : raise s.pending sig i = (s.pending i || sig = some (.subscriber i)) := by
      cases sig with
      | none => simp [raise]
      | some c =>
        cases c with
        | producer => simp [raise]
        | subscriber j =>
          by_cases hj : i = j
          · simp [raise, hj]
          · simp [raise, update_of_ne hj, Ne.symm hj]
    rw [← hp] at hw
    exact hw
  others := hinv.others

variable {b : List (Loc × ℕ)}

theorem WakeInv.others_update (hinv : WakeInv r i s)
    (hb : ∀ e ∈ b, e.1 = .cursor j ∨ e.1 = .waitline j ∨ e.1 = .producerWaitline) (k : ℕ) :
    ∀ e ∈ update s.buffer j b k,
      e.1 = .cursor k ∨ e.1 = .waitline k ∨ e.1 = .producerWaitline := by
  by_cases hk : k = j
  · subst hk
    rwa [update_self]
  · rw [update_of_ne hk]
    exact hinv.others k

section
variable (hd : s.producer.published.length < topicWaitlineDisarmed)
include hd

theorem WakeInv.subscriber_step (hinv : WakeInv r i s) {u : Waiter}
    (hguard : (s.subscriber j).rechecksHead → s.buffer j = [])
    (hstep : ((s.subscriber j).next r again j).performBuffered x s.mem (s.buffer j) = some (u, b)) :
    WakeInv r i {s with
      subscriber := update s.subscriber j u, buffer := update s.buffer j b} := by
  have hothers := hinv.others_update (j := j) (b := b) (by
    intro e he
    rcases performBuffered_buffer x s.mem _ b _ u hstep with rfl | ⟨l,v,hl,rfl⟩
    · exact hinv.others j e he
    · rcases mem_append.mp he with he | he
      · exact hinv.others j e he
      · rw [mem_singleton.mp he]
        exact waiter_target r again j _ l hl)
  by_cases hj : i = j
  · subst hj
    obtain ⟨hs,ha,hw⟩ := waiter_step hd hinv.producer hinv.subscriber hinv.answered hinv.woken
      hguard hstep
    exact ⟨hinv.producer,by simpa using hs,by simpa using ha,by simpa using hw,hothers⟩
  · refine ⟨hinv.producer,?_,?_,?_,hothers⟩
    · simpa only [update_of_ne hj] using hinv.subscriber
    · simpa only [update_of_ne hj] using hinv.answered
    · simpa only [update_of_ne hj] using hinv.woken

theorem WakeInv.drain_producer (hinv : WakeInv r i s) (hb : s.producerBuffer = e::b) :
    WakeInv r i {s with mem := update s.mem e.1 e.2, producerBuffer := b} := by
  have hp := hinv.producer
  rw [hb] at hp
  refine ⟨hp.drain,?_,?_,?_,hinv.others⟩
  · apply hinv.subscriber.congr
    exact update_of_ne (Ne.symm (hp.noCursor e mem_cons_self i)) _ _
  · intro hset
    have ha := hinv.answered hset
    rw [hb] at ha
    exact ha.drain hd hp hinv.subscriber hset.past
  · intro hh
    exact (hinv.woken hh).drain hp

end

theorem WakeInv.drain_subscriber (hinv : WakeInv r i s) (hb : s.buffer j = e::b) :
    WakeInv r i {s with
      mem := update s.mem e.1 e.2, buffer := update s.buffer j b} := by
  have he := hinv.others j e (hb ▸ mem_cons_self)
  have hhead : update s.mem e.1 e.2 .head = s.mem .head := by
    rcases he with h | h | h <;> simp [h]
  have hothers := hinv.others_update fun f hf => hinv.others j f (hb ▸ mem_cons_of_mem e hf)
  by_cases hj : i = j
  · subst hj
    have hs := hinv.subscriber
    have ha := hinv.answered
    have hw := hinv.woken
    rw [hb] at hs ha hw
    refine ⟨hinv.producer.congr hhead,?_,?_,?_,hothers⟩ <;> simp only [update_self]
    · exact hs.drain
    · exact fun hset => (ha hset).ownDrain hs
    · exact fun hh => (hw hh).ownDrain hs
  · have hc : update s.mem e.1 e.2 (.cursor i) = s.mem (.cursor i) := by
      rcases he with h | h | h <;> simp [h, hj]
    have hw : update s.mem e.1 e.2 (.waitline i) = s.mem (.waitline i) := by
      rcases he with h | h | h <;> simp [h, hj]
    refine ⟨hinv.producer.congr hhead,?_,?_,?_,hothers⟩ <;> simp only [update_of_ne hj]
    · exact hinv.subscriber.congr hc
    · exact fun hset => (hinv.answered hset).congr hhead hc hw
    · exact fun hh => (hinv.woken hh).congr hhead hc hw

theorem WakeInv.interrupt (hinv : WakeInv r i s) :
    WakeInv r i {s with
      pending := update s.pending j false
      subscriber := update s.subscriber j
        (if s.subscriber j = .halted then .drain .loadCursor else s.subscriber j)} := by
  by_cases hj : i = j
  · subst hj
    by_cases hh : s.subscriber i = .halted
    · simp only [hh, if_true]
      refine ⟨hinv.producer,?_,?_,?_,hinv.others⟩
      · simp only [update_self]
        exact hinv.subscriber.leave trivial id
      · simp only [update_self]
        exact fun h => h.elim
      · simp
    · simp only [hh, if_false, update_eq_self]
      exact ⟨hinv.producer,hinv.subscriber,hinv.answered,fun h => absurd h hh,hinv.others⟩
  · refine ⟨hinv.producer,?_,?_,?_,hinv.others⟩
    · simpa only [update_of_ne hj] using hinv.subscriber
    · simpa only [update_of_ne hj] using hinv.answered
    · simpa only [update_of_ne hj] using hinv.woken

theorem machine_published_mono {s : Machine} {e : Tso} (h : s.step r again e = some t) :
    s.producer.published.length ≤ t.producer.published.length := by
  cases e with
  | publish v | interrupt i =>
    simp only [Machine.step, ite_none_right_eq_some, some.injEq] at h
    rw [← h.2]
  | producer x =>
    simp only [Machine.step, Producer.next, performBuffered_map] at h
    cases ha : (s.producer.pc.next r).performBuffered x s.mem s.producerBuffer with
    | none => simp [ha] at h
    | some p =>
      simp only [ha, map_some, some.injEq] at h
      rw [← h]
      simp
  | subscriber i x =>
    simp only [Machine.step, ite_none_right_eq_some] at h
    obtain ⟨-,h⟩ := h
    split at h <;> cases h
    rfl
  | drainProducer | drainSubscriber i =>
    simp only [Machine.step] at h
    split at h <;> cases h
    rfl

theorem WakeInv.step {e : Tso} (hi : i < r.subscribers) (hw : r.wakes i)
    (hinv : WakeInv r i s) (hord : Ordered r s e) (hst : s.step r again e = some t)
    (hd : t.producer.published.length < topicWaitlineDisarmed) : WakeInv r i t := by
  have hd' := lt_of_le_of_lt (machine_published_mono hst) hd
  cases e with
  | publish v =>
    simp only [Machine.step, ite_none_right_eq_some, some.injEq] at hst
    obtain ⟨⟨hidle,-⟩,rfl⟩ := hst
    have hmove : Move r i s.mem s.producerBuffer s.producer.pc s.producer.published.length
        s.producerBuffer (.loadHead v) s.producer.published.length none := by
      rw [hidle]
      exact .prepare trivial trivial (.inl rfl) trivial (by simp)
    exact hinv.producer_step (p := ⟨.loadHead v,s.producer.published⟩) hd' le_rfl hi hmove
  | producer x =>
    simp only [Machine.step, Producer.next, performBuffered_map, signalled_map] at hst
    cases ha : (s.producer.pc.next r).performBuffered x s.mem s.producerBuffer with
    | none => simp [ha] at hst
    | some p =>
      simp only [ha, map_some, some.injEq] at hst
      subst hst
      simp only [length_append] at hd
      have hmove := producer_move hi hw hinv.producer hord.1 hord.2
        (hd.trans (by decide)) ha
      refine hinv.producer_step (p := ⟨p.1,s.producer.published++s.producer.pc.committed⟩) hd'
        ?_ hi ?_
      · simp
      · simpa using hmove
  | subscriber j x =>
    simp only [Machine.step, ite_none_right_eq_some] at hst
    obtain ⟨-,hst⟩ := hst
    split at hst
    · rename_i u b ha
      cases hst
      exact hinv.subscriber_step hd' hord ha
    · cases hst
  | drainProducer =>
    simp only [Machine.step] at hst
    split at hst
    · rename_i e b hb
      cases hst
      exact hinv.drain_producer hd' hb
    · cases hst
  | drainSubscriber j =>
    simp only [Machine.step] at hst
    split at hst
    · rename_i e b hb
      cases hst
      exact hinv.drain_subscriber hb
    · cases hst
  | interrupt j =>
    simp only [Machine.step, ite_none_right_eq_some, some.injEq] at hst
    obtain ⟨-,rfl⟩ := hst
    exact hinv.interrupt

end

def TsoReachable (r : Ring) (again : Bool) : Machine → Prop :=
  Reachable (· = Machine.initial) (Steps (Machine.step r again))

def OrderedReachable (r : Ring) (again : Bool) : Machine → Prop :=
  Reachable (· = Machine.initial) (Steps (guarded (Ordered r) (Machine.step r again)))

theorem reachable_wake {r : Ring} {s : Machine} (h : OrderedReachable r again s)
    (hi : i < r.subscribers) (hw : r.wakes i)
    (hd : s.producer.published.length < topicWaitlineDisarmed) : WakeInv r i s := by
  have hinv : s.producer.published.length < topicWaitlineDisarmed → WakeInv r i s := by
    apply Reachable.invariant (P := fun s =>
      s.producer.published.length < topicWaitlineDisarmed → WakeInv r i s) _ _ h
    · rintro s rfl -
      exact initial_wake r i
    · rintro s t ih ⟨e,hst⟩ ht
      obtain ⟨hord,hst⟩ := guarded_eq_some.mp hst
      exact (ih (lt_of_le_of_lt (machine_published_mono hst) ht)).step hi hw hord hst ht
  exact hinv hd

theorem Publish.Before.still {pc : Publish} (h : pc.Before i) : pc.stillToWake i := by
  cases pc <;> simp only [Publish.Before] at h <;>
    simp only [Publish.stillToWake, decide_eq_true_eq] <;> omega

/-- No subscriber that is sent wake interrupts sleeps on a message when the two
sides keep to the order. -/
theorem no_lost_wakeup (r : Ring) (again : Bool) (s : Machine) (hs : OrderedReachable r again s)
    (hlt : s.producer.published.length < 2^64-1) (i : ℕ) (hi : i < r.subscribers)
    (hw : r.wakes i) : ¬ LostWakeup s i := by
  rintro ⟨hh,hmsg,-,hb,hpend,hstill⟩
  obtain ⟨-,hwoken⟩ := (reachable_wake hs hi hw hlt).woken hh
  rw [hb i, flush_nil] at hwoken
  rcases hwoken with h | h | h | ⟨-,h | h⟩
  · simp [hpend] at h
  · simp [h, Publish.stillToWake] at hstill
  · simp [h, Publish.stillToWake] at hstill
  · omega
  · simp [h.still] at hstill

def wakeRing : Ring where
  source := ⟨"jobs",.gapU64,2,8,8,["main"],["worker"]⟩
  layout := planTopicData ⟨"jobs",.gapU64,2,8,8,["main"],["worker"]⟩
  planned := rfl
  wakes _ := true
  wakesProducer := true
  keepsBase := false
  byHandle := false
  dataWords := []

/-- The worker sleeps, a message is published, and the interrupt is pending. -/
theorem no_lost_wakeup_jobs : ∃ s, OrderedReachable wakeRing true s ∧
    s.subscriber 0 = .halted ∧ s.mem (.cursor 0) < s.mem .head ∧ s.pending 0 ∧
    ¬ LostWakeup s 0 := by
  obtain ⟨s,hs,hl,hh,hm,hp⟩ := Reachable.of_run_property
    (guarded (Ordered wakeRing) (Machine.step wakeRing true)) Machine.initial
    (repeated [(5, .subscriber 0 0), (1, .drainSubscriber 0), (5, .subscriber 0 0),
      (1, .publish [7]), (4, .producer 0), (2, .drainProducer), (2, .producer 0),
      (1, .drainProducer), (2, .producer 0), (1, .drainProducer), (2, .producer 0)])
    (fun s => s.producer.published.length = 1 ∧ s.subscriber 0 = .halted ∧
      s.mem (.cursor 0) < s.mem .head ∧ s.pending 0)
    (by exact ⟨_,rfl,by decide,by decide,by decide,by decide⟩)
  exact ⟨s,hs,hh,hm,hp,no_lost_wakeup wakeRing true s hs (by rw [hl]; decide) 0 (by decide) rfl⟩

/-- Both loads pass both stores: the worker re-checks before the head store
reaches memory, the publisher looks at the waitline before the arming does. -/
theorem lost_wakeup_jobs : ∃ s, TsoReachable wakeRing true s ∧ LostWakeup s 0 := by
  apply Reachable.of_run_property (Machine.step wakeRing true) Machine.initial
    (repeated [(1, .publish [7]), (4, .producer 0), (2, .drainProducer), (2, .producer 0),
      (10, .subscriber 0 0), (2, .producer 0), (1, .drainProducer), (1, .drainSubscriber 0)])
  refine ⟨_,rfl,by decide,by decide,by decide,?_,by decide,by decide⟩
  intro j
  cases j with
  | zero => decide
  | succ j => rfl

end Wrela.TopicProtocol

import Mathlib.Logic.Function.Iterate
import Wrela.RoundRobin
import Wrela.Transition
import Mathlib.Data.List.TakeWhile

/-!
# The NVMe completion ring

The device writes completion entries into a ring and inverts the phase bit on
each lap; the host takes the entry at its head when the entry's phase is its
own. The host functions stand as in the driver; in the system a drain is cut
into its turns, so that the device can post between any two reads of the host.
A single consuming call does not move the head past an entry that reports a failure.
-/

set_option autoImplicit false

namespace Wrela.Nvme
open Transition List Option Nat

structure CompletionQueue where
  queueID : UInt16
  depth : UInt16
  head : UInt16
  phase : Bool
  deriving DecidableEq, Repr

structure CompletionEntry where
  commandID : UInt16
  phase : Bool
  ok : Bool
  deriving DecidableEq, Repr

structure CompletionInterrupt where
  queueID : UInt16
  completedCount : UInt32
  deriving DecidableEq, Repr

variable (q : CompletionQueue) (entries : List CompletionEntry)

namespace CompletionQueue

def advanceOne : CompletionQueue :=
  if q.head+1 = q.depth then {q with head := 0, phase := !q.phase}
  else {q with head := q.head+1}

def advance (count : UInt16) : CompletionQueue := advanceOne^[count.toNat] q

def Unusable : Prop :=
  q.depth = 0 ∨ q.depth ≤ q.head ∨ entries.length < q.depth.toNat

instance (q : CompletionQueue) (entries : List CompletionEntry) : Decidable (q.Unusable entries) :=
  inferInstanceAs (Decidable (_ ∨ _))

def ready : Option CompletionEntry :=
  entries[q.head.toNat]?.filter (·.phase = q.phase)

def drainLoop (entries : List CompletionEntry) :
    ℕ → CompletionQueue → UInt16 → CompletionQueue × UInt16
  | 0, q, completed => (q, completed)
  | fuel+1, q, completed =>
    if completed < q.depth ∧ (q.ready entries).isSome then
      drainLoop entries fuel (q.advance 1) (completed+1)
    else (q, completed)

def drainCompletions : CompletionQueue × CompletionInterrupt × Option (UInt16 × UInt16) :=
  if q.Unusable entries then (q, ⟨q.queueID,0⟩, none)
  else
    let (q', completed) := drainLoop entries (q.depth.toNat+1) q 0
    (q', ⟨q.queueID,completed.toUInt32⟩,
      if 0 < completed then some (q.queueID, q'.head) else none)

def consumeCompletion (commandID : UInt16) : CompletionQueue × Bool × Option (UInt16 × UInt16) :=
  if q.Unusable entries then (q, false, none)
  else
    match q.ready entries with
    | some entry =>
      if entry.commandID ≠ commandID ∨ !entry.ok then (q, false, none)
      else (q.advance 1, true, some (q.queueID, (q.advance 1).head))
    | none => (q, false, none)

end CompletionQueue

structure Report where
  commandID : UInt16
  ok : Bool
  deriving DecidableEq, Repr

/-- The queue, the ring in memory, the device's end of it, and a drain under
way with the number of entries it has taken; beside them what was posted, what
the host took and the doorbells it rang. -/
structure Ring where
  queue : CompletionQueue
  entries : List CompletionEntry
  tail : UInt16
  devicePhase : Bool
  draining : Option UInt16
  posted : List Report
  consumed : List Report
  doorbells : List (UInt16 × UInt16)
  deriving DecidableEq, Repr

inductive RingEvent where
  | post (report : Report)
  | drain
  | drainTurn
  | consume (commandID : UInt16)
  deriving DecidableEq, Repr

variable (r : Ring)

namespace Ring

def post (report : Report) : Option Ring :=
  if r.posted.length < r.consumed.length+r.queue.depth.toNat then
    some {r with
      entries := r.entries.set r.tail.toNat ⟨report.commandID,r.devicePhase,report.ok⟩
      tail := if r.tail+1 = r.queue.depth then 0 else r.tail+1
      devicePhase := if r.tail+1 = r.queue.depth then !r.devicePhase else r.devicePhase
      posted := r.posted++[report]}
  else none

def take (entry : CompletionEntry) : Ring :=
  {r with queue := r.queue.advance 1, consumed := r.consumed++[⟨entry.commandID,entry.ok⟩]}

def drain : Option Ring :=
  match r.draining with
  | some _ => none
  | none => some (if r.queue.Unusable r.entries then r else {r with draining := some 0})

def finishDrain (completed : UInt16) : Ring :=
  {r with
    draining := none
    doorbells := if 0 < completed then r.doorbells++[(r.queue.queueID, r.queue.head)]
      else r.doorbells}

def drainTurn : Option Ring :=
  match r.draining with
  | none => none
  | some completed =>
    if completed < r.queue.depth then
      match r.queue.ready r.entries with
      | some entry => some {r.take entry with draining := some (completed+1)}
      | none => some (r.finishDrain completed)
    else some (r.finishDrain completed)

def consume (commandID : UInt16) : Option Ring :=
  match r.draining, r.queue.consumeCompletion r.entries commandID, r.queue.ready r.entries with
  | none, (queue, true, bell), some entry =>
    some {r with
      queue := queue
      consumed := r.consumed++[⟨entry.commandID,entry.ok⟩]
      doorbells := r.doorbells++bell.toList}
  | none, (_, false, _), _ => some r
  | _, _, _ => none

def step : RingEvent → Option Ring
  | .post report => r.post report
  | .drain => r.drain
  | .drainTurn => r.drainTurn
  | .consume commandID => r.consume commandID

def initial (queueID depth : UInt16) (phase : Bool) (memory : List CompletionEntry) : Ring :=
  ⟨⟨queueID,depth,0,phase⟩,memory,0,phase,none,[],[],[]⟩

end Ring

/-- The phase of the `i`-th completion: inverted on each lap. -/
def lapPhase (phase : Bool) (depth i : ℕ) : Bool := phase ^^ decide (i/depth%2 = 1)

section
variable {d i j : ℕ} (phase : Bool)

theorem succ_lap (hd : 0 < d) :
    (i%d+1 = d ∧ (i+1)/d = i/d+1 ∧ (i+1)%d = 0) ∨
      (i%d+1 < d ∧ (i+1)/d = i/d ∧ (i+1)%d = i%d+1) := by
  have hi := div_add_mod i d
  have hlt := mod_lt i hd
  rcases Nat.lt_or_ge (i%d+1) d with h | h
  · refine .inr ⟨h,(Nat.div_mod_unique hd).mpr ⟨?_,h⟩⟩
    omega
  · refine .inl ⟨by omega,(Nat.div_mod_unique hd).mpr ⟨?_,hd⟩⟩
    rw [Nat.mul_add, Nat.mul_one]
    omega

theorem lapPhase_succ_same (h : (i+1)/d = i/d) : lapPhase phase d (i+1) = lapPhase phase d i := by
  rw [lapPhase, lapPhase, h]

theorem lapPhase_succ_next (h : (i+1)/d = i/d+1) :
    lapPhase phase d (i+1) = !lapPhase phase d i := by
  rw [lapPhase, lapPhase, h, ← Bool.xor_not]
  congr 1
  rw [← decide_not, decide_eq_decide]
  omega

theorem lapPhase_add_depth (hd : 0 < d) : lapPhase phase d (i+d) = !lapPhase phase d i := by
  rw [lapPhase, lapPhase, add_div_right i hd, ← Bool.xor_not]
  congr 1
  rw [← decide_not, decide_eq_decide]
  omega

theorem lapPhase_first (h : i < d) : lapPhase phase d i = phase := by
  rw [lapPhase, div_eq_of_lt h]
  simp

end

theorem advance_depth : (q.advance 1).depth = q.depth := by
  show q.advanceOne.depth = q.depth
  rw [CompletionQueue.advanceOne]
  split_ifs <;> rfl

theorem advance_queueID : (q.advance 1).queueID = q.queueID := by
  show q.advanceOne.queueID = q.queueID
  rw [CompletionQueue.advanceOne]
  split_ifs <;> rfl

theorem run_finishDrain (completed : UInt16) (hd : r.draining = some completed)
    (h : ¬ (completed < r.queue.depth ∧ (r.queue.ready r.entries).isSome)) :
    run Ring.step r [.drainTurn] = some (r.finishDrain completed) := by
  have hturn : r.drainTurn = some (r.finishDrain completed) := by
    simp only [Ring.drainTurn, hd]
    split_ifs with hc
    · cases hr : r.queue.ready r.entries with
      | none => rfl
      | some entry => exact absurd ⟨hc,by rw [hr]; rfl⟩ h
    · rfl
  simp [run, Ring.step, hturn]

/-- The turns of a drain that the device does not interrupt are the driver's loop. -/
theorem run_drainTurns (fuel : ℕ) (r : Ring) (completed : UInt16)
    (hd : r.draining = some completed) (hf : r.queue.depth.toNat < completed.toNat+fuel) :
    ∃ n r', run Ring.step r (List.replicate n .drainTurn) = some r' ∧ r'.draining = none ∧
      r'.queue = (r.queue.drainLoop r.entries fuel completed).1 ∧ r'.entries = r.entries ∧
      r'.consumed.length+completed.toNat =
        r.consumed.length+(r.queue.drainLoop r.entries fuel completed).2.toNat ∧
      r'.doorbells = if 0 < (r.queue.drainLoop r.entries fuel completed).2 then
          r.doorbells++[(r.queue.queueID, (r.queue.drainLoop r.entries fuel completed).1.head)]
        else r.doorbells := by
  induction fuel generalizing r completed with
  | zero =>
    refine ⟨1,_,run_finishDrain r completed hd ?_,rfl,rfl,rfl,rfl,rfl⟩
    rw [UInt16.lt_iff_toNat_lt]
    omega
  | succ fuel ih =>
    rw [CompletionQueue.drainLoop]
    by_cases hc : completed < r.queue.depth ∧ (r.queue.ready r.entries).isSome
    · rw [if_pos hc]
      obtain ⟨hlt,hsome⟩ := hc
      obtain ⟨entry,hr⟩ := isSome_iff_exists.mp hsome
      have hturn : r.drainTurn = some {r.take entry with draining := some (completed+1)} := by
        simp only [Ring.drainTurn, hd, if_pos hlt, hr]
      have hnext : (completed+1).toNat = completed.toNat+1 := by
        have := r.queue.depth.toNat_lt
        rw [UInt16.lt_iff_toNat_lt] at hlt
        rw [UInt16.toNat_add, UInt16.toNat_one]
        omega
      obtain ⟨n,r',hrun,hnone,hq,he,hcons,hbell⟩ :=
        ih {r.take entry with draining := some (completed+1)} (completed+1) rfl (by
          simp only [Ring.take, advance_depth, hnext]
          omega)
      refine ⟨n+1,r',?_,hnone,hq,he,?_,?_⟩
      · simpa [replicate_succ, run, Ring.step, hturn] using hrun
      · simp only [Ring.take, length_append, length_singleton, hnext] at hcons
        omega
      · rw [hbell]
        simp [Ring.take, advance_queueID]
    · rw [if_neg hc]
      exact ⟨1,_,run_finishDrain r completed hd hc,rfl,rfl,rfl,rfl,rfl⟩

/-- A drain that nothing interrupts is the loop of the driver. -/
theorem uninterrupted_drain (hd : r.draining = none) :
    ∃ n r', run Ring.step r (.drain::List.replicate n .drainTurn) = some r' ∧
      r'.draining = none ∧ r'.queue = (r.queue.drainCompletions r.entries).1 ∧
      r'.consumed.length = r.consumed.length+
        (r.queue.drainCompletions r.entries).2.1.completedCount.toNat ∧
      r'.doorbells = r.doorbells++(r.queue.drainCompletions r.entries).2.2.toList := by
  by_cases hu : r.queue.Unusable r.entries
  · refine ⟨0,r,?_,hd,?_⟩
    · simp [run, Ring.step, Ring.drain, hd, hu]
    · simp [CompletionQueue.drainCompletions, hu]
  · obtain ⟨n,r',hrun,hnone,hq,-,hcons,hbell⟩ :=
      run_drainTurns (r.queue.depth.toNat+1) {r with draining := some 0} 0 rfl (by simp)
    refine ⟨n,r',?_,hnone,?_⟩
    · simpa [run, Ring.step, Ring.drain, hd, hu] using hrun
    · simp only [CompletionQueue.drainCompletions, if_neg hu, UInt16.toNat_toUInt32]
      refine ⟨hq,by simpa using hcons,?_⟩
      rw [hbell]
      split_ifs <;> simp

/-- The first entry of two is ready. -/
def oneReady : Ring :=
  ⟨⟨1,2,0,true⟩,[⟨7,true,true⟩, ⟨0,false,false⟩],1,true,none,[⟨7,true⟩],[],[]⟩

theorem uninterrupted_drain_one :
    ∃ n r', run Ring.step oneReady (.drain::List.replicate n .drainTurn) = some r' ∧
      r'.queue.head = 1 ∧ r'.consumed.length = 1 ∧ r'.doorbells = [(1,1)] := by
  obtain ⟨n,r',hrun,-,hqueue,hcons,hbells⟩ := uninterrupted_drain oneReady rfl
  exact ⟨n,r',hrun,congrArg _ hqueue,hcons,hbells⟩

/-- How head, tail and entries follow from what was posted and consumed: an
entry holds the last completion posted there, or memory of the opposite phase. -/
structure RingInv (depth : UInt16) (phase : Bool) (r : Ring) : Prop where
  depth_eq : r.queue.depth = depth
  size : r.entries.length = depth.toNat
  taken : r.consumed = r.posted.take r.consumed.length
  le : r.consumed.length ≤ r.posted.length
  room : r.posted.length ≤ r.consumed.length+depth.toNat
  head : r.queue.head.toNat = r.consumed.length%depth.toNat
  phase_eq : r.queue.phase = lapPhase phase depth.toNat r.consumed.length
  tail : r.tail.toNat = r.posted.length%depth.toNat
  devicePhase : r.devicePhase = lapPhase phase depth.toNat r.posted.length
  current : ∀ i report, r.posted[i]? = some report → r.posted.length ≤ i+depth.toNat →
    r.entries[i%depth.toNat]? = some ⟨report.commandID,lapPhase phase depth.toNat i,report.ok⟩
  fresh : ∀ j entry, r.posted.length ≤ j → j < depth.toNat → r.entries[j]? = some entry →
    entry.phase = !phase

section
variable {depth head : UInt16} {i : ℕ}

theorem next_index (hd : 0 < depth.toNat) (h : head.toNat = i%depth.toNat) :
    (head+1 = depth ∧ (i+1)/depth.toNat = i/depth.toNat+1 ∧ (i+1)%depth.toNat = 0) ∨
      (head+1 ≠ depth ∧ (i+1)/depth.toNat = i/depth.toNat ∧
        (head+1).toNat = (i+1)%depth.toNat) := by
  have hlt := mod_lt i hd
  have hdepth := depth.toNat_lt
  have hnext : (head+1).toNat = i%depth.toNat+1 := by
    rw [UInt16.toNat_add, UInt16.toNat_one, h]
    omega
  rw [Ne, ← UInt16.toNat_inj, hnext]
  rcases succ_lap (i := i) hd with ⟨he,hq,hr⟩ | ⟨hl,hq,hr⟩
  · exact .inl ⟨he,hq,hr⟩
  · exact .inr ⟨by omega,hq,hr.symm⟩

end

namespace RingInv
variable {depth : UInt16} {phase : Bool} {r : Ring} {r' : Ring}

section
variable (h : RingInv depth phase r) {entry : CompletionEntry}
include h

theorem depth_pos {x : CompletionEntry} {k : ℕ}
    (hx : r.entries[k]? = some x) : 0 < depth.toNat := by
  have := (List.getElem?_eq_some_iff.mp hx).1
  have := h.size
  omega

theorem ready_posted (hr : r.queue.ready r.entries = some entry) :
    r.posted[r.consumed.length]? = some ⟨entry.commandID,entry.ok⟩ := by
  obtain ⟨hget,hphase⟩ := filter_eq_some_iff.mp hr
  have hd := h.depth_pos hget
  rw [h.head] at hget
  rw [h.phase_eq] at hphase
  rcases Nat.lt_or_ge r.consumed.length r.posted.length with hlt | hge
  · have hp := getElem?_eq_getElem hlt
    have hc := h.current _ _ hp h.room
    rw [hc] at hget
    rw [hp, ← some.inj hget]
  · -- nothing is pending: the entry is a lap old, or was never written
    have he : r.consumed.length = r.posted.length := Nat.le_antisymm h.le hge
    rw [he] at hget hphase
    rcases Nat.lt_or_ge r.posted.length depth.toNat with hfirst | hlap
    · rw [mod_eq_of_lt hfirst] at hget
      rw [h.fresh _ _ (Nat.le_refl _) hfirst hget, lapPhase_first phase hfirst] at hphase
      cases phase <;> cases hphase
    · obtain ⟨i,hi⟩ := Nat.exists_eq_add_of_le' hlap
      have hlt : i < r.posted.length := by omega
      have hc := h.current i _ (getElem?_eq_getElem hlt) (by omega)
      rw [hi, add_mod_right, hc] at hget
      rw [hi, lapPhase_add_depth phase hd, ← some.inj hget] at hphase
      cases hb : lapPhase phase depth.toNat i <;> simp [hb] at hphase

theorem take (hr : r.queue.ready r.entries = some entry) (draining : Option UInt16)
    (doorbells : List (UInt16 × UInt16)) :
    RingInv depth phase {r.take entry with draining := draining, doorbells := doorbells} := by
  have hp := h.ready_posted hr
  have hd := h.depth_pos (filter_eq_some_iff.mp hr).1
  have hlt : r.consumed.length < r.posted.length := (List.getElem?_eq_some_iff.mp hp).1
  have hroom := h.room
  have hadv : r.queue.advance 1 = r.queue.advanceOne := rfl
  have hq : (r.queue.advance 1).depth = depth ∧
      (r.queue.advance 1).head.toNat = (r.consumed.length+1)%depth.toNat ∧
      (r.queue.advance 1).phase = lapPhase phase depth.toNat (r.consumed.length+1) := by
    rw [hadv, CompletionQueue.advanceOne, h.depth_eq]
    rcases next_index hd h.head with ⟨he,hdiv,hmod⟩ | ⟨hne,hdiv,hmod⟩
    · rw [if_pos he, lapPhase_succ_next phase hdiv, hmod, h.phase_eq]
      exact ⟨rfl,rfl,rfl⟩
    · rw [if_neg hne, lapPhase_succ_same phase hdiv]
      exact ⟨rfl,hmod,h.phase_eq⟩
  constructor
  case depth_eq => exact hq.1
  case head => simpa [Ring.take] using hq.2.1
  case phase_eq => simpa [Ring.take] using hq.2.2
  case taken =>
    have := h.taken
    simp only [Ring.take, length_append, length_singleton, take_add_one, hp, toList_some, ← this]
  case le => simpa [Ring.take, succ_le_iff] using hlt
  case room =>
    simp only [Ring.take, length_append, length_singleton]
    omega
  case size => exact h.size
  case tail => exact h.tail
  case devicePhase => exact h.devicePhase
  case current => exact h.current
  case fresh => exact h.fresh

theorem mark (draining : Option UInt16) (doorbells : List (UInt16 × UInt16)) :
    RingInv depth phase {r with draining := draining, doorbells := doorbells} :=
  ⟨h.depth_eq,h.size,h.taken,h.le,h.room,h.head,h.phase_eq,h.tail,h.devicePhase,h.current,h.fresh⟩

theorem post (report : Report) (hp : r.post report = some r') : RingInv depth phase r' := by
  rw [Ring.post, h.depth_eq, ite_none_right_eq_some] at hp
  obtain ⟨hroom,hp⟩ := hp
  obtain rfl := some.inj hp
  have hd : 0 < depth.toNat := by
    have := h.le
    omega
  have htail : r.posted.length%depth.toNat < r.entries.length := by
    rw [h.size]
    exact mod_lt _ hd
  constructor
  case depth_eq => exact h.depth_eq
  case size => simpa using h.size
  case taken =>
    have := h.taken
    simpa [take_append_of_le_length h.le] using this
  case le => simpa using le_succ_of_le h.le
  case room => simpa [succ_le_iff] using hroom
  case head => exact h.head
  case phase_eq => exact h.phase_eq
  case tail =>
    simp only [length_append, length_singleton]
    rcases next_index hd h.tail with ⟨he,-,hmod⟩ | ⟨hne,-,hmod⟩
    · rw [if_pos he, hmod]
      rfl
    · rw [if_neg hne, hmod]
  case devicePhase =>
    simp only [length_append, length_singleton]
    rcases next_index hd h.tail with ⟨he,hdiv,-⟩ | ⟨hne,hdiv,-⟩
    · rw [if_pos he, lapPhase_succ_next phase hdiv, h.devicePhase]
    · rw [if_neg hne, lapPhase_succ_same phase hdiv, h.devicePhase]
  case current =>
    intro i rep hi hlen
    simp only [length_append, length_singleton] at hlen
    simp only [h.tail]
    rcases Nat.lt_or_ge i r.posted.length with hlt | hge
    · rw [getElem?_append_left hlt] at hi
      rw [getElem?_set_ne (RingIndex.slot_ne hlt (by omega)).symm]
      exact h.current i rep hi (by omega)
    · rw [getElem?_append_right hge] at hi
      have hi0 : i-r.posted.length = 0 := by
        have := (List.getElem?_eq_some_iff.mp hi).1
        simpa using this
      have he : i = r.posted.length := by omega
      rw [hi0] at hi
      obtain rfl := some.inj hi
      rw [he, getElem?_set_self htail, h.devicePhase]
  case fresh =>
    intro j entry hj hjd hget
    simp only [length_append, length_singleton] at hj
    have hne : r.tail.toNat ≠ j := by
      rw [h.tail, mod_eq_of_lt (by omega)]
      omega
    rw [getElem?_set_ne hne] at hget
    exact h.fresh j entry (by omega) hjd hget

theorem consume (commandID : UInt16)
    (hc : r.consume commandID = some r') : RingInv depth phase r' := by
  rw [Ring.consume] at hc
  split at hc
  · next queue bell entry hdr hres hready =>
    obtain rfl := some.inj hc
    have hqueue : queue = r.queue.advance 1 := by
      rw [CompletionQueue.consumeCompletion, hready] at hres
      simp only at hres
      split_ifs at hres
      · cases congrArg (·.2.1) hres
      · cases congrArg (·.2.1) hres
      · exact (congrArg (·.1) hres).symm
    rw [hqueue]
    exact h.take hready r.draining _
  · exact some.inj hc ▸ h
  · cases hc

theorem step (e : RingEvent) (hs : r.step e = some r') : RingInv depth phase r' := by
  cases e with
  | post report => exact h.post report hs
  | consume commandID => exact h.consume commandID hs
  | drain =>
    simp only [Ring.step, Ring.drain] at hs
    split at hs
    · cases hs
    · obtain rfl := some.inj hs
      split_ifs
      · exact h
      · exact h.mark _ _
  | drainTurn =>
    simp only [Ring.step, Ring.drainTurn] at hs
    split at hs
    · cases hs
    · split_ifs at hs
      · split at hs
        · next entry hready =>
          obtain rfl := some.inj hs
          exact h.take hready _ _
        · obtain rfl := some.inj hs
          exact h.mark _ _
      · obtain rfl := some.inj hs
        exact h.mark _ _

end

theorem initial (queueID depth : UInt16) (phase : Bool) {memory : List CompletionEntry}
    (hsize : memory.length = depth.toNat) (hphase : ∀ entry ∈ memory, entry.phase = !phase) :
    RingInv depth phase (Ring.initial queueID depth phase memory) where
  depth_eq := rfl
  size := hsize
  taken := rfl
  le := Nat.le_refl _
  room := Nat.zero_le _
  head := (zero_mod _).symm
  phase_eq := by simp [Ring.initial, lapPhase]
  tail := (zero_mod _).symm
  devicePhase := by simp [Ring.initial, lapPhase]
  current := by simp [Ring.initial]
  fresh := fun _ entry _ _ hget => hphase entry (mem_of_getElem? hget)

theorem run {es : List RingEvent} (h : RingInv depth phase r)
    (hrun : Transition.run Ring.step r es = some r') : RingInv depth phase r' := by
  induction es generalizing r with
  | nil => exact some.inj hrun ▸ h
  | cons e es ih =>
    obtain ⟨u,hu,hrest⟩ := bind_eq_some_iff.mp hrun
    exact ih (h.step e hu) hrest

end RingInv

/-- In every run the host has consumed a beginning of what was posted, in order,
and its head and phase are those of the number of completions consumed. -/
theorem completions_in_order (queueID depth : UInt16) (phase : Bool)
    (memory : List CompletionEntry) (hsize : memory.length = depth.toNat)
    (hphase : ∀ entry ∈ memory, entry.phase = !phase) (es : List RingEvent) (r : Ring)
    (hrun : run Ring.step (Ring.initial queueID depth phase memory) es = some r) :
    r.consumed <+: r.posted ∧ r.queue.head.toNat = r.consumed.length%depth.toNat ∧
      r.queue.phase = (phase ^^ decide (r.consumed.length/depth.toNat%2 = 1)) := by
  have h := (RingInv.initial queueID depth phase hsize hphase).run hrun
  exact ⟨h.taken ▸ take_prefix _ _,h.head,h.phase_eq⟩

def secondLap : Ring :=
  ⟨⟨1,2,1,false⟩,[⟨7,false,true⟩, ⟨6,true,false⟩],1,false,none,
    [⟨5,true⟩, ⟨6,false⟩, ⟨7,true⟩],[⟨5,true⟩, ⟨6,false⟩, ⟨7,true⟩],[(1, 0), (1, 1)]⟩

theorem completions_in_order_second_lap :
    run Ring.step (Ring.initial 1 2 true [⟨0,false,false⟩, ⟨0,false,false⟩])
        [.post ⟨5,true⟩, .post ⟨6,false⟩, .drain, .drainTurn, .post ⟨7,true⟩, .drainTurn,
          .drainTurn, .consume 7] = some secondLap ∧
      secondLap.consumed <+: secondLap.posted ∧ secondLap.queue.head.toNat = 3%2 ∧
      secondLap.queue.phase = (true ^^ decide (3/2%2 = 1)) :=
  ⟨by decide,completions_in_order 1 2 true [⟨0,false,false⟩, ⟨0,false,false⟩] rfl
    (by decide) [.post ⟨5,true⟩, .post ⟨6,false⟩, .drain, .drainTurn, .post ⟨7,true⟩,
      .drainTurn, .drainTurn, .consume 7] secondLap (by decide)⟩

/-! ### Consuming completions one by one, in posting order -/

/-- The device posts, and the call number `called` names the completion of that
number, which has been posted. -/
def CallsInOrder : List Report → ℕ → List RingEvent → Prop
  | _, _, [] => True
  | posted, called, .post report::es => CallsInOrder (posted++[report]) called es
  | posted, called, .consume commandID::es =>
    posted[called]?.map Report.commandID = some commandID ∧ CallsInOrder posted (called+1) es
  | _, _, _::_ => False

def callCount (es : List RingEvent) : ℕ :=
  es.countP fun | .consume _ => true | _ => false

theorem getElem_takeWhile_length {α : Type*} {p : α → Bool} {l : List α} {x : α}
    (h : l[(l.takeWhile p).length]? = some x) : p x = false := by
  induction l with
  | nil => simp at h
  | cons a l ih =>
    by_cases ha : p a
    · rw [takeWhile_cons_of_pos ha, length_cons, getElem?_cons_succ] at h
      exact ih h
    · rw [takeWhile_cons_of_neg ha] at h
      simp only [length_nil, getElem?_cons_zero, some.injEq] at h
      simpa [h] using ha

variable {report : Report}

namespace RingInv
variable {depth : UInt16} {phase : Bool} {r : Ring}

section
variable (h : RingInv depth phase r)
include h

theorem posted_ready (hp : r.posted[r.consumed.length]? = some report) :
    r.queue.ready r.entries = some ⟨report.commandID,r.queue.phase,report.ok⟩ := by
  rw [CompletionQueue.ready, h.head, h.current _ _ hp h.room, h.phase_eq]
  simp

theorem usable (hlt : r.consumed.length < r.posted.length) : ¬ r.queue.Unusable r.entries := by
  have hd : 0 < depth.toNat := by
    have := h.room
    omega
  rw [CompletionQueue.Unusable, h.depth_eq, ← UInt16.toNat_inj, UInt16.le_iff_toNat_le, h.head,
    h.size]
  have := Nat.mod_lt r.consumed.length hd
  simp only [UInt16.toNat_zero]
  omega

theorem consume_eq (hidle : r.draining = none)
    (hp : r.posted[r.consumed.length]? = some report) (commandID : UInt16) :
    ∃ r', r.consume commandID = some r' ∧ r'.draining = none ∧ r'.posted = r.posted ∧
      r'.consumed = if report.commandID = commandID ∧ report.ok then r.consumed++[report]
        else r.consumed := by
  have hready := h.posted_ready hp
  have husable := h.usable (List.getElem?_eq_some_iff.mp hp).1
  by_cases hc : report.commandID = commandID ∧ report.ok
  · have hno : ¬ (report.commandID ≠ commandID ∨ (!report.ok)) := by simp [hc.1, hc.2]
    refine ⟨{r with
      queue := r.queue.advance 1
      draining := none
      consumed := r.consumed++[report]
      doorbells := r.doorbells++[(r.queue.queueID,(r.queue.advance 1).head)]},?_,rfl,rfl,?_⟩
    · simp only [Ring.consume, hidle, CompletionQueue.consumeCompletion, if_neg husable, hready,
        if_neg hno, toList_some]
    · rw [if_pos hc]
  · have hyes : report.commandID ≠ commandID ∨ (!report.ok) := by
      by_cases hid : report.commandID = commandID
      · exact .inr (by simpa [hid] using hc)
      · exact .inl hid
    refine ⟨r,?_,hidle,rfl,?_⟩
    · simp only [Ring.consume, hidle, CompletionQueue.consumeCompletion, if_neg husable, hready,
        if_pos hyes]
    · rw [if_neg hc]

end

end RingInv

structure UpToFailure (depth : UInt16) (phase : Bool) (called : ℕ) (r : Ring) : Prop extends
    RingInv depth phase r where
  idle : r.draining = none
  called_le : called ≤ r.posted.length
  upTo : r.consumed = (r.posted.take called).takeWhile Report.ok

namespace UpToFailure
variable {depth : UInt16} {phase : Bool} {called : ℕ} {r r' : Ring}

section
variable (h : UpToFailure depth phase called r)
include h

theorem post (hp : r.post report = some r') :
    UpToFailure depth phase called r' ∧ r'.posted = r.posted++[report] := by
  have hinv := h.toRingInv.post report hp
  rw [Ring.post, ite_none_right_eq_some] at hp
  obtain rfl := some.inj hp.2
  refine ⟨⟨hinv,h.idle,?_,?_⟩,rfl⟩
  · simpa using Nat.le_succ_of_le h.called_le
  · simpa [take_append_of_le_length h.called_le] using h.upTo

theorem consume {commandID : UInt16} (hid : r.posted[called]?.map Report.commandID = some commandID)
    (hc : r.consume commandID = some r') :
    UpToFailure depth phase (called+1) r' ∧ r'.posted = r.posted := by
  obtain ⟨report,hreport,hcommand⟩ := map_eq_some_iff.mp hid
  have hlt := (List.getElem?_eq_some_iff.mp hreport).1
  have hall := h.upTo
  have hle : r.consumed.length ≤ called := by
    rw [hall]
    exact (takeWhile_sublist _).length_le.trans (length_take_le _ _)
  obtain ⟨head,hhead⟩ : ∃ head, r.posted[r.consumed.length]? = some head :=
    ⟨_,getElem?_eq_getElem (by omega)⟩
  obtain ⟨r'',hr,hidle,hposted,hconsumed⟩ := h.consume_eq h.idle hhead commandID
  obtain rfl := some.inj (hr.symm.trans hc)
  refine ⟨⟨h.toRingInv.consume commandID hc,hidle,by rw [hposted]; omega,?_⟩,hposted⟩
  have htake : (r.posted.take called).length = called := length_take_of_le h.called_le
  rw [hconsumed, hposted, take_add_one, hreport, toList_some, takeWhile_append, ← hall, htake]
  rcases lt_or_ge r.consumed.length called with hfailed | hge
  · -- an earlier call was refused, and its entry is still at the head
    have hfail : head.ok = false := by
      apply getElem_takeWhile_length (l := r.posted.take called)
      rw [← hall, getElem?_take_of_lt hfailed, hhead]
    rw [if_neg (by simp [hfail]), if_neg (by omega)]
  · have hsame : r.consumed.length = called := le_antisymm hle hge
    rw [hsame, hreport] at hhead
    obtain rfl := some.inj hhead
    have hbefore : r.posted.take called = r.consumed := by
      rw [hall]
      exact ((List.takeWhile_prefix _).eq_of_length (by rw [← hall, hsame, htake])).symm
    rw [if_pos hsame, hbefore]
    cases hok : report.ok <;> simp [hcommand, hok]

theorem run {es : List RingEvent}
    (hes : CallsInOrder r.posted called es) (hrun : Transition.run Ring.step r es = some r') :
    UpToFailure depth phase (called+callCount es) r' := by
  induction es generalizing r called with
  | nil => exact some.inj hrun ▸ h
  | cons e es ih =>
    obtain ⟨u,hu,hrest⟩ := bind_eq_some_iff.mp hrun
    cases e with
    | post report =>
      obtain ⟨hnext,hposted⟩ := h.post hu
      simpa [callCount] using ih hnext (hposted ▸ hes) hrest
    | consume commandID =>
      obtain ⟨hnext,hposted⟩ := h.consume hes.1 hu
      have hcount : callCount (.consume commandID::es) = callCount es+1 := countP_cons_of_pos rfl
      rw [hcount, Nat.add_comm (callCount es), ← Nat.add_assoc]
      exact ih hnext (hposted ▸ hes.2) hrest
    | drain | drainTurn => cases hes

end

end UpToFailure

/-- The calls consume one entry each exactly if every completion they were made
for reports success. -/
theorem calls_consume_iff (queueID depth : UInt16) (phase : Bool) (memory : List CompletionEntry)
    (hsize : memory.length = depth.toNat) (hphase : ∀ entry ∈ memory, entry.phase = !phase)
    (es : List RingEvent) (hes : CallsInOrder [] 0 es) (r : Ring)
    (hrun : run Ring.step (Ring.initial queueID depth phase memory) es = some r) :
    r.consumed = r.posted.take (callCount es) ↔
      ∀ report ∈ r.posted.take (callCount es), report.ok := by
  have hstart : UpToFailure depth phase 0 (Ring.initial queueID depth phase memory) :=
    ⟨RingInv.initial queueID depth phase hsize hphase,rfl,Nat.zero_le _,rfl⟩
  have h := (hstart.run hes hrun).upTo
  rw [Nat.zero_add] at h
  rw [h, takeWhile_eq_self_iff]

theorem calls_consume_two :
    ∃ r, run Ring.step (Ring.initial 1 2 true [⟨0,false,false⟩,⟨0,false,false⟩])
        [.post ⟨5,true⟩,.post ⟨6,true⟩,.consume 5,.consume 6] = some r ∧
      (r.consumed = r.posted.take 2 ↔ ∀ report ∈ r.posted.take 2, report.ok) :=
  ⟨_,rfl,calls_consume_iff 1 2 true [⟨0,false,false⟩,⟨0,false,false⟩] rfl (by decide)
    [.post ⟨5,true⟩,.post ⟨6,true⟩,.consume 5,.consume 6] ⟨rfl,rfl,trivial⟩ _ rfl⟩

/-- Command 5 failed: neither its completion nor that of command 6 is consumed. -/
theorem failed_command_blocks :
    (run Ring.step (Ring.initial 1 4 true (List.replicate 4 ⟨0,false,false⟩))
      [.post ⟨5,false⟩,.post ⟨6,true⟩,.consume 5,.consume 6]).map
        (fun r => (r.posted.length,r.consumed)) = some (2,[]) := by
  decide

end Wrela.Nvme

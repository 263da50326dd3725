import Wrela.Nvme.Drain
import Wrela.X86.Memory

/-!
# Waits on an I/O path

Several commands may be outstanding on one path. The completion interrupt drains
the queue into an event; a wait reads the events in order and, when there is none,
looks at the queue itself. The queue is a field of the path, so that both work on a
copy of it and the path's own head stays where it is. An interrupt may come between
any two steps of a wait.
-/

set_option autoImplicit false

namespace Wrela.NvmePath
open Transition Nvme X86 List Option

structure Delivery where
  command : BitVec 16
  failed : Bool
  deriving DecidableEq

inductive Waiting where
  | idle
  | firstTry (command : BitVec 16) (wait : ℕ)
  | check (command : BitVec 16) (wait : ℕ)
  | window (command : BitVec 16) (wait : ℕ)
  | secondTry (command : BitVec 16) (wait : ℕ)

inductive Stop where
  | panic (code : Word)
  | spinning

/-- `consumed` lists the entries taken out of a copy of the queue. -/
structure PathState where
  entries : ℕ → BitVec 32
  posted : List Completion
  outstanding : List (BitVec 16)
  queue : CompletionQueue
  consumed : List ℕ
  unread : List CompletionInterrupt
  waiting : Waiting
  delivered : List Delivery
  stopped : Option Stop

def completionTimeoutPolls : ℕ := 10000

instance decidableOutstanding (command : BitVec 16) (commands : List (BitVec 16)) :
    Decidable (command ∈ commands) := inferInstance

variable (s : PathState)

namespace PathState

/-- The doorbell only ever tells the device the head of the path's own queue. -/
def post (c : Completion) : Option PathState :=
  if c.commandID ∈ s.outstanding ∧ s.posted.length < s.queue.head.toNat+s.queue.depth.toNat then
    some {s with
      entries := postEntry s.queue.depth.toNat s.entries s.posted c
      posted := s.posted++[c]
      outstanding := s.outstanding.erase c.commandID}
  else none

def interrupt : PathState :=
  match s.queue.drain s.entries 2 with
  | none => {s with stopped := some .spinning}
  | some event => {s with unread := s.unread++[event]}

variable (command : BitVec 16)

/-- The wait for `command` has read an event: it panics, returns, or goes on at
`next`. -/
def read (event : CompletionInterrupt) (next : Waiting) : PathState :=
  if event.queueID ≠ s.queue.queueID then {s with stopped := some (.panic 0xAC080188)}
  else if event.failed then {s with stopped := some (.panic 0xAC080189)}
  else if 0 < event.completedCount ∧ event.lastCommandID = command.setWidth 32 then
    {s with delivered := s.delivered++[⟨command,event.failed⟩], waiting := .idle}
  else {s with waiting := next}

def tryNext (next : Waiting) : PathState :=
  match s.unread with
  | [] => {s with waiting := next}
  | event::rest => {s with unread := rest}.read command event next

/-- The test for a failure has the labels of the test of the count around it: when
the command has not failed, the return behind it is jumped over. -/
def resynchronize (wait : ℕ) : PathState :=
  match s.queue.consumeCompletion s.entries command with
  | none => {s with stopped := some (.panic 0xAC08018C)}
  | some (_, r) =>
    if 0 < r.completedCount then
      let t : PathState := {s with consumed := s.consumed++[s.queue.head.toNat]}
      if r.failed then
        {t with delivered := s.delivered++[⟨command,true⟩], stopped := some (.panic 0xAC08018B)}
      else {t with waiting := .window command wait}
    else {s with waiting := .window command wait}

def turn : Option PathState :=
  match s.waiting with
  | .idle => none
  | .firstTry command wait =>
    if wait < completionTimeoutPolls then some (s.tryNext command (.check command wait))
    else some {s with stopped := some (.panic 0xAC08018A)}
  | .check command wait => some (s.resynchronize command wait)
  | .window command wait => some {s with waiting := .secondTry command wait}
  | .secondTry command wait => some (s.tryNext command (.firstTry command (wait+1)))

end PathState

inductive PathEvent where
  | submit (command : BitVec 16)
  | post (c : Completion)
  | interrupt
  | wait (command : BitVec 16)
  | turn

/-- After a panic, or in an interrupt that does not end, nothing runs any more. -/
def PathState.step (e : PathEvent) : Option PathState :=
  match s.stopped with
  | some _ => none
  | none => match e with
    | .submit command => some {s with outstanding := command::s.outstanding}
    | .post c => s.post c
    | .interrupt => some s.interrupt
    | .wait command => match s.waiting with
      | .idle => some {s with waiting := .firstTry command 0}
      | _ => none
    | .turn => s.turn

def PathState.initial (queueID : BitVec 16) (depth : BitVec 32) : PathState where
  entries := fun _ => 0
  posted := []
  outstanding := []
  queue := ⟨queueID,0,depth,true⟩
  consumed := []
  unread := []
  waiting := .idle
  delivered := []
  stopped := none

/-- No entry is taken twice, and what is taken has been delivered to the wait for
its command, with its own status. -/
structure PathState.Delivered (s : PathState) : Prop where
  once : s.consumed.Nodup
  delivered : ∀ i ∈ s.consumed, ∀ c, s.posted[i]? = some c → ⟨c.commandID,c.failed⟩ ∈ s.delivered

/-- A wait that looks at the queue does not find the successful completion of its
command in the first entry. -/
def PathState.Unserved : PathEvent → Prop
  | .turn => ∀ command wait, s.waiting = .check command wait → ∀ c ∈ s.posted.head?,
      c.commandID = command → c.failed
  | _ => True

namespace PathState

/-- Events count nothing, the direct check takes entry zero only, and a path that
still runs has delivered nothing. -/
structure Inv (s : PathState) : Prop where
  first : AtFirst s.entries s.posted s.queue
  events : ∀ event ∈ s.unread, event = ⟨s.queue.queueID,0,0,false⟩
  consumed : ∀ i ∈ s.consumed, i = 0 ∧ s.posted ≠ []
  delivered : s.stopped = none → s.delivered = []

theorem Inv.initial (queueID : BitVec 16) {depth : BitVec 32} (hd : 0 < depth) :
    (PathState.initial queueID depth).Inv :=
  ⟨.start queueID hd,by simp [PathState.initial],by simp [PathState.initial],fun _ => rfl⟩

variable {s t : PathState} {e : PathEvent}

/-- Where a wait stands and which commands are outstanding does not matter. -/
theorem Inv.elsewhere (h : s.Inv) (hgoes : s.stopped = none) (w : Waiting) (stop : Option Stop)
    (o : List (BitVec 16)) :
    ({s with waiting := w, stopped := stop, outstanding := o} : PathState).Inv :=
  ⟨h.first,h.events,h.consumed,fun _ => h.delivered hgoes⟩

theorem Inv.consumed_nil (h : s.Inv) (hgoes : s.stopped = none) (hd : s.Delivered) :
    s.consumed = [] := by
  rw [eq_nil_iff_forall_not_mem]
  intro i hi
  obtain ⟨rfl,hne⟩ := h.consumed i hi
  have hmem := hd.delivered 0 hi _ (getElem?_eq_getElem (length_pos_of_ne_nil hne))
  rw [h.delivered hgoes] at hmem
  cases hmem

theorem Delivered.of_nil (h : s.consumed = []) : s.Delivered :=
  ⟨by simp [h],by simp [h]⟩

section
variable (h : s.Inv) (hgoes : s.stopped = none)
include h hgoes

theorem Inv.post {c : Completion} (hstep : s.post c = some t) :
    t.Inv ∧ t.consumed = s.consumed := by
  rw [PathState.post, ite_none_right_eq_some] at hstep
  obtain ⟨⟨-,hroom⟩,hstep⟩ := hstep
  obtain rfl := some.inj hstep
  rw [h.first.head_eq] at hroom
  refine ⟨⟨h.first.post c (by simpa using hroom),h.events,fun i hi => ?_,fun _ => h.delivered hgoes⟩,rfl⟩
  exact ⟨(h.consumed i hi).1,by simp⟩

theorem Inv.interrupt : s.interrupt.Inv ∧ s.interrupt.consumed = s.consumed := by
  rw [PathState.interrupt, h.first.drain_eq 0]
  by_cases hp : s.posted = []
  · rw [if_pos hp]
    refine ⟨⟨h.first,fun event he => ?_,h.consumed,fun _ => h.delivered hgoes⟩,rfl⟩
    rcases mem_append.mp he with he | he
    · exact h.events event he
    · exact mem_singleton.mp he
  · rw [if_neg hp]
    exact ⟨h.elsewhere hgoes _ _ _,rfl⟩

/-- An event that counts nothing lets the wait go on. -/
theorem Inv.tryNext (command : BitVec 16) (next : Waiting) :
    (s.tryNext command next).Inv ∧ (s.tryNext command next).consumed = s.consumed := by
  unfold PathState.tryNext
  split
  · exact ⟨h.elsewhere hgoes _ _ _,rfl⟩
  · next event rest hu =>
    obtain rfl := h.events event (by simp [hu])
    have he : ({s with unread := rest} : PathState).read command ⟨s.queue.queueID,0,0,false⟩ next =
        {s with unread := rest, waiting := next} := by simp [read]
    rw [he]
    exact ⟨⟨h.first,fun event he => h.events event (by simp [hu, he]),h.consumed,
      fun _ => h.delivered hgoes⟩,rfl⟩

theorem resynchronize_cases (command : BitVec 16) (wait : ℕ) :
    ((∀ c ∈ s.posted.head?, c.commandID ≠ command) ∧
      ∃ w stop, s.resynchronize command wait = {s with waiting := w, stopped := stop}) ∨
    ∃ c, s.posted.head? = some c ∧ c.commandID = command ∧
      if c.failed then s.resynchronize command wait = {s with
        consumed := s.consumed++[0]
        delivered := [⟨command,true⟩]
        stopped := some (.panic 0xAC08018B)}
      else s.resynchronize command wait = {s with
        consumed := s.consumed++[0]
        waiting := .window command wait} := by
  have hzero : s.queue.head.toNat = 0 := by rw [h.first.head_eq]; rfl
  rw [resynchronize, h.first.consumeCompletion_eq, h.delivered hgoes]
  cases hp : s.posted.head? with
  | none => exact .inl ⟨by simp,_,_,rfl⟩
  | some c =>
    by_cases hcmd : c.commandID = command
    · refine .inr ⟨c,rfl,hcmd,?_⟩
      simp only [hcmd, if_true, hzero]
      split
      · rfl
      · rfl
    · refine .inl ⟨by simpa using hcmd,s.waiting,some (.panic 0xAC08018C),?_⟩
      simp only [if_neg hcmd]

theorem Inv.resynchronize (command : BitVec 16) (wait : ℕ) :
    (s.resynchronize command wait).Inv := by
  have htaken : ∀ i ∈ s.consumed++[0], s.posted.head?.isSome → i = 0 ∧ s.posted ≠ [] := by
    intro i hi hp
    refine ⟨?_,fun he => by simp [he] at hp⟩
    rcases mem_append.mp hi with hi | hi
    · exact (h.consumed i hi).1
    · exact mem_singleton.mp hi
  rcases resynchronize_cases h hgoes command wait with ⟨-,w,stop,he⟩ | ⟨c,hc,-,he⟩
  · rw [he]
    exact h.elsewhere hgoes _ _ _
  · split at he
    · rw [he]
      exact ⟨h.first,h.events,fun i hi => htaken i hi (by simp [hc]),fun hstop => by cases hstop⟩
    · rw [he]
      exact ⟨h.first,h.events,fun i hi => htaken i hi (by simp [hc]),fun _ => h.delivered hgoes⟩

/-- The direct check delivers what it takes only if that has failed. -/
theorem delivered_resynchronize_iff (hd : s.Delivered) (command : BitVec 16) (wait : ℕ) :
    (s.resynchronize command wait).Delivered ↔
      ∀ c ∈ s.posted.head?, c.commandID = command → c.failed := by
  have hnil := h.consumed_nil hgoes hd
  rcases resynchronize_cases h hgoes command wait with ⟨hne,w,stop,he⟩ | ⟨c,hc,hcmd,he⟩
  · rw [he]
    exact iff_of_true (.of_nil hnil) fun c hc heq => absurd heq (hne c hc)
  · have hfirst : s.posted[0]? = some c := by rw [← head?_eq_getElem?, hc]
    rw [hnil] at he
    split at he
    · next hf =>
      rw [he]
      refine iff_of_true ⟨by simp,fun i hi d hd => ?_⟩ (by simp [hc, hf])
      obtain rfl : i = 0 := by simpa using hi
      obtain rfl : c = d := some.inj (hfirst.symm.trans hd)
      simp [hcmd, hf]
    · next hf =>
      rw [he]
      refine iff_of_false (fun ht => ?_) (by simp [hc, hcmd, hf])
      have hmem := ht.delivered 0 (by simp) c hfirst
      rw [show _ = [] from h.delivered hgoes] at hmem
      cases hmem

end

theorem turn_cases (h : s.Inv) (hgoes : s.stopped = none) (hstep : s.turn = some t) :
    (∃ command wait, s.waiting = .check command wait ∧ t = s.resynchronize command wait) ∨
    (s.Unserved .turn ∧ t.Inv ∧ t.consumed = s.consumed) := by
  unfold PathState.turn at hstep
  simp only [Unserved]
  split at hstep
  · cases hstep
  · next command wait hw =>
    refine .inr ⟨by simp [hw],?_⟩
    split at hstep
    · exact some.inj hstep ▸ h.tryNext hgoes _ _
    · obtain rfl := some.inj hstep
      exact ⟨h.elsewhere hgoes _ _ _,rfl⟩
  · next command wait hw => exact .inl ⟨command,wait,hw,(some.inj hstep).symm⟩
  · next hw =>
    obtain rfl := some.inj hstep
    exact .inr ⟨by simp [hw],h.elsewhere hgoes _ _ _,rfl⟩
  · next hw => exact .inr ⟨by simp [hw],some.inj hstep ▸ h.tryNext hgoes _ _⟩

theorem step_cases (h : s.Inv) (hstep : s.step e = some t) : s.stopped = none ∧
    ((∃ command wait, e = .turn ∧ s.waiting = .check command wait ∧
      t = s.resynchronize command wait) ∨
    (s.Unserved e ∧ t.Inv ∧ t.consumed = s.consumed)) := by
  unfold PathState.step at hstep
  split at hstep
  · cases hstep
  next hgoes =>
  refine ⟨hgoes,?_⟩
  cases e with
  | submit command =>
    obtain rfl := some.inj hstep
    exact .inr ⟨trivial,h.elsewhere hgoes _ _ _,rfl⟩
  | post c => exact .inr ⟨trivial,h.post hgoes hstep⟩
  | interrupt => exact .inr ⟨trivial,some.inj hstep ▸ h.interrupt hgoes⟩
  | wait command =>
    simp only at hstep
    split at hstep
    · obtain rfl := some.inj hstep
      exact .inr ⟨trivial,h.elsewhere hgoes _ _ _,rfl⟩
    · cases hstep
  | turn =>
    rcases turn_cases h hgoes hstep with ⟨command,wait,hw,he⟩ | ht
    · exact .inl ⟨command,wait,rfl,hw,he⟩
    · exact .inr ht

theorem Inv.step (h : s.Inv) (hstep : s.step e = some t) : t.Inv := by
  obtain ⟨hgoes,⟨command,wait,-,-,rfl⟩ | ⟨-,ht,-⟩⟩ := step_cases h hstep
  · exact h.resynchronize hgoes command wait
  · exact ht

theorem delivered_step_iff (h : s.Inv) (hd : s.Delivered) (hstep : s.step e = some t) :
    t.Delivered ↔ s.Unserved e := by
  obtain ⟨hgoes,⟨command,wait,rfl,hw,rfl⟩ | ⟨hu,-,hc⟩⟩ := step_cases h hstep
  · rw [delivered_resynchronize_iff h hgoes hd, Unserved, hw]
    simp
  · exact iff_of_true (.of_nil (hc.trans (h.consumed_nil hgoes hd))) hu

end PathState

/-- Every completion reaches its waiter exactly when no wait finds the successful
completion of its command in the queue. -/
theorem completions_delivered_iff (queueID : BitVec 16) (depth : BitVec 32) (hd : 0 < depth)
    (es : List PathEvent) (hrun : (run PathState.step (.initial queueID depth) es).isSome) :
    (∀ n s, run PathState.step (.initial queueID depth) (es.take n) = some s → s.Delivered) ↔
    ∀ n e s, es[n]? = some e → run PathState.step (.initial queueID depth) (es.take n) = some s →
      s.Unserved e := by
  have hinit := PathState.Inv.initial queueID hd
  have hinv : ∀ n s, run PathState.step (.initial queueID depth) (es.take n) = some s → s.Inv :=
    fun n s hs => run_invariant (P := PathState.Inv) (fun _ _ _ hi hstep => hi.step hstep) hinit _ hs
  rw [← run_good_iff (P := fun s => s.Inv ∧ s.Delivered) PathState.step ?_ _ es ?_ hrun]
  · exact ⟨fun h n s hs => ⟨hinv n s hs,h n s hs⟩,fun h n s hs => (h n s hs).2⟩
  · intro s e t hs hstep
    rw [← PathState.delivered_step_iff hs.1 hs.2 hstep]
    exact and_iff_right (hs.1.step hstep)
  · exact ⟨hinit,.of_nil rfl⟩

/-- Two commands, an interrupt before either completes, and the first one fails. -/
def failedCommand : List PathEvent :=
  [.submit 1, .submit 2, .interrupt, .wait 1, .turn, .turn, .post ⟨1,5⟩, .turn, .turn, .turn, .turn]

theorem completions_delivered_failedCommand :
    (∃ s, run PathState.step (.initial 1 4) failedCommand = some s ∧ s.consumed = [0] ∧
      s.delivered = [⟨1,true⟩]) ∧
    ∀ n s, run PathState.step (.initial 1 4) (failedCommand.take n) = some s → s.Delivered := by
  refine ⟨⟨_,rfl,rfl,rfl⟩,(completions_delivered_iff 1 4 (by decide) failedCommand rfl).mpr ?_⟩
  intro n e s he hs
  match n with
  | 0 | 1 | 2 | 3 | 6 => exact some.inj he ▸ trivial
  | 4 | 5 =>
    obtain rfl := some.inj he
    obtain rfl := some.inj hs
    rintro command wait - c ⟨⟩
  | 7 | 8 | 9 | 10 =>
    obtain rfl := some.inj he
    obtain rfl := some.inj hs
    rintro command wait - c ⟨⟩ -
    rfl
  | n+11 => exact absurd he (by simp [failedCommand])

/-- The wait takes the completion of its command at every turn and returns it at
none. -/
theorem completion_taken_twice :
    ∃ s, run PathState.step (.initial 1 4) [.submit 1, .post ⟨1,0⟩, .wait 1, .turn, .turn, .turn,
        .turn, .turn, .turn] = some s ∧
      s.consumed = [0, 0] ∧ s.delivered = [] ∧ ¬ s.Delivered :=
  ⟨_,rfl,rfl,rfl,fun h => absurd h.once (by decide)⟩

end Wrela.NvmePath

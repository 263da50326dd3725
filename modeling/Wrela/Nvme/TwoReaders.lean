import Wrela.Nvme.PathWaits

/-!
# Two readers of the foreground completion queue

The interrupt path drains the ring into events; the direct storage object keeps a
head and phase of its own. It moves on by the count of an event that names the
command it waits for, or by taking the entry at its head itself. Interrupts are
off during a wait but for the window in which it halts.
-/

set_option autoImplicit false

namespace Wrela.NvmePath
open Transition Nvme X86 Nat Option

def foregroundIoQueueDepth : BitVec 32 := 256

/-- `pending` counts the interrupts sent and not yet taken. -/
structure ForegroundState where
  entries : ℕ → BitVec 32
  posted : List Completion
  outstanding : List (BitVec 16)
  pending : ℕ
  queue : CompletionQueue
  ioHead : BitVec 32
  ioPhase : Bool
  unread : List CompletionInterrupt
  waiting : Waiting
  stopped : Option Stop

variable (s : ForegroundState)

namespace ForegroundState

def advanceCompletionHead (head depth : BitVec 32) : BitVec 32 :=
  if head+1 = depth then 0 else head+1

def advanceOne : ForegroundState :=
  let head := advanceCompletionHead s.ioHead foregroundIoQueueDepth
  {s with
    ioHead := head
    ioPhase := if head = 0 then !s.ioPhase else s.ioPhase}

def synchronizeIoCompletionEvent (completed : CompletionInterrupt) : ForegroundState :=
  advanceOne^[completed.completedCount.toNat] s

def post (c : Completion) : Option ForegroundState :=
  if c.commandID ∈ s.outstanding then
    some {s with
      entries := postEntry foregroundIoQueueDepth.toNat s.entries s.posted c
      posted := s.posted++[c]
      outstanding := s.outstanding.erase c.commandID
      pending := s.pending+1}
  else none

/-- Interrupts are taken outside of waits and in their windows. -/
def InterruptsOn : Prop :=
  match s.waiting with
  | .idle => True
  | .window _ _ => True
  | _ => False

instance (s : ForegroundState) : Decidable s.InterruptsOn :=
  match h : s.waiting with
  | .idle => .isTrue (by simp [InterruptsOn, h])
  | .window _ _ => .isTrue (by simp [InterruptsOn, h])
  | .firstTry _ _ => .isFalse (by simp [InterruptsOn, h])
  | .check _ _ => .isFalse (by simp [InterruptsOn, h])
  | .secondTry _ _ => .isFalse (by simp [InterruptsOn, h])

/-- The path's queue is drained through a copy and stays where it is. -/
def interrupt (merged : ℕ) : Option ForegroundState :=
  if s.InterruptsOn ∧ 0 < merged ∧ merged ≤ s.pending then
    match s.queue.drain s.entries 2 with
    | none => some {s with pending := s.pending-merged, stopped := some .spinning}
    | some event => some {s with pending := s.pending-merged, unread := s.unread++[event]}
  else none

variable (command : BitVec 16)

def read (event : CompletionInterrupt) (next : Waiting) : ForegroundState :=
  if event.queueID ≠ 1 then {s with stopped := some (.panic 0xAC08018D)}
  else if event.failed then {s with stopped := some (.panic 0xAC08018C)}
  else if 0 < event.completedCount ∧ event.lastCommandID = command.setWidth 32 then
    {s.synchronizeIoCompletionEvent event with waiting := .idle}
  else {s with waiting := next}

def tryNext (next : Waiting) : ForegroundState :=
  match s.unread with
  | [] => {s with waiting := next}
  | event::rest => {s with unread := rest}.read command event next

def completionReady (dword3 : BitVec 32) (expectedPhase : Bool) : Bool :=
  if dword3 = 0 then false else entryPhase dword3 == expectedPhase

def ioCompletionForCommand (dword3 : BitVec 32) (command : BitVec 16) : Bool :=
  if dword3 = 0 then false
  else if entryCommand dword3 ≠ command.setWidth 32 then false
  else entryStatus dword3 == 0

/-- The direct check; what `validate_completion` looks at has been checked. -/
def consumeIoCompletion : Option ForegroundState :=
  let dword3 := s.entries s.ioHead.toNat
  if completionReady dword3 s.ioPhase = false then none
  else if ioCompletionForCommand dword3 command = false then none
  else some s.advanceOne

def turn : Option ForegroundState :=
  match s.waiting with
  | .idle => none
  | .firstTry command wait =>
    if wait < completionTimeoutPolls then some (s.tryNext command (.check command wait))
    else some {s with stopped := some (.panic 0xAC080137)}
  | .check command wait => match s.consumeIoCompletion command with
    | some t => some {t with waiting := .idle}
    | none => some {s with waiting := .window command wait}
  | .window command wait => some {s with waiting := .secondTry command wait}
  | .secondTry command wait => some (s.tryNext command (.firstTry command (wait+1)))

end ForegroundState

inductive ForegroundEvent where
  | submit (command : BitVec 16)
  | post (c : Completion)
  | interrupt (merged : ℕ)
  | wait (command : BitVec 16)
  | turn

namespace ForegroundState

def step (e : ForegroundEvent) : Option ForegroundState :=
  match s.stopped with
  | some _ => none
  | none => match e with
    | .submit command => match s.waiting with
      | .idle => some {s with outstanding := command::s.outstanding}
      | _ => none
    | .post c => s.post c
    | .interrupt merged => s.interrupt merged
    | .wait command => match s.waiting with
      | .idle => some {s with waiting := .firstTry command 0}
      | _ => none
    | .turn => s.turn

def initial : ForegroundState where
  entries := fun _ => 0
  posted := []
  outstanding := []
  pending := 0
  queue := ⟨1,0,foregroundIoQueueDepth,true⟩
  ioHead := 0
  ioPhase := true
  unread := []
  waiting := .idle
  stopped := none

/-- A head and phase that have passed `n` entries. -/
structure At (n : ℕ) (head : BitVec 32) (phase : Bool) : Prop where
  head_eq : head.toNat = n%foregroundIoQueueDepth.toNat
  phase_eq : phase = lapPhase true foregroundIoQueueDepth.toNat n

/-- With no interrupt on its way and no event unread, both readers stand behind
the last completion posted. -/
def InStep : Prop :=
  (∀ code, s.stopped ≠ some (.panic code)) → s.pending = 0 → s.unread = [] →
    At s.posted.length s.ioHead s.ioPhase ∧
      At s.posted.length s.queue.head s.queue.expectedPhase

/-- The device posts at most one lap of the ring. -/
def FirstLap : ForegroundEvent → Prop
  | .post _ => s.posted.length < foregroundIoQueueDepth.toNat
  | _ => True

instance (s : ForegroundState) (e : ForegroundEvent) : Decidable (s.FirstLap e) :=
  match e with
  | .post _ => inferInstanceAs (Decidable (_ < _))
  | .submit _ | .interrupt _ | .wait _ | .turn => .isTrue trivial

def firstLapStep : ForegroundState → ForegroundEvent → Option ForegroundState :=
  guarded FirstLap step

/-- An interrupt that is taken leaves another one on its way. -/
def Another : ForegroundEvent → Prop
  | .interrupt merged => merged < s.pending
  | _ => True

/-! ### What the steps keep -/

/-- As long as there is no panic, the interrupts sent are those of the completions,
but for those that an interrupt without end has merged; there is no event. -/
structure Inv (s : ForegroundState) : Prop where
  queue_eq : s.queue = ⟨1,0,foregroundIoQueueDepth,true⟩
  first : AtFirst s.entries s.posted s.queue
  unread : s.unread = []
  sent : s.stopped = none → s.pending = s.posted.length
  direct : s.posted = [] → s.ioHead = 0 ∧ s.ioPhase = true
  spinning : s.stopped = some .spinning → s.posted ≠ []

theorem Inv.initial : ForegroundState.initial.Inv where
  queue_eq := rfl
  first := .start 1 (by decide)
  unread := rfl
  sent _ := rfl
  direct _ := ⟨rfl,rfl⟩
  spinning h := by cases h

variable {s t : ForegroundState} {e : ForegroundEvent}

/-- The head of the path has passed no entry, so it is behind as soon as there is
one. -/
theorem Inv.inStep_iff (h : s.Inv) :
    s.InStep ↔ (s.stopped = some .spinning → s.pending ≠ 0) := by
  have hle := h.first.length_le
  rw [h.queue_eq, show foregroundIoQueueDepth.toNat = 256 from rfl] at hle
  constructor
  · intro hin hstop hpending
    have hpos := List.length_pos_of_ne_nil (h.spinning hstop)
    obtain ⟨-,hhead,hphase⟩ := hin (by simp [hstop]) hpending h.unread
    rw [h.queue_eq] at hhead hphase
    -- a whole lap is the one count with the head at zero, and it turns the phase
    have hlap : s.posted.length = 256 := by
      change 0 = s.posted.length%256 at hhead
      omega
    rw [hlap] at hphase
    revert hphase
    decide
  · intro hspin hgoes hpending _
    have hnone : s.stopped = none := by
      cases hs : s.stopped with
      | none => rfl
      | some stop => cases stop with
        | panic code => exact absurd hs (hgoes code)
        | spinning => exact absurd hpending (hspin hs)
    have hlength : s.posted.length = 0 := (h.sent hnone).symm.trans hpending
    obtain ⟨hhead,hphase⟩ := h.direct (List.eq_nil_of_length_eq_zero hlength)
    rw [hlength, hhead, hphase, h.queue_eq]
    exact ⟨⟨rfl,rfl⟩,⟨rfl,rfl⟩⟩

theorem tryNext_eq (h : s.Inv) (command : BitVec 16) (next : Waiting) :
    s.tryNext command next = {s with waiting := next} := by
  rw [ForegroundState.tryNext, h.unread]

section
variable (h : s.Inv) (hgoes : s.stopped = none)
include h hgoes

theorem Inv.elsewhere (w : Waiting) {stop : Option Stop} (hstop : stop ≠ some .spinning)
    (o : List (BitVec 16)) :
    ({s with waiting := w, stopped := stop, outstanding := o} : ForegroundState).Inv :=
  ⟨h.queue_eq,h.first,h.unread,fun _ => h.sent hgoes,h.direct,fun he => absurd he hstop⟩

theorem Inv.post {c : Completion} (hlap : s.FirstLap (.post c)) (hstep : s.post c = some t) :
    t.Inv ∧ t.stopped = none := by
  rw [ForegroundState.post, ite_none_right_eq_some] at hstep
  obtain rfl := some.inj hstep.2
  have hfirst := h.first.post c (by rw [h.queue_eq]; exact hlap)
  refine ⟨⟨h.queue_eq,?_,h.unread,fun _ => ?_,by simp,by simp⟩,hgoes⟩
  · rw [h.queue_eq] at hfirst ⊢
    exact hfirst
  · show s.pending+1 = _
    rw [h.sent hgoes, List.length_append]
    rfl

/-- An interrupt is only sent for a completion, and finds the first entry ready. -/
theorem interrupt_spins {merged : ℕ} (hstep : s.interrupt merged = some t) :
    t = {s with pending := s.pending-merged, stopped := some .spinning} ∧ s.posted ≠ [] := by
  rw [ForegroundState.interrupt, ite_none_right_eq_some] at hstep
  obtain ⟨⟨-,hpos,hle⟩,hstep⟩ := hstep
  have hne : s.posted ≠ [] := by
    have := h.sent hgoes
    exact List.ne_nil_of_length_pos (by omega)
  rw [h.first.drain_eq 0, if_neg hne] at hstep
  exact ⟨(some.inj hstep).symm,hne⟩

/-- Before the first completion there is nothing to take. -/
theorem Inv.consumeIoCompletion {command : BitVec 16}
    (hstep : s.consumeIoCompletion command = some t) :
    ({t with waiting := .idle} : ForegroundState).Inv ∧ t.stopped = none := by
  simp only [ForegroundState.consumeIoCompletion] at hstep
  split at hstep
  · cases hstep
  split at hstep
  · cases hstep
  next hready _ =>
  obtain rfl := some.inj hstep
  refine ⟨⟨h.queue_eq,h.first,h.unread,fun _ => h.sent hgoes,fun hnil => ?_,h.spinning⟩,hgoes⟩
  rw [h.first.fresh hnil] at hready
  exact absurd rfl hready

theorem Inv.turn (hstep : s.turn = some t) : t.Inv ∧ t.stopped ≠ some .spinning := by
  have hrun : s.stopped ≠ some .spinning := by simp [hgoes]
  unfold ForegroundState.turn at hstep
  split at hstep
  · cases hstep
  · split at hstep
    · rw [tryNext_eq h] at hstep
      obtain rfl := some.inj hstep
      exact ⟨h.elsewhere hgoes _ hrun _,hrun⟩
    · obtain rfl := some.inj hstep
      exact ⟨h.elsewhere hgoes _ (by simp) _,by simp⟩
  · split at hstep
    · next hconsume =>
      obtain rfl := some.inj hstep
      obtain ⟨ht,hnone⟩ := h.consumeIoCompletion hgoes hconsume
      exact ⟨ht,by simp [hnone]⟩
    · obtain rfl := some.inj hstep
      exact ⟨h.elsewhere hgoes _ hrun _,hrun⟩
  · obtain rfl := some.inj hstep
    exact ⟨h.elsewhere hgoes _ hrun _,hrun⟩
  · rw [tryNext_eq h] at hstep
    obtain rfl := some.inj hstep
    exact ⟨h.elsewhere hgoes _ hrun _,hrun⟩

end

/-- A step keeps the readers in step exactly when it is not an interrupt, or leaves
one on its way. -/
theorem inStep_step_iff (h : s.Inv) (hlap : s.FirstLap e) (hstep : s.step e = some t) :
    t.Inv ∧ (t.InStep ↔ s.Another e) := by
  unfold ForegroundState.step at hstep
  split at hstep
  · cases hstep
  next hgoes =>
  have hrun : s.stopped ≠ some .spinning := by simp [hgoes]
  have hgood : t.Inv ∧ t.stopped ≠ some .spinning → t.Inv ∧ t.InStep := fun ht =>
    ⟨ht.1,ht.1.inStep_iff.mpr fun hspin => absurd hspin ht.2⟩
  cases e with
  | submit command | wait command =>
    simp only at hstep
    split at hstep
    · obtain rfl := some.inj hstep
      exact (hgood ⟨h.elsewhere hgoes _ hrun _,hrun⟩).imp_right fun hin => iff_of_true hin trivial
    · cases hstep
  | post c =>
    obtain ⟨ht,hnone⟩ := h.post hgoes hlap hstep
    exact (hgood ⟨ht,by simp [hnone]⟩).imp_right fun hin => iff_of_true hin trivial
  | interrupt merged =>
    obtain ⟨rfl,hne⟩ := interrupt_spins h hgoes hstep
    have ht : ({s with pending := s.pending-merged, stopped := some .spinning} :
        ForegroundState).Inv :=
      ⟨h.queue_eq,h.first,h.unread,by simp,h.direct,fun _ => hne⟩
    refine ⟨ht,ht.inStep_iff.trans ?_⟩
    simp only [Another, forall_const, ne_eq]
    omega
  | turn =>
    exact (hgood (h.turn hgoes hstep)).imp_right fun hin => iff_of_true hin trivial

end ForegroundState

/-- Two waits end by the direct check; then one of their interrupts is taken. -/
def twoWaits : List ForegroundEvent :=
  [.submit 1, .post ⟨1,0⟩, .wait 1, .turn, .turn, .submit 2, .wait 2, .turn, .turn, .post ⟨2,0⟩,
    .turn, .turn, .turn, .turn, .interrupt 1]

end Wrela.NvmePath

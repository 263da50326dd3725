import Wrela.Nvme.CompletionRing

/-!
# Draining the completion queue

The driver's view of a completion queue: the third word of each entry, with the
command, the phase bit and the status, and a head that takes the entries whose
phase is the expected one. The methods are taken as they are compiled: the test of
the phase inside of a drain has the labels of the conditional around it.
-/

set_option autoImplicit false

namespace Wrela.NvmePath
open Nvme BitVec Function Nat

structure Completion where
  commandID : BitVec 16
  status : BitVec 15

def Completion.failed (c : Completion) : Bool := c.status != 0

def dword3 (c : Completion) (phase : Bool) : BitVec 32 :=
  BitVec.ofNat 32 (c.status.toNat*2^17+phase.toNat*2^16+c.commandID.toNat)

def entryPhase (dword3 : BitVec 32) : Bool := ((dword3>>>16) &&& 1) != 0

def entryStatus (dword3 : BitVec 32) : BitVec 32 := (dword3>>>17) &&& 0x7FFF

def entryCommand (dword3 : BitVec 32) : BitVec 32 := dword3 &&& 0xFFFF

structure CompletionQueue where
  queueID : BitVec 16
  head : BitVec 32
  depth : BitVec 32
  expectedPhase : Bool

structure CompletionInterrupt where
  queueID : BitVec 16
  completedCount : BitVec 32
  lastCommandID : BitVec 32
  failed : Bool

namespace CompletionQueue

variable (q : CompletionQueue)

def advanceOne : CompletionQueue :=
  if q.head+1 = q.depth then {q with head := 0, expectedPhase := !q.expectedPhase}
  else {q with head := q.head+1}

def advance (count : BitVec 32) : CompletionQueue :=
  advanceOne^[count.toNat] q

structure Draining where
  scanned : BitVec 32
  draining : Bool

/-- One turn of a drain. Both ways out of the test of the phase lead to the end of
the outer conditional, past the code that takes an entry: behind a ready entry the
turn has changed nothing. -/
def drainTurn (entries : ℕ → BitVec 32) (d : Draining) : Draining :=
  if d.draining then
    if entryPhase (entries q.head.toNat) ≠ q.expectedPhase then ⟨q.depth,false⟩ else d
  else d

def drain (entries : ℕ → BitVec 32) (turns : ℕ) : Option CompletionInterrupt :=
  (WhileLoop.loop (fun d => decide (d.scanned < q.depth)) (fun d => some (q.drainTurn entries d))
    turns ⟨0,true⟩).map fun _ => ⟨q.queueID,0,0,false⟩

/-- The direct check for one command: panics on the completion of another. -/
def consumeCompletion (entries : ℕ → BitVec 32) (commandID : BitVec 16) :
    Option (CompletionQueue × CompletionInterrupt) :=
  let dword3 := entries q.head.toNat
  if entryPhase dword3 ≠ q.expectedPhase then some (q, ⟨q.queueID,0,0,false⟩)
  else if entryCommand dword3 ≠ commandID.setWidth 32 then none
  else some (q.advance 1, ⟨q.queueID,1,entryCommand dword3,entryStatus dword3 != 0⟩)

end CompletionQueue

theorem bne_zero {w : ℕ} (x : BitVec w) : (x != 0) = (x.toNat != 0) := by
  rw [Bool.eq_iff_iff, bne_iff_ne, bne_iff_ne, Ne, Ne, ← toNat_inj]
  simp

section
variable (c : Completion) (phase : Bool)

theorem dword3_toNat :
    (dword3 c phase).toNat = c.status.toNat*2^17+phase.toNat*2^16+c.commandID.toNat := by
  have := c.status.isLt
  have := c.commandID.isLt
  have := phase.toNat_le
  rw [dword3, toNat_ofNat, mod_eq_of_lt (by omega)]

@[simp] theorem entryPhase_dword3 : entryPhase (dword3 c phase) = phase := by
  have hbit : ((dword3 c phase>>>16) &&& 1).toNat = phase.toNat := by
    have := c.commandID.isLt
    rw [toNat_and, toNat_ushiftRight, dword3_toNat, shiftRight_eq_div_pow]
    show _ &&& 1 = _
    rw [and_one_is_mod]
    have := phase.toNat_le
    omega
  rw [entryPhase, bne_zero, hbit]
  cases phase <;> rfl

@[simp] theorem entryCommand_dword3 : entryCommand (dword3 c phase) = c.commandID.setWidth 32 := by
  have := c.commandID.isLt
  apply eq_of_toNat_eq
  rw [entryCommand, toNat_and, dword3_toNat, toNat_setWidth]
  show _ &&& (2^16-1) = _
  rw [and_two_pow_sub_one_eq_mod]
  omega

@[simp] theorem entryStatus_dword3 : (entryStatus (dword3 c phase) != 0) = c.failed := by
  have hstatus : entryStatus (dword3 c phase) = c.status.setWidth 32 := by
    have := c.commandID.isLt
    have := c.status.isLt
    have := phase.toNat_le
    apply eq_of_toNat_eq
    rw [entryStatus, toNat_and, toNat_ushiftRight, dword3_toNat,
      toNat_setWidth, shiftRight_eq_div_pow]
    show _ &&& (2^15-1) = _
    rw [and_two_pow_sub_one_eq_mod]
    omega
  rw [hstatus, Completion.failed, bne_zero, bne_zero, toNat_setWidth,
    mod_eq_of_lt (by have := c.status.isLt; omega)]

end

def postEntry (depth : ℕ) (entries : ℕ → BitVec 32) (posted : List Completion) (c : Completion) :
    ℕ → BitVec 32 :=
  update entries (posted.length%depth) (dword3 c (lapPhase true depth posted.length))

theorem widen_inj {a b : BitVec 16} : a.setWidth 32 = b.setWidth 32 ↔ a = b := by
  rw [← toNat_inj, toNat_setWidth, toNat_setWidth, ← toNat_inj]
  have := a.isLt
  have := b.isLt
  omega

/-! ### Queues at their first entry -/

namespace CompletionQueue
variable {q : CompletionQueue} {entries : ℕ → BitVec 32}

/-- A drain that finds a ready entry never ends. -/
theorem drain_ready (hd : 0 < q.depth) (h : entryPhase (entries q.head.toNat) = q.expectedPhase)
    (turns : ℕ) : q.drain entries turns = none := by
  have hturn : q.drainTurn entries ⟨0,true⟩ = ⟨0,true⟩ := by simp [drainTurn, h]
  rw [drain, WhileLoop.loop, Option.map_map, Option.map_eq_none_iff]
  induction turns with
  | zero => rfl
  | succ turns ih =>
    rw [WhileLoop.run, if_pos (by simpa using hd), hturn]
    exact ih

/-- Two turns are enough for any other drain, and it has taken nothing. -/
theorem drain_empty (h : entryPhase (entries q.head.toNat) ≠ q.expectedPhase) (turns : ℕ) :
    q.drain entries (turns+2) = some ⟨q.queueID,0,0,false⟩ := by
  have hturn : q.drainTurn entries ⟨0,true⟩ = ⟨q.depth,false⟩ := by simp [drainTurn, h]
  simp only [drain, WhileLoop.loop, WhileLoop.run, Option.map_some, Option.bind_some, hturn]
  by_cases hd : 0 < q.depth
  · simp only [hd, decide_true, if_pos, BitVec.lt_irrefl]
    rfl
  · simp only [hd, decide_false]
    rfl

end CompletionQueue

/-- The queue stands at entry zero, which the first completion has made ready. -/
structure AtFirst (entries : ℕ → BitVec 32) (posted : List Completion) (q : CompletionQueue) :
    Prop where
  head_eq : q.head = 0
  phase_eq : q.expectedPhase = true
  depth_pos : 0 < q.depth
  length_le : posted.length ≤ q.depth.toNat
  first : ∀ c ∈ posted.head?, entries 0 = dword3 c true
  fresh : posted = [] → entries = fun _ => 0

namespace AtFirst
variable {entries : ℕ → BitVec 32} {posted : List Completion} {q : CompletionQueue}

theorem start (queueID : BitVec 16) {depth : BitVec 32} (hd : 0 < depth) :
    AtFirst (fun _ => 0) [] ⟨queueID,0,depth,true⟩ :=
  ⟨rfl,rfl,hd,zero_le _,by simp,fun _ => rfl⟩

variable (h : AtFirst entries posted q)
include h

theorem post (c : Completion) (hroom : posted.length < q.depth.toNat) :
    AtFirst (postEntry q.depth.toNat entries posted c) (posted++[c]) q where
  head_eq := h.head_eq
  phase_eq := h.phase_eq
  depth_pos := h.depth_pos
  length_le := by simpa using succ_le_of_lt hroom
  first d hd := by
    have hmod : posted.length%q.depth.toNat = posted.length := mod_eq_of_lt hroom
    cases posted with
    | nil =>
      obtain rfl : c = d := by simpa using hd
      rw [postEntry, hmod, lapPhase_first true hroom]
      exact update_self ..
    | cons a posted =>
      rw [postEntry, hmod, update_of_ne (by simp)]
      exact h.first d (by simpa using hd)
  fresh hnil := absurd hnil (by simp)

theorem ready_iff : entryPhase (entries q.head.toNat) = q.expectedPhase ↔ posted ≠ [] := by
  have hzero : q.head.toNat = 0 := by rw [h.head_eq]; rfl
  rw [hzero, h.phase_eq]
  cases hp : posted with
  | nil =>
    rw [h.fresh hp]
    exact iff_of_false (by decide) (by simp)
  | cons c rest =>
    rw [h.first c (by simp [hp])]
    simp

theorem drain_eq (turns : ℕ) : q.drain entries (turns+2) =
    if posted = [] then some ⟨q.queueID,0,0,false⟩ else none := by
  split
  · next hp => exact CompletionQueue.drain_empty (fun he => h.ready_iff.mp he hp) turns
  · next hp => exact CompletionQueue.drain_ready h.depth_pos (h.ready_iff.mpr hp) _

theorem consumeCompletion_eq (command : BitVec 16) : q.consumeCompletion entries command =
    match posted.head? with
    | none => some (q, ⟨q.queueID,0,0,false⟩)
    | some c => if c.commandID = command then
        some (q.advance 1, ⟨q.queueID,1,command.setWidth 32,c.failed⟩) else none := by
  have hzero : q.head.toNat = 0 := by rw [h.head_eq]; rfl
  cases hp : posted with
  | nil =>
    have hready := mt h.ready_iff.mp (not_not.mpr hp)
    simp [CompletionQueue.consumeCompletion, hready]
  | cons c rest =>
    have hentry := h.first c (by simp [hp])
    simp only [CompletionQueue.consumeCompletion, hzero, hentry, h.phase_eq, entryPhase_dword3,
      entryCommand_dword3, entryStatus_dword3, ne_eq, not_true_eq_false, if_false, widen_inj,
      List.head?_cons]
    by_cases he : c.commandID = command
    · simp [he]
    · simp [he]

end AtFirst

end Wrela.NvmePath

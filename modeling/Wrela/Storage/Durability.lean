import Wrela.Storage.Format
import Wrela.Transition

/-!
# The durable frontier

A ledger records, beside the writer, the groups it accepted and which of their completion
tokens were acknowledged. Completions arrive in any order, may fail and may never arrive.
-/

set_option autoImplicit false

namespace Wrela.Durability
open StorageFormat Transition List Option

structure GroupRecord where
  firstEventID : UInt64
  lastEventID : UInt64
  semanticSlots : ℕ
  acknowledged : Bool
  deriving DecidableEq, Repr

/-- The semantic event ids of a group; ids wrap as the writer's counter does. -/
def GroupRecord.Holds (g : GroupRecord) (id : UInt64) : Prop :=
  ∃ j < g.semanticSlots, id = g.firstEventID+UInt64.ofNat j

structure Ledger where
  writer : WriterPolicy
  groups : List GroupRecord
  deriving DecidableEq, Repr

inductive Event where
  | enqueue (semanticSlots reservedEmptySlots : UInt64)
  | completion (group : ℕ) (token : CommitToken)
  deriving DecidableEq, Repr

variable (l : Ledger)

def Ledger.enqueue (s r : UInt64) : Ledger :=
  let result := l.writer.enqueueAtomicGroupWithReserved s r
  if result.2.accepted then
    ⟨result.1,l.groups ++ [⟨result.2.firstEventID,result.2.lastEventID,s.toNat,false⟩]⟩
  else ⟨result.1,l.groups⟩

def Ledger.complete (i : ℕ) (token : CommitToken) : Option Ledger :=
  match l.groups[i]? with
  | none => none
  | some g =>
    if token.firstEventID = g.firstEventID ∧ token.lastEventID = g.lastEventID then
      some ⟨(l.writer.onDurabilityCompleted token).1,
        l.groups.set i { g with acknowledged := g.acknowledged || token.acknowledged }⟩
    else none

def Ledger.step : Event → Option Ledger
  | .enqueue s r => some (l.enqueue s r)
  | .completion i token => l.complete i token

/-- Every semantic event at or below the frontier is in an acknowledged group. -/
def FrontierSafe : Prop :=
  ∀ g ∈ l.groups, ∀ id, g.Holds id → id ≤ l.writer.durableFrontier → g.acknowledged

/-- The ids an accepted group takes lie above the frontier, and an acknowledged
completion overtakes no other group that is still unacknowledged. -/
def InOrder : Event → Prop
  | .enqueue s r => (l.writer.enqueueAtomicGroupWithReserved s r).2.accepted →
      ∀ j < s.toNat, l.writer.durableFrontier < l.writer.nextEventID+UInt64.ofNat j
  | .completion i token => token.acknowledged →
      ∀ k g, l.groups[k]? = some g → k ≠ i → g.acknowledged = false →
        ∀ id, g.Holds id → token.lastEventID < id

variable (w : WriterPolicy) (l : Ledger) (t : CommitToken)

theorem completed_frontier (h : t.acknowledged) :
    (w.onDurabilityCompleted t).1.durableFrontier =
      if w.durableFrontier < t.lastEventID then t.lastEventID else w.durableFrontier := by
  simp [WriterPolicy.onDurabilityCompleted, h]

theorem failed_completion (h : t.acknowledged = false) : (w.onDurabilityCompleted t).1 = w := by
  simp [WriterPolicy.onDurabilityCompleted, h]

/-- A completion moves the frontier past an id exactly when the token ends there. -/
theorem completed_covers (h : t.acknowledged)
    (id : UInt64) : id ≤ (w.onDurabilityCompleted t).1.durableFrontier ↔
      id ≤ w.durableFrontier ∨ id ≤ t.lastEventID := by
  rw [completed_frontier w t h]
  simp only [UInt64.le_iff_toNat_le, UInt64.lt_iff_toNat_lt]
  split_ifs <;> omega

theorem enqueue_safe_iff (s r : UInt64) (hl : FrontierSafe l) :
    FrontierSafe (l.enqueue s r) ↔ InOrder l (.enqueue s r) := by
  cases hacc : (l.writer.enqueueAtomicGroupWithReserved s r).2.accepted with
  | false =>
    simp only [InOrder, hacc, Bool.false_eq_true, false_imp_iff, iff_true]
    simpa [Ledger.enqueue, hacc, FrontierSafe, enqueue_frontier] using hl
  | true =>
    have hf := (enqueue_accepted l.writer s r hacc).2.2.2.2.1
    simp only [InOrder, hacc, true_imp_iff, FrontierSafe, Ledger.enqueue, if_true,
      enqueue_frontier, hf]
    constructor
    · intro h j hj
      by_contra hle
      have := h _ (mem_append_right _ (mem_singleton_self _)) _ ⟨j,hj,rfl⟩
        (UInt64.not_lt.mp hle)
      exact absurd this (by simp)
    · intro h g hg id hid hle
      rcases mem_append.mp hg with hg | hg
      · exact hl g hg id hid hle
      · obtain rfl := mem_singleton.mp hg
        obtain ⟨j,hj,rfl⟩ := hid
        exact absurd hle (UInt64.not_le.mpr (h j hj))

theorem failed_set (i : ℕ) (g : GroupRecord) (h : l.groups[i]? = some g) :
    l.groups.set i { g with acknowledged := g.acknowledged || false } = l.groups := by
  obtain ⟨hi,rfl⟩ := List.getElem?_eq_some_iff.mp h
  rw [Bool.or_false]
  exact set_getElem_self hi

theorem complete_safe_iff (l l' : Ledger) (i : ℕ) (t : CommitToken) (hl : FrontierSafe l)
    (h : l.complete i t = some l') : FrontierSafe l' ↔ InOrder l (.completion i t) := by
  unfold Ledger.complete at h
  split at h
  · exact absurd h (by simp)
  rename_i g hg
  split_ifs at h with hrange
  obtain rfl := some.inj h
  cases hack : t.acknowledged with
  | false =>
    simp only [InOrder, hack, Bool.false_eq_true, false_imp_iff, iff_true]
    rw [failed_set l i g hg, failed_completion l.writer t hack]
    exact hl
  | true =>
    simp only [InOrder, hack, true_imp_iff, FrontierSafe, completed_covers l.writer t hack,
      Bool.or_true]
    have hi := (List.getElem?_eq_some_iff.mp hg).1
    constructor
    · intro hsafe k g' hk hne hun id hid
      by_contra hle
      have hmem : g' ∈ l.groups.set i { g with acknowledged := true } := by
        apply mem_of_getElem? (i := k)
        rw [getElem?_set_ne (Ne.symm hne), hk]
      have := hsafe g' hmem id hid (.inr (UInt64.not_lt.mp hle))
      rw [hun] at this
      exact absurd this (by decide)
    · intro hord g' hg' id hid hle
      obtain ⟨k,hk⟩ := mem_iff_getElem?.mp hg'
      by_cases hki : k = i
      · subst hki
        rw [getElem?_set_self hi] at hk
        rw [← some.inj hk]
      · rw [getElem?_set_ne (Ne.symm hki)] at hk
        rcases hle with hle | hle
        · exact hl g' (mem_of_getElem? hk) id hid hle
        · by_contra hun
          exact absurd hle (UInt64.not_le.mpr
            (hord k g' hk hki (by simpa using hun) id hid))

theorem step_safe_iff (e : Event) (l' : Ledger) (hl : FrontierSafe l)
    (h : l.step e = some l') : FrontierSafe l' ↔ InOrder l e := by
  cases e with
  | enqueue s r =>
    obtain rfl := some.inj h
    exact enqueue_safe_iff l s r hl
  | completion i t => exact complete_safe_iff l l' i t hl h

/-- The frontier is safe in every state of a run exactly when no enqueue takes an id
at or below it and no acknowledged completion overtakes an unacknowledged group. -/
theorem durable_frontier_safe_iff (w : WriterPolicy) (es : List Event)
    (hrun : (run Ledger.step ⟨w,[]⟩ es).isSome) :
    (∀ n l, run Ledger.step ⟨w,[]⟩ (es.take n) = some l → FrontierSafe l) ↔
    (∀ n e l, es[n]? = some e → run Ledger.step ⟨w,[]⟩ (es.take n) = some l → InOrder l e) :=
  run_good_iff Ledger.step step_safe_iff ⟨w,[]⟩ es (by simp [FrontierSafe]) hrun

def writtenToken (first last : UInt64) (failed : Bool) : CommitToken :=
  ⟨first,last,1,1,true,false,false,failed⟩

/-- In-order completion of the only group, from a writer whose first id is one. -/
theorem durable_frontier_in_order :
    (run Ledger.step ⟨⟨1,0,0,0⟩,[]⟩
      [.enqueue 2 0, .completion 0 (writtenToken 1 2 false)]).isSome ∧
    ∀ n l, run Ledger.step ⟨⟨1,0,0,0⟩,[]⟩
      ([.enqueue 2 0, .completion 0 (writtenToken 1 2 false)].take n) = some l →
        FrontierSafe l := by
  refine ⟨by decide,(durable_frontier_safe_iff _ _ (by decide)).mpr ?_⟩
  intro n e l he hl
  match n with
  | 0 =>
    obtain rfl := some.inj he
    obtain rfl := some.inj hl
    intro _
    decide
  | 1 =>
    obtain rfl := some.inj he
    obtain rfl := some.inj hl
    intro _ k g hk hne
    match k with
    | 0 => exact absurd rfl hne
    | k+1 => exact absurd hk (by simp [Ledger.enqueue, WriterPolicy.enqueueAtomicGroupWithReserved,
        storageMaxAtomicGroupSlots, storageMaxBatchSlots])
  | n+2 => exact absurd he (by simp)

/-- The second of two groups is acknowledged while the write of the first failed. -/
def overtaking : List Event :=
  [.enqueue 2 0, .enqueue 1 0, .completion 0 (writtenToken 0 1 true),
    .completion 1 (writtenToken 2 2 false)]

theorem durable_frontier_overtaken :
    ∃ l, run Ledger.step ⟨⟨0,0,0,0⟩,[]⟩ overtaking = some l ∧ ¬FrontierSafe l := by
  refine ⟨⟨⟨3,0,0,2⟩,[⟨0,1,2,false⟩, ⟨2,2,1,true⟩]⟩,by decide,fun h => ?_⟩
  have := h ⟨0,1,2,false⟩ (by simp) 1 ⟨1,by decide,rfl⟩ (by decide)
  exact absurd this (by decide)

end Wrela.Durability

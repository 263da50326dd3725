import Mathlib.Data.Finset.Card

/-!
# Durability acknowledgement

A durability state counts the completions of its write commands, each command
id once, and remembers whether a flush completed. It does not remember when:
the history is kept beside it to say what an acknowledgement stands for.
-/

set_option autoImplicit false

namespace Wrela.Nvme
open Finset UInt32

inductive DurabilityMode where
  | fua | writePlusFlush
  deriving DecidableEq, Repr

structure DurabilityState where
  mode : DurabilityMode
  pendingWrites : UInt32
  completedWrites : UInt32
  flushCompleted : Bool
  completedCommandIDs : Finset UInt16
  failed : Bool
  deriving DecidableEq

variable (s : DurabilityState) (commandID : UInt16)

namespace DurabilityState

def completeWrite (ok : Bool) : DurabilityState :=
  if !ok then {s with failed := true}
  else if commandID ∈ s.completedCommandIDs then s
  else if s.completedWrites < s.pendingWrites then
    {s with
      completedCommandIDs := insert commandID s.completedCommandIDs
      completedWrites := s.completedWrites+1}
  else s

def completeFlush (ok : Bool) : DurabilityState :=
  if !ok then {s with failed := true} else {s with flushCompleted := true}

def acknowledged : Bool :=
  if s.failed || s.completedWrites < s.pendingWrites then false
  else if s.mode = .writePlusFlush then s.flushCompleted
  else true

end DurabilityState

inductive Completion where
  | write (commandID : UInt16) (ok : Bool)
  | flush (ok : Bool)
  deriving DecidableEq, Repr

def Completion.ok : Completion → Bool
  | .write _ ok => ok
  | .flush ok => ok

variable (pendingWrites : UInt32)

variable (cs : List Completion)

namespace DurabilityState

def complete : Completion → DurabilityState
  | .write commandID ok => s.completeWrite commandID ok
  | .flush ok => s.completeFlush ok

def submitted : DurabilityState :=
  ⟨.writePlusFlush,pendingWrites,0,false,∅,false⟩

def after : DurabilityState :=
  cs.foldl complete (submitted pendingWrites)

def Completing : Prop :=
  commandID ∉ s.completedCommandIDs ∧ s.completedWrites < s.pendingWrites ∧
    s.pendingWrites ≤ s.completedWrites+1

end DurabilityState

def writtenIDs : Finset UInt16 :=
  (cs.filterMap fun c => match c with
    | .write commandID true => some commandID
    | _ => none).toFinset

/-- What an acknowledgement promises: nothing failed, and a flush completed when
as many distinct write commands as were pending had completed. -/
def Justified : Prop :=
  (∀ c ∈ cs, c.ok) ∧
    ∃ before rest, cs = before++.flush true::rest ∧ pendingWrites.toNat ≤ (writtenIDs before).card

section
variable (cs ds : List Completion)

theorem writtenIDs_append : writtenIDs (cs++ds) = writtenIDs cs ∪ writtenIDs ds := by
  simp [writtenIDs]

theorem writtenIDs_write : writtenIDs [.write commandID true] = {commandID} := rfl

theorem Justified.append {pendingWrites : UInt32} {cs ds : List Completion}
    (h : Justified pendingWrites cs) (hd : ∀ c ∈ ds, c.ok) :
    Justified pendingWrites (cs++ds) := by
  obtain ⟨hok,before,rest,rfl,hle⟩ := h
  refine ⟨?_,before,rest++ds,by simp,hle⟩
  simp only [List.mem_append]
  rintro c (hc | hc)
  · exact hok c (by simpa using hc)
  · exact hd c hc

end

open DurabilityState

structure Tracks (pendingWrites : UInt32) (cs : List Completion) (s : DurabilityState) : Prop where
  mode : s.mode = .writePlusFlush
  pending : s.pendingWrites = pendingWrites
  card : s.completedWrites.toNat = s.completedCommandIDs.card
  le : s.completedWrites.toNat ≤ pendingWrites.toNat
  sub : s.completedCommandIDs ⊆ writtenIDs cs
  all : s.completedWrites.toNat < pendingWrites.toNat → writtenIDs cs ⊆ s.completedCommandIDs
  flush : s.flushCompleted ↔ .flush true ∈ cs
  failed : s.failed ↔ ∃ c ∈ cs, c.ok = false

variable {pendingWrites : UInt32} {cs : List Completion} {s : DurabilityState}

namespace Tracks

theorem submitted : Tracks pendingWrites [] (submitted pendingWrites) := by
  constructor <;> simp [DurabilityState.submitted, writtenIDs]

section
variable (h : Tracks pendingWrites cs s)
include h

theorem fail {c : Completion} (hc : c.ok = false) :
    Tracks pendingWrites (cs++[c]) {s with failed := true} := by
  have hw : writtenIDs (cs++[c]) = writtenIDs cs := by
    rw [writtenIDs_append]
    cases c <;> simp_all [Completion.ok, writtenIDs]
  refine ⟨h.mode,h.pending,h.card,h.le,hw ▸ h.sub,hw ▸ h.all,?_,?_⟩
  · rw [h.flush, List.mem_append, List.mem_singleton]
    refine ⟨.inl,fun hm => hm.resolve_right ?_⟩
    rintro rfl
    cases hc
  · simp only [true_iff]
    exact ⟨c,by simp,hc⟩

theorem flushed : Tracks pendingWrites (cs++[.flush true]) {s with flushCompleted := true} := by
  have hw : writtenIDs (cs++[.flush true]) = writtenIDs cs := by
    rw [writtenIDs_append]
    simp [writtenIDs]
  refine ⟨h.mode,h.pending,h.card,h.le,hw ▸ h.sub,hw ▸ h.all,by simp,?_⟩
  rw [h.failed]
  simp [Completion.ok, or_and_right, exists_or]

theorem written :
    Tracks pendingWrites (cs++[.write commandID true]) (s.completeWrite commandID true) := by
  have hw : writtenIDs (cs++[.write commandID true]) = insert commandID (writtenIDs cs) := by
    rw [writtenIDs_append, writtenIDs_write, union_comm, insert_eq]
  have hflush : s.flushCompleted ↔ .flush true ∈ cs++[.write commandID true] := by
    rw [h.flush]
    simp
  have hfail : s.failed ↔ ∃ c ∈ cs++[.write commandID true], c.ok = false := by
    rw [h.failed]
    simp [Completion.ok, or_and_right, exists_or]
  rw [completeWrite, if_neg (by decide)]
  split_ifs with hmem hlt
  · -- a repeated id changes nothing
    have hin : insert commandID (writtenIDs cs) = writtenIDs cs := insert_eq_self.mpr (h.sub hmem)
    exact ⟨h.mode,h.pending,h.card,h.le,by rw [hw, hin]; exact h.sub,by rw [hw, hin]; exact h.all,
      hflush,hfail⟩
  · have hlt' : s.completedWrites.toNat < pendingWrites.toNat := h.pending ▸ hlt
    have hnext : (s.completedWrites+1).toNat = s.completedWrites.toNat+1 := by
      have := pendingWrites.toNat_lt
      rw [UInt32.toNat_add, toNat_one]
      omega
    refine ⟨h.mode,h.pending,?_,hnext.trans_le hlt',?_,fun _ => ?_,hflush,hfail⟩
    · rw [hnext, card_insert_of_notMem hmem, h.card]
    · rw [hw]
      exact insert_subset_insert _ h.sub
    · rw [hw]
      exact insert_subset_insert _ (h.all hlt')
  · have hge : ¬ s.completedWrites.toNat < pendingWrites.toNat := h.pending ▸ hlt
    exact ⟨h.mode,h.pending,h.card,h.le,by rw [hw]; exact h.sub.trans (subset_insert _ _),
      fun hl => absurd hl hge,hflush,hfail⟩

theorem step (c : Completion) : Tracks pendingWrites (cs++[c]) (s.complete c) := by
  match c with
  | .write commandID true => exact h.written commandID
  | .write commandID false => exact h.fail rfl
  | .flush true => exact h.flushed
  | .flush false => exact h.fail rfl

end

end Tracks

theorem after_append (pendingWrites : UInt32) (cs : List Completion) (c : Completion) :
    after pendingWrites (cs++[c]) = (after pendingWrites cs).complete c := by
  simp [after]

theorem tracks_after (pendingWrites : UInt32) (cs : List Completion) :
    Tracks pendingWrites cs (after pendingWrites cs) := by
  induction cs using List.reverseRecOn with
  | nil => exact .submitted
  | append_singleton cs c ih =>
    rw [after_append]
    exact ih.step c

section
variable (h : Tracks pendingWrites cs s)
include h

theorem Tracks.acknowledged_iff :
    s.acknowledged ↔ s.failed = false ∧ pendingWrites.toNat ≤ s.completedWrites.toNat ∧
      s.flushCompleted := by
  cases hf : s.failed <;> simp [acknowledged, h.mode, h.pending, lt_iff_toNat_lt, hf]

theorem Tracks.failed_append (hf : s.failed)
    (ds : List Completion) : (after pendingWrites (cs++ds)).acknowledged = false := by
  have hds := tracks_after pendingWrites (cs++ds)
  obtain ⟨c,hc,hbad⟩ := h.failed.mp hf
  have hfail := hds.failed.mpr ⟨c,List.mem_append_left _ hc,hbad⟩
  rw [Bool.eq_false_iff, Ne, hds.acknowledged_iff, hfail]
  simp

/-- What makes a state acknowledged: it was before, or this is a flush behind
all the writes, or this is the last write and a flush came earlier. -/
theorem Tracks.acknowledged_step (c : Completion) (ha : (s.complete c).acknowledged) :
    s.acknowledged ∨
    (c = .flush true ∧ pendingWrites.toNat ≤ s.completedWrites.toNat) ∨
    ∃ commandID, c = .write commandID true ∧ s.Completing commandID ∧ s.flushCompleted ∧
      s.failed = false := by
  obtain ⟨hf,hle,hfl⟩ := (h.step c).acknowledged_iff.mp ha
  match c with
  | .write commandID false => cases hf
  | .flush false => cases hf
  | .flush true => exact .inr (.inl ⟨rfl,hle⟩)
  | .write commandID true =>
    simp only [complete, completeWrite, Bool.not_true, Bool.false_eq_true, if_false] at hf hle hfl
    split_ifs at hf hle hfl with hmem hlt
    · exact .inl (h.acknowledged_iff.mpr ⟨hf,hle,hfl⟩)
    · refine .inr (.inr ⟨commandID,rfl,⟨hmem,hlt,?_⟩,hfl,hf⟩)
      rw [le_iff_toNat_le, h.pending]
      exact hle
    · exact .inl (h.acknowledged_iff.mpr ⟨hf,hle,hfl⟩)

theorem Tracks.completing_acknowledged {commandID : UInt16}
    (hc : s.Completing commandID) (hfl : s.flushCompleted) (hf : s.failed = false) :
    (s.complete (.write commandID true)).acknowledged ∧
      ¬ Justified pendingWrites (cs++[.write commandID true]) := by
  obtain ⟨hmem,hlt,hle⟩ := hc
  rw [lt_iff_toNat_lt, h.pending] at hlt
  rw [le_iff_toNat_le, h.pending] at hle
  constructor
  · rw [(h.step _).acknowledged_iff]
    simp only [complete, completeWrite, Bool.not_true, Bool.false_eq_true, if_false, hmem,
      lt_iff_toNat_lt, h.pending, hlt, if_true]
    exact ⟨hf,hle,hfl⟩
  · rintro ⟨-,before,rest,he,hcard⟩
    -- the flush stands before the last write, where one write is still missing
    have hcs : ∃ rest', cs = before++.flush true::rest' := by
      rcases List.eq_nil_or_concat rest with rfl | ⟨rest',c,rfl⟩
      · cases (List.append_inj' he rfl).2
      · have he' : cs++[.write commandID true] = (before++.flush true::rest')++[c] := by
          simpa using he
        exact ⟨rest',(List.append_inj' he' rfl).1⟩
    obtain ⟨rest',hcs⟩ := hcs
    have hsub : writtenIDs before ⊆ writtenIDs cs := by
      rw [hcs, writtenIDs_append]
      exact subset_union_left
    have := card_le_card (hsub.trans (h.all hlt))
    have := h.card
    omega

end

/-- Acknowledgements keep their promise along a whole history, and none follows a
failure, exactly when the last pending write never completes behind a flush
while nothing has failed. -/
theorem acknowledgement_sound_iff (pendingWrites : UInt32) (cs : List Completion) :
    ((∀ n, (after pendingWrites (cs.take n)).acknowledged →
        Justified pendingWrites (cs.take n)) ∧
      ∀ n k, n ≤ k → (after pendingWrites (cs.take n)).failed →
        (after pendingWrites (cs.take k)).acknowledged = false) ↔
    ∀ n commandID, cs[n]? = some (.write commandID true) →
      (after pendingWrites (cs.take n)).Completing commandID →
      (after pendingWrites (cs.take n)).flushCompleted = false ∨
        (after pendingWrites (cs.take n)).failed := by
  constructor
  · intro h n commandID hn hc
    have ht := tracks_after pendingWrites (cs.take n)
    by_contra hcon
    rw [not_or, Bool.not_eq_false, Bool.not_eq_true] at hcon
    obtain ⟨hack,hnot⟩ := ht.completing_acknowledged hc hcon.1 hcon.2
    have htake : cs.take (n+1) = cs.take n++[.write commandID true] := by
      rw [List.take_add_one, hn, Option.toList_some]
    apply hnot
    rw [← htake]
    apply h.1
    rwa [htake, after_append]
  · intro h
    refine ⟨fun n => ?_,fun n k hnk hf => ?_⟩
    · induction n with
      | zero =>
        intro ha
        have ht := tracks_after pendingWrites []
        have := ht.flush.mp (ht.acknowledged_iff.mp ha).2.2
        cases this
      | succ n ih =>
        rw [List.take_add_one]
        cases hn : cs[n]? with
        | none => simpa using ih
        | some c =>
          rw [Option.toList_some, after_append]
          intro ha
          have ht := tracks_after pendingWrites (cs.take n)
          have hok : ∀ d ∈ cs.take n++[c], d.ok := by
            intro d hd
            by_contra hbad
            have hf := (ht.step c).failed.mpr ⟨d,hd,by simpa using hbad⟩
            rw [((ht.step c).acknowledged_iff.mp ha).1] at hf
            cases hf
          rcases ht.acknowledged_step c ha with hold | ⟨rfl,hle⟩ | ⟨commandID,rfl,hc,hfl,hf⟩
          · exact (ih hold).append fun d hd => hok d (List.mem_append_right _ hd)
          · refine ⟨hok,cs.take n,[],rfl,?_⟩
            have := card_le_card ht.sub
            have := ht.card
            omega
          · rcases h n commandID hn hc with h' | h'
            · rw [hfl] at h'
              cases h'
            · rw [hf] at h'
              cases h'
    · have ht := tracks_after pendingWrites (cs.take n)
      have hk : cs.take k = cs.take n++(cs.take k).drop n := by
        conv_lhs => rw [← List.take_append_drop n (cs.take k), List.take_take, min_eq_left hnk]
      rw [hk]
      exact ht.failed_append hf _

/-- A flush that completes before the only write is taken for the one behind it. -/
theorem acknowledged_by_early_flush :
    (after 1 [.flush true, .write 7 true]).acknowledged ∧
      ¬ Justified 1 [.flush true, .write 7 true] :=
  (tracks_after 1 [.flush true]).completing_acknowledged (show (after 1 [.flush true]).Completing 7 from
    ⟨by decide,by decide,by decide⟩) rfl rfl

end Wrela.Nvme

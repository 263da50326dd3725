import Wrela.Storage.Format

/-!
# Relocating blobs

Workers copy a blob and then propose to the writer that its reference be replaced.
A proposal names the reference and the version it was prepared against, and the writer
takes it when both are still current.
-/

set_option autoImplicit false

namespace Wrela.BlobRelocation
open StorageFormat List

structure BlobRef where
  blobID : UInt64
  startLBA : UInt64
  blockCount : UInt64
  deriving DecidableEq, Repr

structure BlobTruth where
  version : UInt64
  ref : BlobRef
  deriving DecidableEq, Repr

structure RelocateBlobProposal where
  blobID : UInt64
  oldRef : BlobRef
  newRef : BlobRef
  observedVersion : UInt64
  deriving DecidableEq, Repr

def BlobTruth.acceptRelocate (t : BlobTruth) (proposal : RelocateBlobProposal) : BlobTruth × Bool :=
  if proposal.blobID ≠ t.ref.blobID then (t,false)
  else if proposal.oldRef ≠ t.ref then (t,false)
  else if proposal.observedVersion ≠ t.version then (t,false)
  else (⟨t.version+1,proposal.newRef⟩,true)

/-- The truth is behind a pointer, which may be nil. The writer itself does not
change. -/
def acceptRelocateBlob (w : WriterPolicy) (truth : Option BlobTruth)
    (proposal : RelocateBlobProposal) : Option BlobTruth × EnqueueResult :=
  match truth with
  | none => (none,⟨false,0,0,w.openBatchSlots,false,"SEM0118"⟩)
  | some t =>
    if (t.acceptRelocate proposal).2 = false then
      (some (t.acceptRelocate proposal).1,⟨false,0,0,w.openBatchSlots,false,"SEM0118"⟩)
    else (some (t.acceptRelocate proposal).1,⟨true,0,0,w.openBatchSlots,false,""⟩)

/-- The proposal was prepared from this truth; the new reference is the
worker's own choice. -/
structure PreparedAgainst (proposal : RelocateBlobProposal) (t : BlobTruth) : Prop where
  blobID : proposal.blobID = t.ref.blobID
  oldRef : proposal.oldRef = t.ref
  observedVersion : proposal.observedVersion = t.version

theorem acceptRelocate_of_prepared {t : BlobTruth} {proposal : RelocateBlobProposal}
    (h : PreparedAgainst proposal t) :
    t.acceptRelocate proposal = (⟨t.version+1,proposal.newRef⟩,true) := by
  simp [BlobTruth.acceptRelocate, h.blobID, h.oldRef, h.observedVersion]

theorem acceptRelocate_cases (t : BlobTruth) (proposal : RelocateBlobProposal) :
    (PreparedAgainst proposal t ∧
      t.acceptRelocate proposal = (⟨t.version+1,proposal.newRef⟩,true)) ∨
    (¬ PreparedAgainst proposal t ∧ t.acceptRelocate proposal = (t,false)) := by
  by_cases h : PreparedAgainst proposal t
  · exact .inl ⟨h,acceptRelocate_of_prepared h⟩
  · refine .inr ⟨h,?_⟩
    unfold BlobTruth.acceptRelocate
    split_ifs with hid href hversion
    · rfl
    · rfl
    · rfl
    · exact absurd ⟨not_not.mp hid,not_not.mp href,not_not.mp hversion⟩ h

/-! ## Histories -/

section
variable (w : WriterPolicy)

def submit (t : BlobTruth) (proposal : RelocateBlobProposal) : BlobTruth :=
  (acceptRelocateBlob w (some t) proposal).1.getD t

def accepts (t : BlobTruth) (proposal : RelocateBlobProposal) : Bool :=
  (acceptRelocateBlob w (some t) proposal).2.accepted

def truthAt (t : BlobTruth) (history : List RelocateBlobProposal) (n : ℕ) : BlobTruth :=
  (history.take n).foldl (submit w) t

def AcceptedAt (t : BlobTruth) (history : List RelocateBlobProposal) (n : ℕ)
    (proposal : RelocateBlobProposal) : Prop :=
  history[n]? = some proposal ∧ accepts w (truthAt w t history n) proposal

def acceptances : BlobTruth → List RelocateBlobProposal → ℕ
  | _, [] => 0
  | t, proposal::history =>
    (if accepts w t proposal then 1 else 0)+acceptances (submit w t proposal) history

structure SafeHistory (t : BlobTruth) (history : List RelocateBlobProposal) : Prop where
  once_per_version : ∀ i j p q, i < j → AcceptedAt w t history i p → AcceptedAt w t history j q →
    p.observedVersion ≠ q.observedVersion
  version_counts : ∀ n, (truthAt w t history n).version.toNat =
    t.version.toNat+acceptances w t (history.take n)
  stale_rejected : ∀ k i j p q, k ≤ i → i < j → PreparedAgainst q (truthAt w t history k) →
    AcceptedAt w t history i p → ¬ AcceptedAt w t history j q
  same_blob : ∀ n, (truthAt w t history n).ref.blobID = t.ref.blobID

variable {w} {t : BlobTruth} {history : List RelocateBlobProposal} {proposal : RelocateBlobProposal}
  {n : ℕ}

theorem accepts_eq : accepts w t proposal = (t.acceptRelocate proposal).2 := by
  unfold accepts acceptRelocateBlob
  cases h : (t.acceptRelocate proposal).2 with
  | false => simp [h]
  | true => simp [h]

theorem submit_eq : submit w t proposal = (t.acceptRelocate proposal).1 := by
  unfold submit acceptRelocateBlob
  cases h : (t.acceptRelocate proposal).2 with
  | false => simp [h]
  | true => simp [h]

theorem accepts_iff : accepts w t proposal ↔ PreparedAgainst proposal t := by
  rw [accepts_eq]
  obtain ⟨h,he⟩ | ⟨h,he⟩ := acceptRelocate_cases t proposal
  · simp [he, h]
  · simp [he, h]

theorem submit_accepted (h : accepts w t proposal) :
    submit w t proposal = ⟨t.version+1,proposal.newRef⟩ := by
  rw [submit_eq, acceptRelocate_of_prepared (accepts_iff.mp h)]

theorem submit_rejected (h : accepts w t proposal = false) : submit w t proposal = t := by
  rw [submit_eq]
  obtain ⟨hp,_⟩ | ⟨_,he⟩ := acceptRelocate_cases t proposal
  · rw [accepts_iff.mpr hp] at h
    cases h
  · rw [he]

theorem truthAt_succ (h : history[n]? = some proposal) :
    truthAt w t history (n+1) = submit w (truthAt w t history n) proposal := by
  rw [truthAt, take_add_one, h, Option.toList_some, foldl_append]
  rfl

theorem truthAt_end (h : history[n]? = none) : truthAt w t history (n+1) = truthAt w t history n := by
  have hn : history.length ≤ n := List.getElem?_eq_none_iff.mp h
  rw [truthAt, truthAt, take_of_length_le hn, take_of_length_le (by omega)]

theorem acceptances_append (t : BlobTruth) (first second : List RelocateBlobProposal) :
    acceptances w t (first++second) =
      acceptances w t first+acceptances w (first.foldl (submit w) t) second := by
  induction first generalizing t with
  | nil => simp [acceptances]
  | cons p first ih => rw [cons_append, acceptances, acceptances, ih, foldl_cons, add_assoc]

theorem acceptances_take_succ (h : history[n]? = some proposal) :
    acceptances w t (history.take (n+1)) = acceptances w t (history.take n)+
      if accepts w (truthAt w t history n) proposal then 1 else 0 := by
  rw [take_add_one, h, Option.toList_some, acceptances_append]
  rfl

variable (w t history) in
theorem acceptances_take_le (n : ℕ) : acceptances w t (history.take n) ≤ acceptances w t history := by
  have happend := acceptances_append (w := w) t (history.take n) (history.drop n)
  rw [take_append_drop] at happend
  omega

theorem version_counts_of_lt (h : t.version.toNat+acceptances w t history < 2^64) (n : ℕ) :
    (truthAt w t history n).version.toNat = t.version.toNat+acceptances w t (history.take n) := by
  induction n with
  | zero => rfl
  | succ n ih =>
    cases hp : history[n]? with
    | none =>
      have hn : history.length ≤ n := List.getElem?_eq_none_iff.mp hp
      rw [truthAt_end hp, ih, take_of_length_le hn, take_of_length_le (by omega)]
    | some p =>
      have hbound := acceptances_take_le w t history (n+1)
      rw [acceptances_take_succ hp] at hbound ⊢
      rw [truthAt_succ hp]
      cases ha : accepts w (truthAt w t history n) p with
      | false => rw [submit_rejected ha, ih, if_neg (by simp), add_zero]
      | true =>
        rw [ha, if_pos rfl] at hbound
        have hnext := UInt64.toNat_add (truthAt w t history n).version 1
        have hone : (1 : UInt64).toNat = 1 := rfl
        rw [submit_accepted ha, if_pos rfl]
        change ((truthAt w t history n).version+1).toNat = _
        omega

/-- Every acceptance raises the version, so that of a later state is higher. -/
theorem version_lt_of_accepted (h : t.version.toNat+acceptances w t history < 2^64) {k i j : ℕ}
    {p : RelocateBlobProposal} (hk : k ≤ i) (hij : i < j) (hp : AcceptedAt w t history i p) :
    (truthAt w t history k).version.toNat < (truthAt w t history j).version.toNat := by
  have hmono : ∀ a b, a ≤ b →
      acceptances w t (history.take a) ≤ acceptances w t (history.take b) := by
    intro a b hab
    have := acceptances_take_le w t (history.take b) a
    rwa [take_take, Nat.min_eq_left hab] at this
  have hki := hmono k i hk
  have hij' := hmono (i+1) j hij
  have hstep := acceptances_take_succ (w := w) (t := t) hp.1
  rw [hp.2, if_pos rfl] at hstep
  rw [version_counts_of_lt h, version_counts_of_lt h]
  omega

theorem same_blob_of_kept (h : ∀ n p, AcceptedAt w t history n p → p.newRef.blobID = p.blobID)
    (n : ℕ) : (truthAt w t history n).ref.blobID = t.ref.blobID := by
  induction n with
  | zero => rfl
  | succ n ih =>
    cases hp : history[n]? with
    | none => rw [truthAt_end hp, ih]
    | some p =>
      rw [truthAt_succ hp]
      cases ha : accepts w (truthAt w t history n) p with
      | false => rw [submit_rejected ha, ih]
      | true =>
        rw [submit_accepted ha, ← ih, ← (accepts_iff.mp ha).blobID]
        exact h n p ⟨hp,ha⟩

end

/-- A history is safe exactly when the accepted proposals keep to the blob they
name and the version counter does not wrap. -/
theorem relocation_safe_iff (w : WriterPolicy) (t : BlobTruth) (history : List RelocateBlobProposal) :
    SafeHistory w t history ↔
      (∀ n p, AcceptedAt w t history n p → p.newRef.blobID = p.blobID) ∧
        t.version.toNat+acceptances w t history < 2^64 := by
  constructor
  · intro hsafe
    refine ⟨fun n p hp => ?_,?_⟩
    · have hafter := hsafe.same_blob (n+1)
      rw [truthAt_succ hp.1, submit_accepted hp.2, ← hsafe.same_blob n] at hafter
      exact hafter.trans (accepts_iff.mp hp.2).blobID.symm
    · have hcount := hsafe.version_counts history.length
      rw [take_length] at hcount
      rw [← hcount]
      exact UInt64.toNat_lt _
  · rintro ⟨hkeep,hbound⟩
    refine ⟨fun i j p q hij hp hq heq => ?_,version_counts_of_lt hbound,
      fun k i j p q hki hij hprep hp hq => ?_,same_blob_of_kept hkeep⟩
    · have hlt := version_lt_of_accepted hbound (Nat.le_refl i) hij hp
      rw [← (accepts_iff.mp hp.2).observedVersion, ← (accepts_iff.mp hq.2).observedVersion, heq] at hlt
      exact absurd hlt (Nat.lt_irrefl _)
    · have hlt := version_lt_of_accepted hbound hki hij hp
      rw [← hprep.observedVersion, ← (accepts_iff.mp hq.2).observedVersion] at hlt
      exact absurd hlt (Nat.lt_irrefl _)

def strayProposal : RelocateBlobProposal := ⟨9,⟨9,20,2⟩,⟨10,30,2⟩,0⟩

/-- A proposal for blob 9 whose new reference is one of blob 10 is accepted. -/
theorem relocation_changes_blob :
    PreparedAgainst strayProposal ⟨0,⟨9,20,2⟩⟩ ∧
    AcceptedAt ⟨0,0,0,0⟩ ⟨0,⟨9,20,2⟩⟩ [strayProposal] 0 strayProposal ∧
    (truthAt ⟨0,0,0,0⟩ ⟨0,⟨9,20,2⟩⟩ [strayProposal] 1).ref.blobID = 10 ∧
    ¬ SafeHistory ⟨0,0,0,0⟩ ⟨0,⟨9,20,2⟩⟩ [strayProposal] := by
  refine ⟨⟨rfl,rfl,rfl⟩,⟨rfl,by decide⟩,by decide,fun h => ?_⟩
  exact absurd (h.same_blob 1) (by decide)

end Wrela.BlobRelocation

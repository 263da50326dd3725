import Wrela.KeyedSearch
import Wrela.Storage.BlobRelocation
import Wrela.Storage.FreeExtents

/-!
# Collecting orphans

The collector keeps its marks by extent: two references with one extent share a mark.
-/

set_option autoImplicit false

namespace Wrela.Orphans
open FreeExtents BlobRelocation IntervalList List KeyedFold

def extentOf (ref : BlobRef) : Extent := ⟨ref.startLBA,ref.blockCount⟩

structure OrphanCollector where
  allocated : List Extent
  acknowledgedRefs : Extent → Bool

def newOrphanCollector (allocated : List Extent) : OrphanCollector := ⟨allocated,fun _ => false⟩

variable (c : OrphanCollector)

def OrphanCollector.markAcknowledged (ref : BlobRef) : OrphanCollector :=
  {c with acknowledgedRefs := Function.update c.acknowledgedRefs (extentOf ref) true}

def OrphanCollector.markUnacknowledged (ref : BlobRef) : OrphanCollector :=
  {c with acknowledgedRefs := Function.update c.acknowledgedRefs (extentOf ref) false}

def OrphanCollector.reclaimable : List Extent :=
  c.allocated.filter fun extent => !c.acknowledgedRefs extent

inductive Mark where
  | acknowledged (ref : BlobRef)
  | unacknowledged (ref : BlobRef)
  deriving DecidableEq, Repr

def Mark.ref : Mark → BlobRef
  | .acknowledged ref => ref
  | .unacknowledged ref => ref

def Mark.acknowledges : Mark → Bool
  | .acknowledged _ => true
  | .unacknowledged _ => false

def OrphanCollector.mark : Mark → OrphanCollector
  | .acknowledged ref => c.markAcknowledged ref
  | .unacknowledged ref => c.markUnacknowledged ref

def collected (allocated : List Extent) (marks : List Mark) : OrphanCollector :=
  marks.foldl OrphanCollector.mark (newOrphanCollector allocated)

/-- The reference's own latest mark is an acknowledgement. -/
def Live (marks : List Mark) (ref : BlobRef) : Prop :=
  (under Mark.ref ref marks).getLast? = some (.acknowledged ref)

instance (marks : List Mark) (ref : BlobRef) : Decidable (Live marks ref) :=
  inferInstanceAs (Decidable (_ = _))

def Touches (extent : Extent) (ref : BlobRef) : Prop :=
  ∃ block, Has extent.blocks block ∧ Has (extentOf ref).blocks block

/-! ## The marks of an extent -/

theorem mark_eq (m : Mark) :
    c.mark m = ⟨c.allocated,step (fun m => extentOf m.ref)
      (fun _ m => m.acknowledges) c.acknowledgedRefs m⟩ := by
  cases m <;> rfl

theorem foldl_mark (marks : List Mark) (c : OrphanCollector) :
    marks.foldl OrphanCollector.mark c = ⟨c.allocated,marks.foldl
      (step (fun m => extentOf m.ref) fun _ m => m.acknowledges)
      c.acknowledgedRefs⟩ := by
  induction marks generalizing c with
  | nil => rfl
  | cons m marks ih => rw [foldl_cons, ih, mark_eq, foldl_cons]

variable {marks : List Mark} {allocated : List Extent}

theorem mem_reclaimable {extent : Extent} :
    extent ∈ (collected allocated marks).reclaimable ↔ extent ∈ allocated ∧
      (((under (fun m => extentOf m.ref) extent marks).getLast?.map
        Mark.acknowledges).getD false) = false := by
  simp only [collected, OrphanCollector.reclaimable, foldl_mark, mem_filter,
    foldl_step, foldl_overwrite, Bool.not_eq_true']
  rfl

theorem Live.mem {ref : BlobRef} (h : Live marks ref) : ∃ m ∈ marks, m.ref = ref := by
  have hm := mem_of_getLast? h
  rw [under, mem_filter, decide_eq_true_eq] at hm
  exact ⟨_,hm⟩

theorem not_reclaimable {ref : BlobRef}
    (hlive : Live marks ref) (hown : ∀ m ∈ marks, extentOf m.ref = extentOf ref → m.ref = ref) :
    extentOf ref ∉ (collected allocated marks).reclaimable := by
  have hunder : under (fun m => extentOf m.ref) (extentOf ref) marks =
      under Mark.ref ref marks := by
    apply filter_congr
    intro m hm
    rw [decide_eq_decide]
    exact ⟨hown m hm,congrArg extentOf⟩
  rw [mem_reclaimable, hunder, hlive]
  rintro ⟨_,h⟩
  cases h

/-- For the references of a set, no run of marks makes the collector report an
extent with a block of a live one exactly if each reference that touches an
allocated extent is a reference to that extent, and the only one. -/
theorem reclaims_no_live_block_iff (allocated : List Extent) (refs : Set BlobRef) :
    (∀ marks : List Mark, (∀ m ∈ marks, m.ref ∈ refs) →
      ∀ extent ∈ (collected allocated marks).reclaimable, ∀ ref, Live marks ref →
        ¬ Touches extent ref) ↔
    ∀ ref ∈ refs, ∀ extent ∈ allocated, Touches extent ref →
      extentOf ref = extent ∧ ∀ other ∈ refs, extentOf other = extent → other = ref := by
  constructor
  · intro h ref href extent hextent htouches
    have hsame : extentOf ref = extent := by
      by_contra hne
      refine h [.acknowledged ref] (by simpa [Mark.ref] using href) extent ?_ ref ?_ htouches
      · simp [mem_reclaimable, hextent, under, Mark.ref, hne]
      · simp [Live, under, Mark.ref]
    refine ⟨hsame,fun other hother hextents => ?_⟩
    by_contra hne
    -- the other reference takes the acknowledgement back
    refine h [.acknowledged ref,.unacknowledged other] ?_ extent ?_ ref ?_ htouches
    · simpa [Mark.ref] using ⟨href,hother⟩
    · simp [mem_reclaimable, hextent, under, Mark.ref, hsame, hextents, Mark.acknowledges]
    · simp [Live, under, Mark.ref, hne]
  · intro h marks hmarks extent hextent ref hlive htouches
    obtain ⟨m,hm,rfl⟩ := hlive.mem
    obtain ⟨hsame,hown⟩ := h m.ref (hmarks m hm) extent (mem_reclaimable.mp hextent).1 htouches
    rw [← hsame] at hextent
    refine not_reclaimable hlive (fun other hother hextents => ?_) hextent
    exact hown other.ref (hmarks other hother) (hextents.trans hsame)

/-- The acknowledged blob 1 loses its extent to the mark of blob 2. -/
theorem reclaims_shared_extent :
    ⟨10,2⟩ ∈ (collected [⟨10,2⟩] [.acknowledged ⟨1,10,2⟩,.unacknowledged ⟨2,10,2⟩]).reclaimable ∧
    Live [.acknowledged ⟨1,10,2⟩,.unacknowledged ⟨2,10,2⟩] ⟨1,10,2⟩ ∧
    Touches ⟨10,2⟩ ⟨1,10,2⟩ :=
  ⟨by decide,by decide,10,⟨by decide,by decide⟩,by decide,by decide⟩

end Wrela.Orphans

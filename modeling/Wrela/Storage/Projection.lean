import Wrela.KeyedSearch
import Wrela.Storage.BlobRelocation

/-!
# Replaying file events

Every event of a file writes some fields of the state of the file, so what replaying
gives depends on the order of the events of each file only.
-/

set_option autoImplicit false

namespace Wrela.Projection
open BlobRelocation

structure CommittedGroup where
  lastEventID : UInt64
  deriving DecidableEq, Repr

structure Event where
  typeID : UInt32
  fileID : UInt64
  parentID : UInt64
  nameRef : UInt64
  blobRef : BlobRef
  streamSequence : UInt64
  deriving DecidableEq, Repr

structure FileState where
  currentBlobRef : BlobRef := ⟨0,0,0⟩
  nameRef : UInt64 := 0
  parentID : UInt64 := 0
  deleted : Bool := false
  streamSequence : UInt64 := 0
  deriving DecidableEq, Repr

/-- The map of files may be nil. -/
structure DirectoryProjection where
  files : Option (UInt64 → Option FileState)
  watermark : UInt64

def applyEvent (entry : Option FileState) (event : Event) : Option FileState :=
  let state := entry.getD {}
  if event.typeID = 1001 then
    some {state with
      parentID := event.parentID, nameRef := event.nameRef, currentBlobRef := event.blobRef,
      deleted := false, streamSequence := event.streamSequence}
  else if event.typeID = 1002 then
    some {state with
      parentID := event.parentID, nameRef := event.nameRef,
      streamSequence := event.streamSequence}
  else if event.typeID = 1003 then
    some {state with currentBlobRef := event.blobRef, streamSequence := event.streamSequence}
  else if event.typeID = 1004 then
    some {state with deleted := true, streamSequence := event.streamSequence}
  else entry

variable (p : DirectoryProjection)

def DirectoryProjection.fileTable : UInt64 → Option FileState :=
  p.files.getD fun _ => none

def DirectoryProjection.applyGroup (group : CommittedGroup)
    (events : List Event) : DirectoryProjection :=
  ⟨some (events.foldl (KeyedFold.step Event.fileID applyEvent) p.fileTable),group.lastEventID⟩

abbrev Stream := List (CommittedGroup × List Event)

variable (groups : Stream)

def DirectoryProjection.replay : DirectoryProjection :=
  groups.foldl (fun p g => p.applyGroup g.1 g.2) p

def Stream.eventsOf (fileID : UInt64) : List Event :=
  KeyedFold.under Event.fileID fileID (groups.map Prod.snd).flatten

theorem replay_fileTable (p : DirectoryProjection) :
    (p.replay groups).fileTable =
      (groups.map Prod.snd).flatten.foldl (KeyedFold.step Event.fileID applyEvent) p.fileTable := by
  induction groups generalizing p with
  | nil => rfl
  | cons g groups ih =>
    rw [List.map_cons, List.flatten_cons, List.foldl_append]
    exact ih (p.applyGroup g.1 g.2)

theorem replay_file (p : DirectoryProjection) (fileID : UInt64) :
    (p.replay groups).fileTable fileID =
      (groups.eventsOf fileID).foldl applyEvent (p.fileTable fileID) := by
  rw [replay_fileTable, KeyedFold.foldl_step, Stream.eventsOf]

theorem replay_depends_on_file_order (groups other : Stream)
    (h : ∀ fileID, groups.eventsOf fileID = other.eventsOf fileID) (p : DirectoryProjection) :
    (p.replay groups).fileTable = (p.replay other).fileTable := by
  funext fileID
  rw [replay_file, replay_file, h]

/-- A group of events of two files, and the same events in three groups with the
second file first. -/
theorem replay_two_files : ∃ create other delete : Event,
    create.fileID = delete.fileID ∧ create.fileID ≠ other.fileID ∧
    (DirectoryProjection.replay ⟨none,0⟩ [(⟨9⟩,[create,other,delete])]).fileTable =
      (DirectoryProjection.replay ⟨none,0⟩
        [(⟨4⟩,[other]),(⟨5⟩,[]),(⟨6⟩,[create,delete])]).fileTable := by
  refine ⟨⟨1001,7,1,5,⟨3,10,2⟩,1⟩,⟨1001,8,1,6,⟨4,20,2⟩,1⟩,⟨1004,7,0,0,⟨0,0,0⟩,2⟩,rfl,by decide,?_⟩
  apply replay_depends_on_file_order
  intro fileID
  by_cases h : fileID = 7
  · subst h
    decide
  · by_cases h' : fileID = 8
    · subst h'
      decide
    · simp [Stream.eventsOf, KeyedFold.under, Ne.symm h, Ne.symm h']

end Wrela.Projection

import Wrela.Storage.Durability

/-!
# The open batch

A ledger records, beside the writer, the groups it accepted and the submitted batches.
Ids are recorded as positions in the log, so the ledger is not disturbed when the writer's
counter wraps.
-/

set_option autoImplicit false

namespace Wrela.BatchAccounting
open StorageFormat Transition List Option Nat

structure Group where
  first : ℕ
  semanticSlots : ℕ
  slots : ℕ
  deriving DecidableEq, Repr

structure Batch where
  first : ℕ
  last : ℕ
  deriving DecidableEq, Repr

structure Ledger where
  writer : WriterPolicy
  nextID : ℕ
  accepted : List Group
  pending : List Group
  batches : List Batch
  deriving DecidableEq, Repr

inductive Event where
  | enqueue (semanticSlots reservedEmptySlots : UInt64)
  | submit
  | completion (batch : ℕ) (token : CommitToken)
  deriving DecidableEq, Repr

def Group.last (g : Group) : ℕ := g.first+g.semanticSlots-1

def batchOf (groups : List Group) : Option Batch :=
  match groups.head?, groups.getLast? with
  | some g, some g' => some ⟨g.first,g'.last⟩
  | _, _ => none

def slotsOf (groups : List Group) : ℕ := (groups.map Group.slots).sum

def above (last : ℕ) (groups : List Group) : List Group := groups.filter fun g => last < g.first

variable (l : Ledger)

/-- A group that did not fit makes the writer start over with it, and the groups
pending so far are submitted. -/
def Ledger.enqueue (s r : UInt64) : Ledger :=
  let result := l.writer.enqueueAtomicGroupWithReserved s r
  let g : Group := ⟨l.nextID,s.toNat,s.toNat+r.toNat⟩
  if result.2.accepted = false then {l with writer := result.1}
  else if result.1.openBatchSlots.toNat = l.writer.openBatchSlots.toNat+g.slots then
    ⟨result.1,l.nextID+g.slots,l.accepted++[g],l.pending++[g],l.batches⟩
  else ⟨result.1,l.nextID+g.slots,l.accepted++[g],[g],l.batches++(batchOf l.pending).toList⟩

def Ledger.submit : Option Ledger :=
  (batchOf l.pending).map fun b => {l with pending := [], batches := l.batches++[b]}

/-- The token of a completion carries the id range of its batch. -/
def Ledger.complete (k : ℕ) (token : CommitToken) : Option Ledger :=
  match l.batches[k]? with
  | none => none
  | some b =>
    if token.firstEventID = UInt64.ofNat b.first ∧ token.lastEventID = UInt64.ofNat b.last ∧
        token.batchSubmitted then
      some {l with
        writer := (l.writer.onDurabilityCompleted token).1
        batches := if token.acknowledged then l.batches.eraseIdx k else l.batches}
    else none

def Ledger.step : Event → Option Ledger
  | .enqueue s r => some (l.enqueue s r)
  | .submit => l.submit
  | .completion k token => l.complete k token

def start (w : WriterPolicy) : Ledger := ⟨w,w.nextEventID.toNat,[],[],[]⟩

/-- After an acknowledged completion the open batch counts every group that lies
above the completed batch. -/
def StillIncluded (e : Event) (l' : Ledger) : Prop :=
  match e with
  | .completion k token => token.acknowledged → ∀ b, l.batches[k]? = some b →
      slotsOf (above b.last l'.accepted) ≤ l'.writer.openBatchSlots.toNat
  | _ => True

/-- No accepted group lies above a batch when its completion is acknowledged. -/
def NothingAbove (e : Event) : Prop :=
  match e with
  | .completion k token => token.acknowledged → ∀ b, l.batches[k]? = some b →
      ∀ g ∈ l.accepted, g.first ≤ b.last
  | _ => True

/-! ## What holds in every run -/

theorem batchOf_eq_some {groups : List Group} {b : Batch} (h : batchOf groups = some b) :
    ∃ g ∈ groups, b.last = g.last := by
  unfold batchOf at h
  split at h
  · rename_i g g' _ hlast
    cases h
    exact ⟨g',mem_of_getLast? hlast,rfl⟩
  · cases h

theorem slotsOf_append (gs gs' : List Group) : slotsOf (gs++gs') = slotsOf gs+slotsOf gs' := by
  rw [slotsOf, map_append, List.sum_append, slotsOf, slotsOf]

theorem slotsOf_singleton (g : Group) : slotsOf [g] = g.slots := by
  rw [slotsOf, map_singleton, sum_singleton]

theorem slotsOf_eq_zero {gs : List Group} (hpos : ∀ g ∈ gs, 1 ≤ g.slots) (h : slotsOf gs = 0) :
    gs = [] := by
  cases gs with
  | nil => rfl
  | cons g gs =>
    have := hpos g (by simp)
    simp only [slotsOf, map_cons, sum_cons] at h
    omega

/-- The order of ids in the ledger: batches lie below the groups that are pending,
and everything lies below the next id. -/
structure Ordered (l : Ledger) : Prop where
  reported : l.writer.nextEventID = UInt64.ofNat l.nextID
  open_le : l.writer.openBatchSlots.toNat ≤ storageMaxBatchSlots.toNat
  non_empty : ∀ g ∈ l.accepted, 1 ≤ g.slots
  pending_accepted : ∀ g ∈ l.pending, g ∈ l.accepted
  pending_below : ∀ g ∈ l.pending, g.last < l.nextID
  batch_below : ∀ b ∈ l.batches, b.last < l.nextID
  batch_below_pending : ∀ b ∈ l.batches, ∀ g ∈ l.pending, b.last < g.first

variable {l : Ledger} {w : WriterPolicy} {token : CommitToken} {g : Group} {l' : Ledger} {k : ℕ}
  {e : Event}

theorem start_ordered (hopen : w.openBatchSlots ≤ storageMaxBatchSlots) : Ordered (start w) := by
  refine ⟨UInt64.ofNat_toNat.symm,UInt64.le_iff_toNat_le.mp hopen,?_,?_,?_,?_,?_⟩
  all_goals exact fun _ h => absurd h not_mem_nil

theorem batchAfter_le {slots consumed : UInt64} (ho : slots.toNat ≤ storageMaxBatchSlots.toNat)
    (hc : consumed ≤ storageMaxBatchSlots) :
    ((batchAfter slots consumed).1.toNat = slots.toNat+consumed.toNat ∨
      (batchAfter slots consumed).1 = consumed) ∧
    (batchAfter slots consumed).1.toNat ≤ storageMaxBatchSlots.toNat := by
  have hmax : storageMaxBatchSlots.toNat = 72 := rfl
  have htarget : storageTargetBatchSlots.toNat = 64 := rfl
  have hsum := UInt64.toNat_add slots consumed
  rw [UInt64.le_iff_toNat_le] at hc
  unfold batchAfter
  split_ifs with hlow hfull
  · rw [UInt64.lt_iff_toNat_lt] at hlow
    exact ⟨.inl (by simp only; omega),by simp only; omega⟩
  · rw [UInt64.le_iff_toNat_le] at hfull
    exact ⟨.inl (by simp only; omega),by simp only; omega⟩
  · exact ⟨.inr rfl,hc⟩

structure Taken (l : Ledger) (w : WriterPolicy) (g : Group) : Prop where
  first : g.first = l.nextID
  semantic_pos : 1 ≤ g.semanticSlots
  semantic_le : g.semanticSlots ≤ g.slots
  next : w.nextEventID = l.writer.nextEventID+UInt64.ofNat g.slots
  open_le : w.openBatchSlots.toNat ≤ storageMaxBatchSlots.toNat

theorem enqueue_cases (ho : l.writer.openBatchSlots.toNat ≤ storageMaxBatchSlots.toNat)
    (s r : UInt64) :
    l.enqueue s r = l ∨ ∃ w g, Taken l w g ∧
      ((l.enqueue s r = ⟨w,l.nextID+g.slots,l.accepted++[g],l.pending++[g],l.batches⟩ ∧
          w.openBatchSlots.toNat = l.writer.openBatchSlots.toNat+g.slots) ∨
        (l.enqueue s r = ⟨w,l.nextID+g.slots,l.accepted++[g],[g],
            l.batches++(batchOf l.pending).toList⟩ ∧ w.openBatchSlots.toNat = g.slots)) := by
  simp only [Ledger.enqueue]
  cases h : (l.writer.enqueueAtomicGroupWithReserved s r).2.accepted with
  | false =>
    rw [if_pos rfl, enqueue_rejected l.writer s r h]
    exact .inl rfl
  | true =>
    obtain ⟨hpos,_,hnext,hsum,_,_⟩ := enqueue_accepted l.writer s r h
    obtain ⟨hslots,_,hconsumed⟩ := enqueue_batch l.writer s r h
    obtain ⟨hbatch,hle⟩ := batchAfter_le ho hconsumed
    rw [← hslots] at hbatch hle
    refine .inr ⟨(l.writer.enqueueAtomicGroupWithReserved s r).1,
      ⟨l.nextID,s.toNat,s.toNat+r.toNat⟩,⟨rfl,hpos,le_add_right _ _,?_,hle⟩,?_⟩
    · rw [hnext, ← hsum, UInt64.ofNat_toNat]
    · rw [if_neg (by simp)]
      split_ifs with hgrows
      · exact .inl ⟨rfl,hgrows⟩
      · refine .inr ⟨rfl,?_⟩
        rw [hsum] at hbatch
        rw [hbatch.resolve_left hgrows, hsum]

theorem Taken.reported (h : Taken l w g)
    (hl : Ordered l) : w.nextEventID = UInt64.ofNat (l.nextID+g.slots) := by
  rw [h.next, hl.reported, UInt64.ofNat_add]

theorem Taken.non_empty (h : Taken l w g)
    (hl : Ordered l) : ∀ x ∈ l.accepted++[g], 1 ≤ x.slots := by
  intro x hx
  obtain hx | hx := mem_append.mp hx
  · exact hl.non_empty x hx
  · rw [mem_singleton.mp hx]
    exact Nat.le_trans h.semantic_pos h.semantic_le

theorem Taken.last_lt (h : Taken l w g) : g.last < l.nextID+g.slots := by
  have hpos := h.semantic_pos
  have hle := h.semantic_le
  rw [Group.last, h.first]
  omega

theorem Ordered.enqueue (hl : Ordered l) (s r : UInt64) : Ordered (l.enqueue s r) := by
  obtain he | ⟨w,g,hg,⟨he,_⟩ | ⟨he,_⟩⟩ := enqueue_cases hl.open_le s r
  · rwa [he]
  · -- the group joins those pending
    rw [he]
    refine ⟨hg.reported hl,hg.open_le,hg.non_empty hl,?_,?_,?_,?_⟩
    · intro x hx
      obtain hx | hx := mem_append.mp hx
      · exact mem_append_left _ (hl.pending_accepted x hx)
      · exact mem_append_right _ hx
    · intro x hx
      obtain hx | hx := mem_append.mp hx
      · exact Nat.lt_add_right _ (hl.pending_below x hx)
      · rw [mem_singleton.mp hx]
        exact hg.last_lt
    · exact fun b hb => Nat.lt_add_right _ (hl.batch_below b hb)
    · intro b hb x hx
      obtain hx | hx := mem_append.mp hx
      · exact hl.batch_below_pending b hb x hx
      · rw [mem_singleton.mp hx, hg.first]
        exact hl.batch_below b hb
  · -- the groups pending so far are a batch below the new group
    have hbatches : ∀ b ∈ l.batches++(batchOf l.pending).toList, b.last < l.nextID := by
      intro b hb
      obtain hb | hb := mem_append.mp hb
      · exact hl.batch_below b hb
      · obtain ⟨x,hx,hlast⟩ := batchOf_eq_some (mem_toList.mp hb)
        exact hlast ▸ hl.pending_below x hx
    rw [he]
    refine ⟨hg.reported hl,hg.open_le,hg.non_empty hl,?_,?_,?_,?_⟩
    · exact fun x hx => mem_append_right _ hx
    · intro x hx
      rw [mem_singleton.mp hx]
      exact hg.last_lt
    · exact fun b hb => Nat.lt_add_right _ (hbatches b hb)
    · intro b hb x hx
      rw [mem_singleton.mp hx, hg.first]
      exact hbatches b hb

theorem Ordered.submit {l : Ledger} (hl : Ordered l) (h : l.submit = some l') : Ordered l' := by
  obtain ⟨b,hb,rfl⟩ := map_eq_some_iff.mp h
  refine ⟨hl.reported,hl.open_le,hl.non_empty,?_,?_,?_,?_⟩
  · exact fun g hg => absurd hg not_mem_nil
  · exact fun g hg => absurd hg not_mem_nil
  · intro b' hb'
    obtain hb' | hb' := mem_append.mp hb'
    · exact hl.batch_below b' hb'
    · cases mem_singleton.mp hb'
      obtain ⟨g,hg,hlast⟩ := batchOf_eq_some hb
      exact hlast ▸ hl.pending_below g hg
  · exact fun b' _ g hg => absurd hg not_mem_nil

theorem completed_open (hb : token.batchSubmitted)
    (h : token.acknowledged) : (w.onDurabilityCompleted token).1.openBatchSlots = 0 := by
  simp [WriterPolicy.onDurabilityCompleted, h, hb]

theorem completed_next (w : WriterPolicy) (token : CommitToken) :
    (w.onDurabilityCompleted token).1.nextEventID = w.nextEventID := by
  unfold WriterPolicy.onDurabilityCompleted
  split_ifs <;> rfl

/-- A failed completion changes nothing, and an acknowledged one drops the batch
and clears the count of the open one; groups and ids stay. -/
theorem complete_cases {l : Ledger} (h : l.complete k token = some l') :
    (token.acknowledged = false ∧ l' = l) ∨
    ∃ w b, token.acknowledged ∧ l.batches[k]? = some b ∧ w.openBatchSlots = 0 ∧
      w.nextEventID = l.writer.nextEventID ∧
      l' = {l with writer := w, batches := l.batches.eraseIdx k} := by
  unfold Ledger.complete at h
  split at h
  · cases h
  · rename_i b hb
    obtain ⟨⟨_,_,hsubmitted⟩,he⟩ := ite_none_right_eq_some.mp h
    cases hack : token.acknowledged with
    | false =>
      refine .inl ⟨rfl,?_⟩
      rw [← some.inj he, hack, Durability.failed_completion _ _ hack]
      rfl
    | true =>
      refine .inr ⟨(l.writer.onDurabilityCompleted token).1,b,rfl,hb,
        completed_open hsubmitted hack,completed_next _ _,?_⟩
      rw [← some.inj he, hack]
      rfl

theorem Ordered.complete {l : Ledger} (hl : Ordered l)
    (h : l.complete k token = some l') : Ordered l' := by
  obtain ⟨_,rfl⟩ | ⟨w,_,_,_,hopen,hnext,rfl⟩ := complete_cases h
  · exact hl
  · refine ⟨hnext.trans hl.reported,?_,hl.non_empty,hl.pending_accepted,hl.pending_below,?_,?_⟩
    · simp only [hopen]
      exact zero_le _
    · exact fun b hb => hl.batch_below b (mem_of_mem_eraseIdx hb)
    · exact fun b hb => hl.batch_below_pending b (mem_of_mem_eraseIdx hb)

theorem Ordered.step {l : Ledger} (hl : Ordered l) (h : l.step e = some l') : Ordered l' := by
  cases e with
  | enqueue s r =>
    cases h
    exact hl.enqueue s r
  | submit => exact hl.submit h
  | completion k token => exact hl.complete h

/-! ## The count of the open batch -/

structure Accounted (l : Ledger) : Prop where
  ordered : Ordered l
  counted : slotsOf l.pending ≤ l.writer.openBatchSlots.toNat

theorem Accounted.pending_le (hl : Accounted l) : slotsOf l.pending ≤ storageMaxBatchSlots.toNat :=
  Nat.le_trans hl.counted hl.ordered.open_le

theorem Accounted.enqueue (hl : Accounted l) (s r : UInt64) : Accounted (l.enqueue s r) := by
  refine ⟨hl.ordered.enqueue s r,?_⟩
  obtain he | ⟨w,g,_,⟨he,hopen⟩ | ⟨he,hopen⟩⟩ := enqueue_cases hl.ordered.open_le s r
  · rw [he]
    exact hl.counted
  · rw [he]
    simp only [slotsOf_append, slotsOf_singleton, hopen]
    exact Nat.add_le_add_right hl.counted _
  · rw [he]
    simp only [slotsOf_singleton, hopen]
    exact Nat.le_refl _

theorem Accounted.complete {l : Ledger} (hl : Accounted l) (h : l.complete k token = some l')
    (hnothing : NothingAbove l (.completion k token)) : Accounted l' := by
  refine ⟨hl.ordered.complete h,?_⟩
  obtain ⟨_,rfl⟩ | ⟨w,b,hack,hb,_,_,rfl⟩ := complete_cases h
  · exact hl.counted
  · -- a pending group would lie above the batch
    have hempty : l.pending = [] := by
      rw [eq_nil_iff_forall_not_mem]
      intro g hg
      have hbelow := hl.ordered.batch_below_pending b (mem_of_getElem? hb) g hg
      have habove := hnothing hack b hb g (hl.ordered.pending_accepted g hg)
      omega
    simp only [hempty]
    exact zero_le _

theorem Accounted.step {l : Ledger} (hl : Accounted l) (h : l.step e = some l')
    (hnothing : NothingAbove l e) : Accounted l' := by
  cases e with
  | enqueue s r =>
    cases h
    exact hl.enqueue s r
  | submit =>
    have hordered := hl.ordered.submit h
    obtain ⟨b,_,rfl⟩ := map_eq_some_iff.mp h
    exact ⟨hordered,zero_le _⟩
  | completion k token => exact hl.complete h hnothing

/-- A completion leaves the groups above its batch counted exactly when there are
none: it clears the whole count. -/
theorem stillIncluded_iff {l : Ledger} (hl : Ordered l) (h : l.step e = some l') :
    StillIncluded l e l' ↔ NothingAbove l e := by
  cases e with
  | enqueue s r | submit => exact Iff.rfl
  | completion k token =>
    simp only [StillIncluded, NothingAbove]
    refine forall_congr' fun hack => forall₂_congr fun b' hb' => ?_
    obtain ⟨hfailed,_⟩ | ⟨w,_,_,_,hopen,_,rfl⟩ := complete_cases h
    · rw [hack] at hfailed
      cases hfailed
    simp only [hopen]
    constructor
    · intro hzero g hg
      have hnone : above b'.last l.accepted = [] := by
        apply slotsOf_eq_zero
        · exact fun g hg => hl.non_empty g (mem_filter.mp hg).1
        · exact le_zero.mp hzero
      by_contra hlt
      have hmem : g ∈ above b'.last l.accepted := by
        rw [above, mem_filter]
        exact ⟨hg,by simpa using hlt⟩
      rw [hnone] at hmem
      cases hmem
    · intro hall
      have hnone : above b'.last l.accepted = [] := by
        rw [above, filter_eq_nil_iff]
        intro g hg
        have := hall g hg
        simpa using this
      rw [hnone]
      exact zero_le _

/-- In a run the count keeps the groups above every completed batch, and those
accepted since the last submission stay within the limit, exactly when no batch
is completed while an accepted group lies above it. -/
theorem batch_accounting_iff (w : WriterPolicy) (hopen : w.openBatchSlots ≤ storageMaxBatchSlots)
    (es : List Event) (hrun : (run Ledger.step (start w) es).isSome) :
    ((∀ n e l l', es[n]? = some e → run Ledger.step (start w) (es.take n) = some l →
        l.step e = some l' → StillIncluded l e l') ∧
      ∀ n l, run Ledger.step (start w) (es.take n) = some l →
        slotsOf l.pending ≤ storageMaxBatchSlots.toNat) ↔
    ∀ n e l, es[n]? = some e → run Ledger.step (start w) (es.take n) = some l → NothingAbove l e := by
  have hordered : ∀ n l, run Ledger.step (start w) (es.take n) = some l → Ordered l :=
    fun n l hl => run_invariant (fun _ _ _ h hs => Ordered.step h hs) (start_ordered hopen) _ hl
  constructor
  · rintro ⟨hkept,_⟩ n e l he hl
    have hsome := run_take_some Ledger.step (start w) es (n+1) hrun
    rw [run_take_succ Ledger.step (start w) es n e he, hl, bind_some] at hsome
    obtain ⟨l',hl'⟩ := isSome_iff_exists.mp hsome
    exact (stillIncluded_iff (hordered n l hl) hl').mp (hkept n e l l' he hl hl')
  · intro hnothing
    have hstart : Accounted (start w) := ⟨start_ordered hopen,zero_le _⟩
    have hgood := run_good Ledger.step (fun _ _ _ h hs hn => Accounted.step h hs hn) (start w) es
      hstart hnothing
    refine ⟨fun n e l l' he hl hl' => ?_,fun n l hl => ?_⟩
    · exact (stillIncluded_iff (hordered n l hl) hl').mpr (hnothing n e l he hl)
    · exact (hgood n l hl).pending_le

/-- The completion of a batch of thirty slots. -/
def completed : Event := .completion 0 (Durability.writtenToken 0 29 false)

def drained : List Event := [.enqueue 30 0,.submit,completed]

theorem batch_accounting_drained :
    (run Ledger.step (start ⟨0,0,0,0⟩) drained).isSome ∧
    ∀ n l, run Ledger.step (start ⟨0,0,0,0⟩) (drained.take n) = some l →
      slotsOf l.pending ≤ storageMaxBatchSlots.toNat := by
  refine ⟨by decide,((batch_accounting_iff ⟨0,0,0,0⟩ (by decide) drained (by decide)).mpr ?_).2⟩
  intro n e l he hl
  match n with
  | 0 =>
    cases he
    trivial
  | 1 =>
    cases he
    trivial
  | 2 =>
    cases he
    cases hl
    intro _ b hb
    cases hb
    decide
  | n+3 => exact absurd he (by simp [drained])

/-- Thirty slots are accepted between the submission of a batch and its completion. -/
def overlapping : List Event :=
  [.enqueue 30 0,.submit,.enqueue 30 0,completed,.enqueue 32 0,.enqueue 11 0]

/-- The completion forgets them, and the writer lets the pending groups add up to 73
slots without starting a new batch. -/
theorem completion_forgets_slots :
    (∃ l l', run Ledger.step (start ⟨0,0,0,0⟩) (overlapping.take 3) = some l ∧
      l.step completed = some l' ∧ ¬ StillIncluded l completed l') ∧
    ∃ l, run Ledger.step (start ⟨0,0,0,0⟩) overlapping = some l ∧ slotsOf l.pending = 73 := by
  refine ⟨⟨⟨⟨60,0,60,0⟩,60,[⟨0,30,30⟩,⟨30,30,30⟩],[⟨30,30,30⟩],[⟨0,29⟩]⟩,
    ⟨⟨60,0,0,29⟩,60,[⟨0,30,30⟩,⟨30,30,30⟩],[⟨30,30,30⟩],[]⟩,by decide,by decide,fun h => ?_⟩,
    ⟨⟨⟨103,0,43,29⟩,103,[⟨0,30,30⟩,⟨30,30,30⟩,⟨60,32,32⟩,⟨92,11,11⟩],
      [⟨30,30,30⟩,⟨60,32,32⟩,⟨92,11,11⟩],[]⟩,by decide,by decide⟩⟩
  exact absurd (h (by decide) ⟨0,29⟩ rfl) (by decide)

end Wrela.BatchAccounting

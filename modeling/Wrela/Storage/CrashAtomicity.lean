import Wrela.Storage.Format
import Mathlib.Tactic.Ring

/-!
# Crash atomicity of the event log

A writer serves a request sequence and each accepted group is written as its
semantic slots followed by its reserved-empty slots. The log may then be cut
at any slot. The ids assigned by the writer are slot positions, which is the
relation between the two machines that carries the recovery scan.
-/

set_option autoImplicit false

namespace Wrela.CrashAtomicity
open StorageFormat List UInt64 Nat

structure Request where
  semanticSlots : UInt64
  reservedEmptySlots : UInt64
  deriving DecidableEq, Repr

structure Group where
  firstEventID : UInt64
  lastEventID : UInt64
  semanticSlots : ℕ
  reservedEmptySlots : ℕ
  deriving DecidableEq, Repr

def Group.slots (g : Group) : ℕ := g.semanticSlots+g.reservedEmptySlots

def serve : WriterPolicy → List Request → WriterPolicy × List Group
  | w, [] => (w, [])
  | w, q::qs =>
    let (w', result) := w.enqueueAtomicGroupWithReserved q.semanticSlots q.reservedEmptySlots
    let (final, groups) := serve w' qs
    if result.accepted then
      (final, ⟨result.firstEventID,result.lastEventID,
        q.semanticSlots.toNat,q.reservedEmptySlots.toNat⟩::groups)
    else (final, groups)

/-- Everything the log does not fix: the stream, type, layout, flags and payload of
each semantic event and the free header fields of each reserved-empty slot. -/
structure Contents where
  event : UInt64 → Slot
  empty : UInt64 → Slot
  event_type : ∀ id, (event id).header.eventTypeID ≠ 0
  empty_reserved : ∀ id, isReservedEmptySlot (empty id).header

variable (c : Contents)

def semanticSlot (g : Group) (j : ℕ) : Slot :=
  let id := g.firstEventID+UInt64.ofNat j
  refreshSlotChecksum { c.event id with header := { (c.event id).header with
    eventID := id
    atomicGroupLen := UInt32.ofNat g.semanticSlots
    atomicGroupIndex := UInt32.ofNat j } }

def reservedSlot (g : Group) (j : ℕ) : Slot :=
  let id := g.firstEventID+UInt64.ofNat (g.semanticSlots+j)
  refreshSlotChecksum { c.empty id with header := { (c.empty id).header with eventID := id } }

def groupSlots (g : Group) : List Slot :=
  (List.range g.semanticSlots).map (semanticSlot c g) ++
  (List.range g.reservedEmptySlots).map (reservedSlot c g)

def eventLog (groups : List Group) : List Slot := groups.flatMap (groupSlots c)

def logSlots (groups : List Group) : ℕ := (groups.map Group.slots).sum

def placed : ℕ → List Group → List (ℕ × Group)
  | _, [] => []
  | p, g::gs => (p, g)::placed (p+g.slots) gs

def survivors (p k : ℕ) (groups : List Group) : List (ℕ × Group) :=
  (placed p groups).filter (fun pg => pg.1+pg.2.semanticSlots ≤ k)

variable (c : Contents) (gs : List Group) (slot : Slot) (g : Group) (p k : ℕ) (rest : List Slot)
    (e : UInt64) (j : ℕ)

theorem group_slots_length : (groupSlots c g).length = g.slots := by
  simp [groupSlots, Group.slots]

theorem event_log_length : (eventLog c gs).length = logSlots gs := by
  simp [eventLog, logSlots, length_flatMap, group_slots_length]

/-- Ids are positions: the relation between the writer and the scan. -/
def Contiguous : ℕ → List Group → Prop
  | p, [] => p < 2^64
  | p, g::gs => g.firstEventID = UInt64.ofNat p ∧
      g.lastEventID = UInt64.ofNat (p+g.semanticSlots-1) ∧
      1 ≤ g.semanticSlots ∧ g.semanticSlots ≤ 32 ∧ Contiguous (p+g.slots) gs

theorem contiguous_bound (p : ℕ) (h : Contiguous p gs) : p+logSlots gs < 2^64 := by
  induction gs generalizing p with
  | nil => simpa [logSlots, Contiguous] using h
  | cons g gs ih =>
    have ht := ih _ h.2.2.2.2
    simp only [logSlots, map_cons, sum_cons] at *
    omega

/-- The writer side: from position `p` the accepted groups are contiguous and the
next id is the end of the log. -/
theorem serve_contiguous (qs : List Request) (w : WriterPolicy) (p : ℕ)
    (hw : w.nextEventID = UInt64.ofNat p) (hb : p+logSlots (serve w qs).2 < 2^64) :
    Contiguous p (serve w qs).2 ∧
    (serve w qs).1.nextEventID = UInt64.ofNat (p+logSlots (serve w qs).2) := by
  induction qs generalizing w p with
  | nil => exact ⟨by simpa [serve, logSlots, Contiguous] using hb,by simp [serve, logSlots, hw]⟩
  | cons q qs ih =>
    cases hacc : (w.enqueueAtomicGroupWithReserved q.semanticSlots
        q.reservedEmptySlots).2.accepted with
    | false =>
      have hw' := enqueue_rejected w _ _ hacc
      simp only [serve, hacc, Bool.false_eq_true, if_false, hw'] at hb ⊢
      exact ih w p hw hb
    | true =>
      obtain ⟨h1,h32,hnext,hsum,hfirst,hlast⟩ := enqueue_accepted w _ _ hacc
      simp only [serve, hacc, if_true, logSlots, map_cons, sum_cons, Group.slots,
        hfirst, hlast] at hb ⊢
      have hnext' : (w.enqueueAtomicGroupWithReserved q.semanticSlots
          q.reservedEmptySlots).1.nextEventID =
          UInt64.ofNat (p+(q.semanticSlots.toNat+q.reservedEmptySlots.toNat)) := by
        rw [hnext, hw, ofNat_add, ← hsum, UInt64.ofNat_toNat]
      obtain ⟨hc,hn⟩ := ih _ _ hnext' (by
        rw [logSlots]
        omega)
      refine ⟨⟨hw,?_,h1,h32,hc⟩,?_⟩
      · rw [hw]
        apply UInt64.toNat_inj.mp
        simp only [UInt64.toNat_sub, UInt64.toNat_add, toNat_ofNat', toNat_one]
        omega
      · rw [hn, logSlots, add_assoc]

variable (r : RecoveryResult)

theorem recover_nil : recoverFrom [] e r = { r with stopReason := .cleanEOF } := by
  rw [recoverFrom]

theorem recover_reserved (hc : slotChecksumValid slot)
    (he : isReservedEmptySlot slot.header) (hid : slot.header.eventID = e) :
    recoverFrom (slot::rest) e r = recoverFrom rest (e+1) { r with nextEventID := e+1 } := by
  have ht : slot.header.eventTypeID = 0 := by
    simp only [isReservedEmptySlot, Bool.and_eq_true, beq_iff_eq] at he
    exact he.1.1.1.1.1.1.1
  rw [recoverFrom]
  simp [hc, ht, he, hid]

theorem recover_cut (hc : slotChecksumValid slot) (ht : slot.header.eventTypeID ≠ 0)
    (hid : slot.header.eventID = e) (hl : (slot::rest).length < slot.header.atomicGroupLen.toNat) :
    recoverFrom (slot::rest) e r = r.stop e .incompleteAtomicGroup := by
  rw [recoverFrom]
  simp only [hc, Bool.true_eq_false, if_false, if_neg ht, hid, ne_eq, not_true_eq_false]
  rw [dif_pos (.inr (.inr hl))]

theorem recover_group
    (n : UInt32) (hc : slotChecksumValid slot) (ht : slot.header.eventTypeID ≠ 0)
    (hid : slot.header.eventID = e) (hn : slot.header.atomicGroupLen = n)
    (h0 : 1 ≤ n.toNat) (h32 : n.toNat ≤ 32) (hl : n.toNat ≤ (slot::rest).length)
    (hf : groupFault n e 0 ((slot::rest).take n.toNat) = none) :
    recoverFrom (slot::rest) e r = recoverFrom ((slot::rest).drop n.toNat) (e+n.toUInt64)
      ⟨r.visibleEvents+n.toUInt64,e+n.toUInt64,e+n.toUInt64-1,r.stopReason⟩ := by
  have hg : ¬(slot.header.atomicGroupLen = 0 ∨
      slot.header.atomicGroupLen > storageMaxAtomicGroupSlots.toUInt32 ∨
      slot.header.atomicGroupLen.toNat > (slot::rest).length) := by
    subst hn
    rintro (h | h | h)
    · rw [h] at h0
      exact absurd h0 (by decide)
    · have := UInt32.lt_iff_toNat_lt.mp h
      have h' : storageMaxAtomicGroupSlots.toUInt32.toNat = 32 := rfl
      omega
    · omega
  subst hn
  rw [recoverFrom]
  simp only [hc, Bool.true_eq_false, if_false, if_neg ht, hid, ne_eq, not_true_eq_false]
  rw [dif_neg hg]
  simp [hf]

theorem semantic_slot_valid : slotChecksumValid (semanticSlot c g j) := refresh_valid _

theorem semantic_slot_type : (semanticSlot c g j).header.eventTypeID ≠ 0 := c.event_type _

theorem reserved_slot_valid : slotChecksumValid (reservedSlot c g j) := refresh_valid _

theorem reserved_slot_empty : isReservedEmptySlot (reservedSlot c g j).header :=
  c.empty_reserved (g.firstEventID+UInt64.ofNat (g.semanticSlots+j))

theorem group_fault_none (j n : ℕ) (h : j+n ≤ 32) :
    groupFault (UInt32.ofNat g.semanticSlots) g.firstEventID (UInt32.ofNat j)
      ((List.range' j n).map (semanticSlot c g)) = none := by
  induction n generalizing j with
  | zero => simp [groupFault]
  | succ n ih =>
    have hj : (UInt32.ofNat j).toUInt64 = UInt64.ofNat j := by
      apply UInt64.toNat_inj.mp
      simp only [UInt32.toNat_toUInt64, UInt32.toNat_ofNat', toNat_ofNat']
      omega
    have hs : UInt32.ofNat j+1 = UInt32.ofNat (j+1) := by rw [UInt32.ofNat_add]; rfl
    rw [range'_succ, map_cons, groupFault, if_neg, if_neg, hs]
    · exact ih (j+1) (by omega)
    · simpa [semanticSlot, refreshSlotChecksum] using c.event_type _
    · simp [semantic_slot_valid, hj]
      rfl

theorem recover_reserved_run (p j n : ℕ) (rest : List Slot)
    (r : RecoveryResult) (hg : g.firstEventID = UInt64.ofNat p)
    (hr : r.nextEventID = UInt64.ofNat (p+g.semanticSlots+j)) :
    recoverFrom ((List.range' j n).map (reservedSlot c g) ++ rest)
        (UInt64.ofNat (p+g.semanticSlots+j)) r =
      recoverFrom rest (UInt64.ofNat (p+g.semanticSlots+j+n))
        { r with nextEventID := UInt64.ofNat (p+g.semanticSlots+j+n) } := by
  induction n generalizing j r with
  | zero => simp [← hr]
  | succ n ih =>
    have hid : (reservedSlot c g j).header.eventID = UInt64.ofNat (p+g.semanticSlots+j) := by
      rw [add_assoc, ofNat_add, ← hg]
      rfl
    have hone : UInt64.ofNat (p+g.semanticSlots+j)+1 = UInt64.ofNat (p+g.semanticSlots+(j+1)) := by
      rw [← add_assoc, ofNat_add (p+g.semanticSlots+j) 1]
      rfl
    rw [range'_succ, map_cons, cons_append,
      recover_reserved _ _ _ _ (reserved_slot_valid c g j) (reserved_slot_empty c g j) hid, hone,
      ih (j+1) _ rfl]
    simp only [add_assoc, add_comm 1 n]

theorem placed_ge (p : ℕ) : ∀ pg ∈ placed p gs, p ≤ pg.1 := by
  induction gs generalizing p with
  | nil => simp [placed]
  | cons g gs ih =>
    intro pg hpg
    rcases mem_cons.mp hpg with rfl | hpg
    · exact le_refl p
    · exact le_trans (le_add_right _ _) (ih _ pg hpg)

theorem placed_ids (p : ℕ) (h : Contiguous p gs) : ∀ pg ∈ placed p gs,
    pg.2.firstEventID = UInt64.ofNat pg.1 ∧
    pg.2.lastEventID = UInt64.ofNat (pg.1+pg.2.semanticSlots-1) ∧
    1 ≤ pg.2.semanticSlots ∧ pg.1+pg.2.semanticSlots < 2^64 := by
  induction gs generalizing p with
  | nil => simp [placed]
  | cons g gs ih =>
    intro pg hpg
    have hb := contiguous_bound (g::gs) p h
    simp only [logSlots, map_cons, sum_cons, Group.slots] at hb
    rcases mem_cons.mp hpg with rfl | hpg
    · exact ⟨h.1,h.2.1,h.2.2.1,by simp only; omega⟩
    · exact ih _ h.2.2.2.2 pg hpg

theorem survivors_before (h : Contiguous p gs) (hk : k ≤ p) : survivors p k gs = [] := by
  rw [survivors, filter_eq_nil_iff]
  intro pg hpg
  have h1 := placed_ge gs p pg hpg
  obtain ⟨-,-,h2,-⟩ := placed_ids gs p h pg hpg
  simp only [decide_eq_true_eq]
  omega

structure Outcome (p k : ℕ) (gs : List Group) (r R : RecoveryResult) : Prop where
  visible : R.visibleEvents = r.visibleEvents+
    UInt64.ofNat ((survivors p (p+k) gs).map (fun pg => pg.2.semanticSlots)).sum
  next : ∃ n, R.nextEventID = UInt64.ofNat n ∧ p ≤ n ∧ n ≤ p+logSlots gs ∧
    ∀ pg ∈ placed p gs, ∀ i < pg.2.semanticSlots,
      (pg.1+i < n ↔ pg.1+pg.2.semanticSlots ≤ p+k)
  committed : R.lastCommittedGroupEnd =
    (((survivors p (p+k) gs).getLast?).map (fun pg => pg.2.lastEventID)).getD
      r.lastCommittedGroupEnd
  complete : logSlots gs ≤ k →
    R.stopReason = .cleanEOF ∧ R.nextEventID = UInt64.ofNat (p+logSlots gs)

/-- Nothing of the remaining groups survives and the scan stops where it is. -/
theorem outcome_stopped (g : Group) (gs : List Group) (r R : RecoveryResult)
    (hc : Contiguous p (g::gs)) (hk : k < g.semanticSlots)
    (hv : R.visibleEvents = r.visibleEvents) (hn : R.nextEventID = UInt64.ofNat p)
    (hl : R.lastCommittedGroupEnd = r.lastCommittedGroupEnd) : Outcome p k (g::gs) r R := by
  have hs : survivors p (p+k) (g::gs) = [] := by
    have ht := survivors_before gs (p+g.slots) (p+k) hc.2.2.2.2 (by simp [Group.slots]; omega)
    rw [survivors] at ht ⊢
    rw [placed, filter_cons_of_neg (by simp; omega), ht]
  refine ⟨by simp [hs, hv],⟨p,hn,le_refl p,le_add_right _ _,?_⟩,by simp [hs, hl],?_⟩
  · intro pg hpg i hi
    rcases mem_cons.mp hpg with rfl | hpg
    · constructor <;> intro h <;> simp only at * <;> omega
    · have h2 := placed_ge gs _ pg hpg
      simp only [Group.slots] at h2
      constructor <;> intro h <;> omega
  · intro h
    simp only [logSlots, map_cons, sum_cons, Group.slots] at h
    omega

theorem recover_whole_group (p : ℕ) (tail : List Slot) (r : RecoveryResult)
    (hg : g.firstEventID = UInt64.ofNat p) (h1 : 1 ≤ g.semanticSlots) (h32 : g.semanticSlots ≤ 32) :
    recoverFrom ((List.range g.semanticSlots).map (semanticSlot c g) ++ tail) (UInt64.ofNat p) r =
      recoverFrom tail (UInt64.ofNat (p+g.semanticSlots))
        ⟨r.visibleEvents+UInt64.ofNat g.semanticSlots,UInt64.ofNat (p+g.semanticSlots),
          UInt64.ofNat (p+g.semanticSlots-1),r.stopReason⟩ := by
  have hn : (UInt32.ofNat g.semanticSlots).toNat = g.semanticSlots := by
    rw [UInt32.toNat_ofNat']; omega
  have h64 : (UInt32.ofNat g.semanticSlots).toUInt64 = UInt64.ofNat g.semanticSlots := by
    apply UInt64.toNat_inj.mp
    rw [UInt32.toNat_toUInt64, hn, toNat_ofNat']
    omega
  have hlast : UInt64.ofNat p+UInt64.ofNat g.semanticSlots-1 =
      UInt64.ofNat (p+g.semanticSlots-1) := by
    apply UInt64.toNat_inj.mp
    simp only [UInt64.toNat_sub, UInt64.toNat_add, toNat_ofNat', toNat_one]
    omega
  obtain ⟨m,hm⟩ : ∃ m, g.semanticSlots = m+1 := ⟨g.semanticSlots-1,by omega⟩
  have hcons : (List.range g.semanticSlots).map (semanticSlot c g) ++ tail =
      semanticSlot c g 0::((List.range' 1 m).map (semanticSlot c g) ++ tail) := by
    rw [hm, range_eq_range', range'_succ, map_cons, cons_append]
  have hlen : ((List.range g.semanticSlots).map (semanticSlot c g)).length = g.semanticSlots := by
    simp
  have htake : (((List.range g.semanticSlots).map (semanticSlot c g)) ++ tail).take
      g.semanticSlots = (List.range g.semanticSlots).map (semanticSlot c g) := take_left' hlen
  have hdrop : (((List.range g.semanticSlots).map (semanticSlot c g)) ++ tail).drop
      g.semanticSlots = tail := drop_left' hlen
  have hfault := group_fault_none c g 0 g.semanticSlots (by omega)
  rw [← range_eq_range', ← htake, hcons, hg, ← hn] at hfault
  rw [hcons, recover_group _ _ _ _ (UInt32.ofNat g.semanticSlots) (semantic_slot_valid c g 0)
    (semantic_slot_type c g 0) (by simpa [semanticSlot, refreshSlotChecksum] using hg) rfl
    (by omega) (by omega) (by rw [hn, ← hcons]; simp) (by simpa [hn] using hfault)]
  rw [hn, h64, hlast, ← hcons, hdrop, ← ofNat_add]

theorem recover_part_group (hg : g.firstEventID = UInt64.ofNat p) (h32 : g.semanticSlots ≤ 32)
    (h0 : 0 < k) (hk : k < g.semanticSlots) :
    recoverFrom ((List.range k).map (semanticSlot c g)) (UInt64.ofNat p) r =
      r.stop (UInt64.ofNat p) .incompleteAtomicGroup := by
  obtain ⟨m,rfl⟩ : ∃ m, k = m+1 := ⟨k-1,by omega⟩
  have hn : (semanticSlot c g 0).header.atomicGroupLen.toNat = g.semanticSlots := by
    change (UInt32.ofNat g.semanticSlots).toNat = _
    rw [UInt32.toNat_ofNat']; omega
  rw [range_eq_range', range'_succ, map_cons]
  apply recover_cut _ _ _ _ (semantic_slot_valid c g 0) (semantic_slot_type c g 0)
  · simpa [semanticSlot, refreshSlotChecksum] using hg
  · rw [hn]
    simpa using hk

theorem outcome_cons (g : Group) (gs : List Group) (r R : RecoveryResult)
    (why : RecoveryStopReason) (hc : Contiguous p (g::gs)) (hk : g.slots ≤ k)
    (h : Outcome (p+g.slots) (k-g.slots) gs
      ⟨r.visibleEvents+UInt64.ofNat g.semanticSlots,UInt64.ofNat (p+g.slots),
        UInt64.ofNat (p+g.semanticSlots-1),why⟩ R) : Outcome p k (g::gs) r R := by
  have hpos : p+g.slots+(k-g.slots) = p+k := by omega
  have hs : survivors p (p+k) (g::gs) = (p,g)::survivors (p+g.slots) (p+k) gs := by
    rw [survivors, placed, filter_cons_of_pos (by
      simp only [decide_eq_true_eq, Group.slots] at *
      omega)]
    rfl
  obtain ⟨n,hn,hlo,hhi,hiff⟩ := h.next
  have hlog : logSlots (g::gs) = g.slots+logSlots gs := by simp [logSlots]
  refine ⟨?_,⟨n,hn,by omega,by omega,?_⟩,?_,?_⟩
  · rw [h.visible, hpos, hs]
    simp [ofNat_add, UInt64.add_assoc]
  · intro pg hpg i hi
    rcases mem_cons.mp hpg with rfl | hpg
    · simp only [Group.slots] at *
      constructor <;> intro _ <;> omega
    · rw [← hpos]
      exact hiff pg hpg i hi
  · rw [h.committed, hpos, hs, getLast?_cons]
    cases (survivors (p+g.slots) (p+k) gs).getLast? with
    | none => simp [hc.2.1]
    | some pg => simp
  · intro hle
    rw [hlog, ← add_assoc]
    exact h.complete (by omega)

theorem outcome_reserved (g : Group) (gs : List Group) (r R : RecoveryResult)
    (hc : Contiguous p (g::gs)) (hlo : g.semanticSlots ≤ k) (hhi : k < g.slots)
    (hv : R.visibleEvents = r.visibleEvents+UInt64.ofNat g.semanticSlots)
    (hn : R.nextEventID = UInt64.ofNat (p+k))
    (hl : R.lastCommittedGroupEnd = UInt64.ofNat (p+g.semanticSlots-1)) :
    Outcome p k (g::gs) r R := by
  have hs : survivors p (p+k) (g::gs) = [(p,g)] := by
    have ht := survivors_before gs (p+g.slots) (p+k) hc.2.2.2.2 (by omega)
    rw [survivors] at ht ⊢
    rw [placed, filter_cons_of_pos (by simp; omega), ht]
  have hlog : logSlots (g::gs) = g.slots+logSlots gs := by simp [logSlots]
  refine ⟨by simp [hs, hv],⟨p+k,hn,by omega,by omega,?_⟩,by simp [hs, hl, hc.2.1],?_⟩
  · intro pg hpg i hi
    rcases mem_cons.mp hpg with rfl | hpg
    · constructor <;> intro _ <;> simp only at * <;> omega
    · have hge := placed_ge gs _ pg hpg
      constructor <;> intro _ <;> omega
  · intro h
    omega

/-- The scan and the writer agree from every position and for every cut. The
induction is on the groups; the position is the expected id throughout. -/
theorem recover_log (hc : Contiguous p gs) (hr : r.nextEventID = UInt64.ofNat p) :
    Outcome p k gs r (recoverFrom ((eventLog c gs).take k) (UInt64.ofNat p) r) := by
  induction gs generalizing p k r with
  | nil =>
    simp only [eventLog, flatMap_nil, take_nil, recover_nil]
    exact ⟨by simp [survivors, placed],⟨p,hr,le_refl p,by simp [logSlots],by simp [placed]⟩,
      by simp [survivors, placed],fun _ => ⟨rfl,by simpa [logSlots] using hr⟩⟩
  | cons g gs ih =>
    obtain ⟨hg,hlast,h1,h32,hrest⟩ := hc
    have hsplit : eventLog c (g::gs) = (List.range g.semanticSlots).map (semanticSlot c g) ++
        ((List.range g.reservedEmptySlots).map (reservedSlot c g) ++ eventLog c gs) := by
      simp [eventLog, groupSlots]
    have hcg : Contiguous p (g::gs) := ⟨hg,hlast,h1,h32,hrest⟩
    rw [hsplit]
    by_cases hk : k < g.semanticSlots
    · rw [take_append_of_le_length (by simp; omega), ← map_take,
        take_range, min_eq_left (by omega)]
      rcases Nat.eq_zero_or_pos k with rfl | h0
      · rw [range_zero, map_nil, recover_nil]
        exact outcome_stopped p 0 g gs r _ hcg hk rfl hr rfl
      · rw [recover_part_group c g p k r hg h32 h0 hk]
        exact outcome_stopped p k g gs r _ hcg hk rfl rfl rfl
    · rw [take_append, take_of_length_le (by simp; omega), length_map,
        length_range, recover_whole_group c g p _ r hg h1 h32]
      by_cases hres : k < g.slots
      · have htake : ((List.range g.reservedEmptySlots).map (reservedSlot c g) ++
            eventLog c gs).take (k-g.semanticSlots) =
            (List.range' 0 (k-g.semanticSlots)).map (reservedSlot c g) ++ [] := by
          simp only [Group.slots] at hres
          rw [take_append_of_le_length (by simp; omega), ← map_take, take_range,
            min_eq_left (by omega), range_eq_range', append_nil]
        have hrun := recover_reserved_run c g p 0 (k-g.semanticSlots) []
          ⟨r.visibleEvents+UInt64.ofNat g.semanticSlots,UInt64.ofNat (p+g.semanticSlots),
            UInt64.ofNat (p+g.semanticSlots-1),r.stopReason⟩ hg rfl
        rw [add_zero] at hrun
        rw [htake, hrun, recover_nil]
        exact outcome_reserved p k g gs r _ hcg (by omega) hres rfl
          (congrArg UInt64.ofNat (by omega)) rfl
      · have htake : ((List.range g.reservedEmptySlots).map (reservedSlot c g) ++
            eventLog c gs).take (k-g.semanticSlots) =
            (List.range' 0 g.reservedEmptySlots).map (reservedSlot c g) ++
              (eventLog c gs).take (k-g.slots) := by
          simp only [Group.slots] at hres ⊢
          rw [take_append, take_of_length_le (by simp; omega), range_eq_range',
            length_map, length_range', Nat.sub_sub]
        have hrun := recover_reserved_run c g p 0 g.reservedEmptySlots
          ((eventLog c gs).take (k-g.slots))
          ⟨r.visibleEvents+UInt64.ofNat g.semanticSlots,UInt64.ofNat (p+g.semanticSlots),
            UInt64.ofNat (p+g.semanticSlots-1),r.stopReason⟩ hg rfl
        simp only [add_zero, add_assoc p] at hrun
        rw [htake, hrun]
        exact outcome_cons p k g gs r _ r.stopReason hcg (by omega) (ih _ _ _ hrest rfl)

theorem survivors_sum_le :
    ((survivors p k gs).map (fun pg => pg.2.semanticSlots)).sum ≤ logSlots gs := by
  induction gs generalizing p with
  | nil => simp [survivors, placed]
  | cons g gs ih =>
    have ht := ih (p+g.slots)
    have hlog : logSlots (g::gs) = g.slots+logSlots gs := by simp [logSlots]
    rw [survivors] at ht ⊢
    rw [placed, filter_cons, hlog]
    have hsem : g.semanticSlots ≤ g.slots := le_add_right _ _
    split_ifs
    · simp only [map_cons, sum_cons]
      omega
    · omega

/-- Crash atomicity: after a cut at any slot `k` recovery shows exactly the groups
whose semantic slots all lie before the cut, and the uncut log ends cleanly at the
writer's next id. -/
theorem crash_atomicity (c : Contents) (w : WriterPolicy) (qs : List Request)
    (hfresh : w.nextEventID = 0) (hids : logSlots (serve w qs).2 < 2^64) (k : ℕ) :
    let groups := (serve w qs).2
    let recovered := recoverSlots ((eventLog c groups).take k)
    recovered.visibleEvents.toNat =
      ((survivors 0 k groups).map (fun pg => pg.2.semanticSlots)).sum ∧
    (∀ pg ∈ placed 0 groups, ∀ id, pg.2.firstEventID ≤ id → id ≤ pg.2.lastEventID →
      (id < recovered.nextEventID ↔ pg ∈ survivors 0 k groups)) ∧
    recovered.lastCommittedGroupEnd =
      (((survivors 0 k groups).getLast?).map (fun pg => pg.2.lastEventID)).getD 0 ∧
    ((eventLog c groups).length ≤ k → recovered.stopReason = .cleanEOF ∧
      recovered.nextEventID = (serve w qs).1.nextEventID) := by
  intro groups recovered
  obtain ⟨hc,hnext⟩ := serve_contiguous qs w 0 hfresh (by simpa using hids)
  have ho : Outcome 0 k groups ⟨0,0,0,.cleanEOF⟩ recovered := recover_log c groups 0 k _ hc rfl
  obtain ⟨n,hn,-,hle,hiff⟩ := ho.next
  have hlt : (UInt64.ofNat n).toNat = n := by
    rw [toNat_ofNat', mod_eq_of_lt (by simp only [groups] at hle; omega)]
  refine ⟨?_,?_,?_,?_⟩
  · have hs : _ < 2^64 := lt_of_le_of_lt (survivors_sum_le groups 0 k) hids
    rw [ho.visible, Nat.zero_add, UInt64.zero_add, toNat_ofNat', mod_eq_of_lt hs]
  · intro pg hpg id hfirst hlast
    obtain ⟨hf,hl,h1,hb⟩ := placed_ids groups 0 hc pg hpg
    rw [le_iff_toNat_le, hf, toNat_ofNat'] at hfirst
    rw [le_iff_toNat_le, hl, toNat_ofNat'] at hlast
    have hi := hiff pg hpg (id.toNat-pg.1) (by omega)
    rw [zero_add, show pg.1+(id.toNat-pg.1) = id.toNat by omega] at hi
    rw [hn, lt_iff_toNat_lt, hlt, hi, survivors, mem_filter]
    simp [hpg]
  · simpa using ho.committed
  · intro hlen
    rw [event_log_length] at hlen
    rw [hnext]
    exact ho.complete hlen

/-- Events of type 1001 with zero payload, and blank reserved slots. -/
def blankContents : Contents where
  event _ := ⟨⟨0,7,0,1001,1,0,0,0,0,0,1,0,0⟩,Vector.replicate _ 0⟩
  empty _ := ⟨⟨0,0,0,0,0,0,0,0,storageSlotReservedEmpty,0,1,0,0⟩,Vector.replicate _ 0⟩
  event_type _ := by decide
  empty_reserved _ := by decide

/-- Two accepted groups around a rejected request: a cut before the last slot shows
the first group only. -/
theorem crash_atomicity_cut :
    let w : WriterPolicy := ⟨0,0,0,0⟩
    let qs : List Request := [⟨2,1⟩, ⟨33,0⟩, ⟨2,0⟩]
    logSlots (serve w qs).2 = 5 ∧
    (recoverSlots ((eventLog blankContents (serve w qs).2).take 4)).visibleEvents.toNat = 2 :=
  ⟨by decide,(crash_atomicity blankContents ⟨0,0,0,0⟩ [⟨2,1⟩, ⟨33,0⟩, ⟨2,0⟩] rfl
    (by decide) 4).1.trans (by decide)⟩

/-! ### Admission of groups over a whole sequence of requests -/

open IntervalList

/-- The ids a group consumes, its reserved-empty positions included. -/
def Group.ids (g : Group) : ℕ × ℕ := (g.firstEventID.toNat,g.firstEventID.toNat+g.slots)

variable (w : WriterPolicy)

def writerAt (qs : List Request) (n : ℕ) : WriterPolicy := (serve w (qs.take n)).1

def enqueued (q : Request) : WriterPolicy × EnqueueResult :=
  w.enqueueAtomicGroupWithReserved q.semanticSlots q.reservedEmptySlots

def StartsNewBatch (q : Request) : Prop :=
  (enqueued w q).1.openBatchSlots.toNat ≠
    w.openBatchSlots.toNat+(q.semanticSlots.toNat+q.reservedEmptySlots.toNat)

structure Admitted (w : WriterPolicy) (qs : List Request) : Prop where
  non_empty : Proper ((serve w qs).2.map Group.ids)
  adjacent : ((serve w qs).2.map Group.ids).IsChain fun i j => i.2 = j.1
  increasing : Spread ((serve w qs).2.map Group.ids)
  exactly : ∀ id, Covers ((serve w qs).2.map Group.ids) id ↔
    w.nextEventID.toNat ≤ id ∧ id < (serve w qs).1.nextEventID.toNat
  open_le : ∀ n, (writerAt w qs n).openBatchSlots ≤ storageMaxBatchSlots
  flush : ∀ n q, qs[n]? = some q → (enqueued (writerAt w qs n) q).2.accepted →
    ((enqueued (writerAt w qs n) q).2.flushRequested ↔
      storageTargetBatchSlots ≤ (enqueued (writerAt w qs n) q).1.openBatchSlots ∨
        StartsNewBatch (writerAt w qs n) q)
  rejected : ∀ n q, qs[n]? = some q → (enqueued (writerAt w qs n) q).2.accepted = false →
    writerAt w qs (n+1) = writerAt w qs n

/-! ## The ids -/

theorem ids_of_contiguous {p : ℕ} {gs : List Group} (h : Contiguous p gs) :
    Proper (gs.map Group.ids) ∧ (gs.map Group.ids).IsChain (fun i j => i.2 = j.1) ∧
      Spread (gs.map Group.ids) ∧ (∀ i ∈ gs.map Group.ids, p ≤ i.1) ∧
      (∀ i ∈ (gs.map Group.ids).head?, i.1 = p) ∧
      ∀ id, Covers (gs.map Group.ids) id ↔ p ≤ id ∧ id < p+logSlots gs := by
  induction gs generalizing p with
  | nil =>
    refine ⟨by simp [Proper],.nil,.nil,by simp,by simp,fun id => ?_⟩
    simp only [map_nil, Covers, logSlots, sum_nil]
    constructor
    · rintro ⟨i,hi,_⟩
      cases hi
    · omega
  | cons g gs ih =>
    have hbound := contiguous_bound (g::gs) p h
    obtain ⟨hfirst,_,hpos,_,hrest⟩ := h
    obtain ⟨hproper,hchain,hspread,hge,hhead,hcovers⟩ := ih hrest
    have hp : p < 2^64 := by omega
    have hids : g.ids = (p,p+g.slots) := by
      rw [Group.ids, hfirst, toNat_ofNat', Nat.mod_eq_of_lt hp]
    have hslots : 1 ≤ g.slots := by
      rw [Group.slots]
      omega
    rw [map_cons, hids]
    refine ⟨?_,?_,?_,?_,by simp,fun id => ?_⟩
    · intro i hi
      obtain rfl | hi := mem_cons.mp hi
      · change p < p+g.slots
        omega
      · exact hproper i hi
    · rw [isChain_cons]
      exact ⟨fun i hi => (hhead i hi).symm,hchain⟩
    · exact spread_cons.mpr ⟨hge,hspread⟩
    · intro i hi
      obtain rfl | hi := mem_cons.mp hi
      · exact le_refl p
      · have := hge i hi
        omega
    · rw [covers_cons, hcovers]
      simp only [Has, logSlots, map_cons, sum_cons]
      omega

/-! ## The batch -/

theorem serve_cons_state (q : Request) (qs : List Request) :
    (serve w (q::qs)).1 = (serve (enqueued w q).1 qs).1 := by
  simp only [serve, enqueued]
  split <;> rfl

variable {w : WriterPolicy}

theorem writerAt_succ {qs : List Request} {n : ℕ} {q : Request}
    (h : qs[n]? = some q) : writerAt w qs (n+1) = (enqueued (writerAt w qs n) q).1 := by
  induction n generalizing w qs with
  | zero =>
    cases qs with
    | nil => cases h
    | cons q' qs =>
      obtain rfl : q' = q := by simpa using h
      rw [writerAt, take_succ_cons, take_zero, serve_cons_state]
      rfl
  | succ n ih =>
    cases qs with
    | nil => cases h
    | cons q' qs =>
      have hrest := ih (w := (enqueued w q').1) (show qs[n]? = some q by simpa using h)
      rw [writerAt, writerAt, take_succ_cons, take_succ_cons, serve_cons_state, serve_cons_state]
      exact hrest

section
variable (hopen : w.openBatchSlots ≤ storageMaxBatchSlots)
include hopen

theorem enqueued_batch {q : Request} (h : (enqueued w q).2.accepted) :
    (enqueued w q).1.openBatchSlots ≤ storageMaxBatchSlots ∧
    ((enqueued w q).2.flushRequested ↔
      storageTargetBatchSlots ≤ (enqueued w q).1.openBatchSlots ∨ StartsNewBatch w q) := by
  obtain ⟨_,_,_,hsum,_,_⟩ := enqueue_accepted w q.semanticSlots q.reservedEmptySlots h
  have hmax : storageMaxBatchSlots.toNat = 72 := rfl
  have htarget : storageTargetBatchSlots.toNat = 64 := rfl
  obtain ⟨hslots,hflush,hconsumed⟩ := enqueue_batch w q.semanticSlots q.reservedEmptySlots h
  rw [le_iff_toNat_le] at hconsumed
  have hcombined := UInt64.toNat_add w.openBatchSlots (q.semanticSlots+q.reservedEmptySlots)
  rw [le_iff_toNat_le] at hopen
  rw [StartsNewBatch, enqueued, hslots, hflush, ← hsum]
  unfold batchAfter
  split_ifs with hlow hfull
  · rw [lt_iff_toNat_lt] at hlow
    simp only [le_iff_toNat_le, false_iff]
    omega
  all_goals
    rw [lt_iff_toNat_lt] at hlow
    rw [le_iff_toNat_le] at hfull
    simp only [le_iff_toNat_le, true_iff]
    omega

theorem enqueued_open_le
    (q : Request) : (enqueued w q).1.openBatchSlots ≤ storageMaxBatchSlots := by
  cases h : (enqueued w q).2.accepted with
  | false =>
    have hsame : (enqueued w q).1 = w := enqueue_rejected w _ _ h
    rwa [hsame]
  | true => exact (enqueued_batch hopen h).1

theorem serve_open_le
    (qs : List Request) : (serve w qs).1.openBatchSlots ≤ storageMaxBatchSlots := by
  induction qs generalizing w with
  | nil => exact hopen
  | cons q qs ih =>
    rw [serve_cons_state]
    exact ih (enqueued_open_le hopen q)

end

/-- Admission over any sequence of requests whose ids stay below 2^64. -/
theorem writer_admission (w : WriterPolicy) (qs : List Request)
    (hopen : w.openBatchSlots ≤ storageMaxBatchSlots)
    (hids : w.nextEventID.toNat+logSlots (serve w qs).2 < 2^64) : Admitted w qs := by
  have hnow : w.nextEventID = UInt64.ofNat w.nextEventID.toNat := (UInt64.ofNat_toNat).symm
  obtain ⟨hcontiguous,hlast⟩ := serve_contiguous qs w w.nextEventID.toNat hnow hids
  obtain ⟨hproper,hchain,hspread,_,_,hcovers⟩ := ids_of_contiguous hcontiguous
  have hend : (serve w qs).1.nextEventID.toNat = w.nextEventID.toNat+logSlots (serve w qs).2 := by
    rw [hlast, toNat_ofNat', Nat.mod_eq_of_lt hids]
  refine ⟨hproper,hchain,hspread,?_,fun n => serve_open_le hopen _,?_,?_⟩
  · intro id
    rw [hcovers, hend]
  · intro n q _ haccepted
    exact (enqueued_batch (serve_open_le hopen _) haccepted).2
  · intro n q hq hrejected
    rw [writerAt_succ hq]
    exact enqueue_rejected _ _ _ hrejected

/-- From 60 open slots: a group that fills the batch, one that is refused and one
that starts the next batch. -/
theorem writer_admission_overflow :
    (60 : UInt64) ≤ storageMaxBatchSlots ∧
    (7 : UInt64).toNat+logSlots (serve ⟨7,0,60,0⟩ [⟨4,4⟩,⟨33,0⟩,⟨5,0⟩]).2 < 2^64 ∧
    Admitted ⟨7,0,60,0⟩ [⟨4,4⟩,⟨33,0⟩,⟨5,0⟩] :=
  ⟨by decide,by decide,writer_admission _ _ (by decide) (by decide)⟩

end Wrela.CrashAtomicity

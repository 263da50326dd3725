import Wrela.Storage.CrashAtomicity
import Wrela.UnitParse

/-!
# What recovery accepts

The slots that recovery accepts are the longest prefix of the log that is a
sequence of units: reserved-empty slots and whole atomic groups, every slot with
its position as event id. The scan finds each unit by looking at its first slot,
which fixes how long the unit is.
-/

set_option autoImplicit false

namespace Wrela.Recovery
open StorageFormat UnitParse List Nat

def Placed (p : ℕ) (s : Slot) : Prop :=
  slotChecksumValid s ∧ s.header.eventID = UInt64.ofNat p

/-- Reserved-empty slots weigh nothing, groups as many events as they have slots.
What else a member has to be is left open. -/
inductive UnitAt (Member : Slot → Prop) (p : ℕ) : List Slot → ℕ → Prop
  | reserved (s : Slot) (hs : isReservedEmptySlot s.header) (hp : Placed p s) :
      UnitAt Member p [s] 0
  | group (members : List Slot) (hpos : 1 ≤ members.length) (hmax : members.length ≤ 32)
      (hall : ∀ j s, members[j]? = some s → Member s ∧ Placed (p+j) s ∧
        s.header.atomicGroupLen.toNat = members.length ∧ s.header.atomicGroupIndex.toNat = j) :
      UnitAt Member p members members.length

def IsEvent (s : Slot) : Prop := s.header.eventTypeID ≠ 0

theorem reserved_type {h : EventSlotHeader} (hr : isReservedEmptySlot h) :
    h.eventTypeID = 0 := by
  simp only [isReservedEmptySlot, Bool.and_eq_true, beq_iff_eq] at hr
  exact hr.1.1.1.1.1.1.1

theorem reserved_length {h : EventSlotHeader} (hr : isReservedEmptySlot h) :
    h.atomicGroupLen.toNat = 0 := by
  simp only [isReservedEmptySlot, Bool.and_eq_true, beq_iff_eq] at hr
  rw [hr.1.1.1.2]
  rfl

variable {p w : ℕ} {Member : Slot → Prop} {u : List Slot}

/-- The first slot of a unit tells which kind of unit it is, and its length. -/
theorem UnitAt.head (h : UnitAt Member p u w) :
    ∃ s rest, u = s::rest ∧ Placed p s ∧
      ((isReservedEmptySlot s.header ∧ u = [s] ∧ w = 0) ∨
        (Member s ∧ s.header.atomicGroupLen.toNat = u.length ∧ w = u.length)) := by
  cases h with
  | reserved s hs hp => exact ⟨s,[],rfl,hp,.inl ⟨hs,rfl,rfl⟩⟩
  | group members hpos hmax hall =>
    cases u with
    | nil => cases hpos
    | cons s rest =>
      obtain ⟨hmember,hp,hlen,_⟩ := hall 0 s rfl
      exact ⟨s,rest,rfl,hp,.inr ⟨hmember,hlen,rfl⟩⟩

theorem UnitAt.members (h : UnitAt Member p u w)
    (hw : 1 ≤ w) : ∀ j s, u[j]? = some s → Member s ∧ Placed (p+j) s ∧
      s.header.atomicGroupLen.toNat = u.length ∧ s.header.atomicGroupIndex.toNat = j := by
  cases h with
  | reserved s hs hp => cases hw
  | group members hpos hmax hall => exact hall

theorem UnitAt.length_bounds (h : UnitAt Member p u w) : 1 ≤ u.length ∧ u.length ≤ 32 := by
  cases h with
  | reserved s hs hp => exact ⟨le_refl 1,le_add_left 1 31⟩
  | group members hpos hmax hall => exact ⟨hpos,hmax⟩

/-- At most one unit can begin at a position: a reserved-empty slot has group
length zero, and a group has the length that its first slot says. -/
def units (Member : Slot → Prop) : Units Slot where
  IsUnit := UnitAt Member
  ne_nil := by
    intro p u w hu he
    obtain ⟨s,rest,rfl,_⟩ := hu.head
    cases he
  unique := by
    intro p u u' w w' l hu hu' hpre hpre'
    obtain ⟨s,rest,rfl,_,hkind⟩ := hu.head
    obtain ⟨s',rest',rfl,_,hkind'⟩ := hu'.head
    obtain ⟨l,rfl⟩ := hpre
    obtain ⟨l',he⟩ := hpre'
    obtain rfl : s' = s := (List.cons.inj he).1
    obtain ⟨hr,hone,rfl⟩ | ⟨_,hlen,rfl⟩ := hkind
    · obtain ⟨_,hone',rfl⟩ | ⟨_,hlen',_⟩ := hkind'
      · exact ⟨hone.trans hone'.symm,rfl⟩
      · rw [reserved_length hr] at hlen'
        cases hlen'
    · obtain ⟨hr',_⟩ | ⟨_,hlen',rfl⟩ := hkind'
      · rw [reserved_length hr'] at hlen
        cases hlen
      · have hsame : (s'::rest).length = (s'::rest').length := hlen.symm.trans hlen'
        have heq : s'::rest = s'::rest' := (List.append_inj he.symm hsame).1
        exact ⟨heq,congrArg List.length heq⟩

theorem units_weight_le (Member : Slot → Prop) :
    ∀ p u w, (units Member).IsUnit p u w → w ≤ u.length := by
  intro p u w hu
  cases hu with
  | reserved s hs hp => exact zero_le _
  | group members hpos hmax hall => exact le_refl _

/-! ## The scan over a group -/

theorem groupFault_eq_none_iff (groupLen : UInt32) (expected : UInt64) (members : List Slot) (k : ℕ)
    (hk : k+members.length ≤ 32) :
    groupFault groupLen expected (UInt32.ofNat k) members = none ↔
      ∀ j s, members[j]? = some s → s.header.eventTypeID ≠ 0 ∧
        (slotChecksumValid s ∧ s.header.eventID = expected+UInt64.ofNat (k+j)) ∧
        s.header.atomicGroupLen = groupLen ∧ s.header.atomicGroupIndex.toNat = k+j := by
  induction members generalizing k with
  | nil => simp [groupFault]
  | cons s members ih =>
    rw [length_cons] at hk
    have hwide : (UInt32.ofNat k).toUInt64 = UInt64.ofNat k := by
      apply UInt64.toNat_inj.mp
      simp only [UInt32.toNat_toUInt64, UInt32.toNat_ofNat', UInt64.toNat_ofNat']
      omega
    have hindex : s.header.atomicGroupIndex = UInt32.ofNat k ↔ s.header.atomicGroupIndex.toNat = k := by
      rw [← UInt32.toNat_inj, UInt32.toNat_ofNat', mod_eq_of_lt (by omega)]
    have hnext : UInt32.ofNat k+1 = UInt32.ofNat (k+1) := by
      rw [UInt32.ofNat_add]
      rfl
    have htail := ih (k+1) (by omega)
    rw [groupFault, hwide, hnext]
    constructor
    · intro h
      split_ifs at h with hplaced hmember
      rw [not_or, not_not, Bool.not_eq_false] at hplaced
      rw [not_or, not_or, not_not, not_not, hindex] at hmember
      intro j x hx
      cases j with
      | zero =>
        obtain rfl : s = x := by simpa using hx
        exact ⟨hmember.1,⟨hplaced.2,hplaced.1⟩,hmember.2⟩
      | succ j =>
        have := htail.mp h j x (by simpa using hx)
        rwa [add_assoc, add_comm 1 j] at this
    · intro h
      obtain ⟨htype,⟨hsum,hid⟩,hlen,hidx⟩ := h 0 s rfl
      rw [if_neg, if_neg, htail]
      · intro j x hx
        have := h (j+1) x (by simpa using hx)
        rwa [add_assoc, add_comm 1 j]
      · rw [not_or, not_or, not_not, not_not, hindex]
        exact ⟨htype,hlen,hidx⟩
      · rw [not_or, not_not, Bool.not_eq_false]
        exact ⟨hid,hsum⟩

/-! ## The scan over the log -/

/-- The scan stops at a position where no unit begins, with what it had so far. -/
def StopsAt (p : ℕ) (slots : List Slot) (r : RecoveryResult) : Prop :=
  (∀ u w, UnitAt IsEvent p u w → ¬ u <+: slots) ∧
    (recoverFrom slots (UInt64.ofNat p) r).nextEventID = UInt64.ofNat p ∧
    (recoverFrom slots (UInt64.ofNat p) r).visibleEvents = r.visibleEvents

/-- The scan takes the unit that begins there and goes on behind it. -/
def GoesOn (p : ℕ) (slots : List Slot) (r : RecoveryResult) : Prop :=
  ∃ u w rest r', UnitAt IsEvent p u w ∧ slots = u++rest ∧
    recoverFrom slots (UInt64.ofNat p) r = recoverFrom rest (UInt64.ofNat (p+u.length)) r' ∧
    r'.nextEventID = UInt64.ofNat (p+u.length) ∧ r'.visibleEvents = r.visibleEvents+UInt64.ofNat w

theorem stopsAt_of_stop {p : ℕ} {slots : List Slot} {r : RecoveryResult} (why : RecoveryStopReason)
    (h : recoverFrom slots (UInt64.ofNat p) r = r.stop (UInt64.ofNat p) why)
    (hno : ∀ u w, UnitAt IsEvent p u w → ¬ u <+: slots) : StopsAt p slots r := by
  refine ⟨hno,?_,?_⟩
  · rw [h]
    rfl
  · rw [h]
    rfl

theorem unit_head {u rest : List Slot} {s : Slot} (hu : UnitAt IsEvent p u w)
    (hpre : u <+: s::rest) : Placed p s ∧
      ((isReservedEmptySlot s.header ∧ u = [s]) ∨
        (s.header.eventTypeID ≠ 0 ∧ u = (s::rest).take s.header.atomicGroupLen.toNat ∧
          s.header.atomicGroupLen.toNat = u.length ∧ w = u.length)) := by
  obtain ⟨s',rest',rfl,hp,hkind⟩ := hu.head
  obtain ⟨l,he⟩ := hpre
  obtain rfl : s' = s := (List.cons.inj he).1
  refine ⟨hp,?_⟩
  obtain ⟨hr,hone,_⟩ | ⟨ht,hlen,hw⟩ := hkind
  · exact .inl ⟨hr,hone⟩
  · refine .inr ⟨ht,?_,hlen,hw⟩
    rw [hlen, ← he, take_left]

theorem recover_reserved_cases (p : ℕ) (s : Slot) (rest : List Slot) (r : RecoveryResult)
    (hsum : slotChecksumValid s) (htype : s.header.eventTypeID = 0) :
    StopsAt p (s::rest) r ∨ GoesOn p (s::rest) r := by
  have hunit : ∀ u w, UnitAt IsEvent p u w → u <+: s::rest →
      isReservedEmptySlot s.header ∧ s.header.eventID = UInt64.ofNat p := by
    intro u w hu hpre
    obtain ⟨hp,⟨hr,_⟩ | ⟨ht,_⟩⟩ := unit_head hu hpre
    · exact ⟨hr,hp.2⟩
    · exact absurd htype ht
  by_cases hr : isReservedEmptySlot s.header
  · by_cases hid : s.header.eventID = UInt64.ofNat p
    · have hone : UInt64.ofNat p+1 = UInt64.ofNat (p+1) := (UInt64.ofNat_add p 1).symm
      refine .inr ⟨[s],0,rest,{r with nextEventID := UInt64.ofNat (p+1)},.reserved s hr ⟨hsum,hid⟩,
        rfl,?_,rfl,?_⟩
      · rw [CrashAtomicity.recover_reserved s rest _ r hsum hr hid, hone]
        rfl
      · exact (UInt64.add_zero _).symm
    · refine .inl (stopsAt_of_stop .checksumMismatch ?_ fun u w hu hpre => ?_)
      · rw [recoverFrom]
        simp [hsum, htype, hr, hid]
      · exact hid (hunit u w hu hpre).2
  · refine .inl (stopsAt_of_stop .invalidEmptySlot ?_ fun u w hu hpre => ?_)
    · rw [recoverFrom]
      simp [hsum, htype, hr]
    · exact hr (hunit u w hu hpre).1

/-- The members that the scan looks at form a group exactly when it finds no fault. -/
theorem group_iff (p : ℕ) (s : Slot) (rest : List Slot)
    (hpos : 1 ≤ s.header.atomicGroupLen.toNat) (hmax : s.header.atomicGroupLen.toNat ≤ 32)
    (hfits : s.header.atomicGroupLen.toNat ≤ (s::rest).length) :
    groupFault s.header.atomicGroupLen (UInt64.ofNat p) 0
        ((s::rest).take s.header.atomicGroupLen.toNat) = none ↔
      UnitAt IsEvent p ((s::rest).take s.header.atomicGroupLen.toNat)
        s.header.atomicGroupLen.toNat := by
  have hlen : ((s::rest).take s.header.atomicGroupLen.toNat).length =
      s.header.atomicGroupLen.toNat := by
    rw [length_take]
    omega
  have hscan := groupFault_eq_none_iff s.header.atomicGroupLen (UInt64.ofNat p)
    ((s::rest).take s.header.atomicGroupLen.toNat) 0 (by omega)
  rw [show (0 : UInt32) = UInt32.ofNat 0 from rfl, hscan]
  constructor
  · intro h
    have hgroup : UnitAt IsEvent p ((s::rest).take s.header.atomicGroupLen.toNat)
        ((s::rest).take s.header.atomicGroupLen.toNat).length := by
      refine .group _ (by omega) (by omega) fun j x hx => ?_
      obtain ⟨ht,⟨hsum,hid⟩,hl,hi⟩ := h j x hx
      rw [zero_add] at hid hi
      refine ⟨ht,⟨hsum,?_⟩,?_,hi⟩
      · rw [hid, UInt64.ofNat_add]
      · rw [hl, hlen]
    rwa [hlen] at hgroup
  · intro hu j x hx
    obtain ⟨ht,⟨hsum,hid⟩,hl,hi⟩ := hu.members hpos j x hx
    rw [zero_add]
    refine ⟨ht,⟨hsum,?_⟩,?_,hi⟩
    · rw [hid, UInt64.ofNat_add]
    · exact UInt32.toNat_inj.mp (hl.trans hlen)

theorem recover_group_cases (p : ℕ) (s : Slot) (rest : List Slot) (r : RecoveryResult)
    (hp : Placed p s) (htype : s.header.eventTypeID ≠ 0) :
    StopsAt p (s::rest) r ∨ GoesOn p (s::rest) r := by
  have hunit : ∀ u w, UnitAt IsEvent p u w → u <+: s::rest →
      u = (s::rest).take s.header.atomicGroupLen.toNat ∧
        s.header.atomicGroupLen.toNat = u.length ∧ w = u.length := by
    intro u w hu hpre
    obtain ⟨_,⟨hr,_⟩ | ⟨_,he⟩⟩ := unit_head hu hpre
    · exact absurd (reserved_type hr) htype
    · exact he
  have h32 : storageMaxAtomicGroupSlots.toUInt32.toNat = 32 := rfl
  by_cases hg : s.header.atomicGroupLen = 0 ∨
      s.header.atomicGroupLen > storageMaxAtomicGroupSlots.toUInt32 ∨
      s.header.atomicGroupLen.toNat > (s::rest).length
  · -- no unit has that length
    refine .inl (stopsAt_of_stop .incompleteAtomicGroup ?_ fun u w hu hpre => ?_)
    · rw [recoverFrom]
      simp only [hp.1, Bool.true_eq_false, if_false, if_neg htype, hp.2, ne_eq, not_true_eq_false]
      rw [dif_pos hg]
    · obtain ⟨_,hlen,_⟩ := hunit u w hu hpre
      have hle := hpre.length_le
      have hbounds := hu.length_bounds
      rw [gt_iff_lt, UInt32.lt_iff_toNat_lt, h32, ← UInt32.toNat_inj, UInt32.toNat_zero] at hg
      omega
  · rw [not_or, not_or, gt_iff_lt, UInt32.lt_iff_toNat_lt, h32, ← UInt32.toNat_inj,
      UInt32.toNat_zero] at hg
    have hgroup := group_iff p s rest (by omega) (by omega) (by omega)
    cases hfault : groupFault s.header.atomicGroupLen (UInt64.ofNat p) 0
        ((s::rest).take s.header.atomicGroupLen.toNat) with
    | none =>
      have hlen : ((s::rest).take s.header.atomicGroupLen.toNat).length =
          s.header.atomicGroupLen.toNat := by
        rw [length_take]
        omega
      have hwide : s.header.atomicGroupLen.toUInt64 = UInt64.ofNat s.header.atomicGroupLen.toNat := by
        apply UInt64.toNat_inj.mp
        rw [UInt32.toNat_toUInt64, UInt64.toNat_ofNat', mod_eq_of_lt]
        omega
      refine .inr ⟨_,_,(s::rest).drop s.header.atomicGroupLen.toNat,
        ⟨r.visibleEvents+s.header.atomicGroupLen.toUInt64,
          UInt64.ofNat p+s.header.atomicGroupLen.toUInt64,
          UInt64.ofNat p+s.header.atomicGroupLen.toUInt64-1,r.stopReason⟩,
        hgroup.mp hfault,(take_append_drop _ _).symm,?_,?_,?_⟩
      · rw [CrashAtomicity.recover_group s rest _ r _ hp.1 htype hp.2 rfl (by omega) (by omega)
          (by omega) hfault, hlen, UInt64.ofNat_add, ← hwide]
      · rw [hlen, UInt64.ofNat_add, ← hwide]
      · rw [← hwide]
    | some why =>
      refine .inl (stopsAt_of_stop why ?_ fun u w hu hpre => ?_)
      · rw [recoverFrom]
        simp only [hp.1, Bool.true_eq_false, if_false, if_neg htype, hp.2, ne_eq, not_true_eq_false]
        rw [dif_neg, hfault]
        rw [not_or, not_or, gt_iff_lt, UInt32.lt_iff_toNat_lt, h32, ← UInt32.toNat_inj,
          UInt32.toNat_zero]
        exact hg
      · obtain ⟨he,hlen,rfl⟩ := hunit u w hu hpre
        rw [← hlen, he] at hu
        rw [hgroup.mpr hu] at hfault
        cases hfault

theorem recover_cases (p : ℕ) (slots : List Slot) (r : RecoveryResult)
    (hr : r.nextEventID = UInt64.ofNat p) : StopsAt p slots r ∨ GoesOn p slots r := by
  cases slots with
  | nil =>
    refine .inl ⟨fun u w hu hpre => ?_,?_,?_⟩
    · exact (units IsEvent).ne_nil p u w hu (prefix_nil.mp hpre)
    · rw [CrashAtomicity.recover_nil]
      exact hr
    · rw [CrashAtomicity.recover_nil]
  | cons s rest =>
    have hplaced : ∀ u w, UnitAt IsEvent p u w → u <+: s::rest → Placed p s :=
      fun u w hu hpre => (unit_head hu hpre).1
    by_cases hsum : slotChecksumValid s
    · by_cases htype : s.header.eventTypeID = 0
      · exact recover_reserved_cases p s rest r hsum htype
      · by_cases hid : s.header.eventID = UInt64.ofNat p
        · exact recover_group_cases p s rest r ⟨hsum,hid⟩ htype
        · refine .inl (stopsAt_of_stop .checksumMismatch ?_ fun u w hu hpre => ?_)
          · rw [recoverFrom]
            simp [hsum, htype, hid]
          · exact hid (hplaced u w hu hpre).2
    · refine .inl (stopsAt_of_stop .checksumMismatch ?_ fun u w hu hpre => ?_)
      · rw [recoverFrom]
        simp [hsum]
      · exact hsum (hplaced u w hu hpre).1

/-- From any position the scan accepts the longest prefix that splits into units. -/
theorem recoverFrom_longest (slots : List Slot) (p : ℕ) (r : RecoveryResult)
    (hr : r.nextEventID = UInt64.ofNat p) :
    ∃ n v, Longest (units IsEvent) p slots n v ∧
      (recoverFrom slots (UInt64.ofNat p) r).nextEventID = UInt64.ofNat (p+n) ∧
      (recoverFrom slots (UInt64.ofNat p) r).visibleEvents = r.visibleEvents+UInt64.ofNat v := by
  -- the scan goes on behind a unit, which is never empty
  induction hlen : slots.length using Nat.strong_induction_on generalizing slots p r with
  | _ len ih =>
    obtain ⟨hno,hnext,hvisible⟩ | ⟨u,w,rest,r',hu,rfl,he,hr',hvisible⟩ := recover_cases p slots r hr
    · exact ⟨0,0,longest_stop hno,hnext,hvisible.trans (UInt64.add_zero _).symm⟩
    · have hpos : 0 < u.length := length_pos_iff.mpr ((units IsEvent).ne_nil p u w hu)
      rw [length_append] at hlen
      obtain ⟨n,v,hlong,hn,hv⟩ := ih rest.length (by omega) rest (p+u.length) r' hr' rfl
      refine ⟨u.length+n,w+v,longest_unit hu hlong,?_,?_⟩
      · rw [he, hn, add_assoc]
      · rw [he, hv, hvisible, UInt64.ofNat_add, UInt64.add_assoc]

theorem recoverSlots_longest (slots : List Slot) (hlen : slots.length < 2^64) :
    ∃ n v, Longest (units IsEvent) 0 slots n v ∧
      (recoverSlots slots).nextEventID.toNat = n ∧ (recoverSlots slots).visibleEvents.toNat = v := by
  obtain ⟨n,v,hlong,hn,hv⟩ := recoverFrom_longest slots 0 ⟨0,0,0,.cleanEOF⟩ rfl
  have hle := hlong.le
  have hweight := hlong.splits.weight_le (units_weight_le IsEvent)
  rw [length_take, min_eq_left hle] at hweight
  have hnext : (recoverSlots slots).nextEventID = UInt64.ofNat n := by
    rw [← zero_add n]
    exact hn
  have hvisible : (recoverSlots slots).visibleEvents = UInt64.ofNat v :=
    hv.trans (UInt64.zero_add _)
  refine ⟨n,v,hlong,?_,?_⟩
  · rw [hnext, UInt64.toNat_ofNat', mod_eq_of_lt (by omega)]
  · rw [hvisible, UInt64.toNat_ofNat', mod_eq_of_lt (by omega)]

/-- Recovery accepts the longest prefix that splits into reserved-empty slots and
whole groups of events, and accepts no less of a longer log. -/
theorem recovery_accepts_longest (slots more : List Slot) (hlen : (slots++more).length < 2^64) :
    (∃ n v, Longest (units IsEvent) 0 slots n v ∧
      (recoverSlots slots).nextEventID.toNat = n ∧ (recoverSlots slots).visibleEvents.toNat = v) ∧
    (recoverSlots slots).nextEventID ≤ (recoverSlots (slots++more)).nextEventID ∧
    (recoverSlots slots).visibleEvents ≤ (recoverSlots (slots++more)).visibleEvents := by
  have hshort : slots.length < 2^64 := by
    rw [length_append] at hlen
    omega
  obtain ⟨n,v,hlong,hn,hv⟩ := recoverSlots_longest slots hshort
  obtain ⟨n',v',hlong',hn',hv'⟩ := recoverSlots_longest (slots++more) hlen
  obtain ⟨hle,hle'⟩ := hlong.mono hlong'
  refine ⟨⟨n,v,hlong,hn,hv⟩,?_,?_⟩
  · rw [UInt64.le_iff_toNat_le, hn, hn']
    exact hle
  · rw [UInt64.le_iff_toNat_le, hv, hv']
    exact hle'

def slotOf (id : UInt64) (type groupLen groupIndex flags : UInt32) : Slot :=
  refreshSlotChecksum ⟨⟨id,0,0,type,0,groupLen,groupIndex,0,flags,0,1,0,0⟩,Vector.replicate _ 0⟩

/-- An event, a group of two, and the first slot of a group whose rest is missing. -/
def tornLog : List Slot :=
  [slotOf 0 1001 1 0 0]++([slotOf 1 1001 2 0 0, slotOf 2 1001 2 1 0]++[slotOf 3 1001 2 0 0])

theorem recovery_accepts_longest_torn :
    (tornLog++[slotOf 4 0 0 0 1]).length < 2^64 ∧
    ∃ n v, Longest (units IsEvent) 0 tornLog n v ∧
      (recoverSlots tornLog).nextEventID.toNat = n ∧
      (recoverSlots tornLog).visibleEvents.toNat = v :=
  ⟨by decide,(recovery_accepts_longest tornLog [slotOf 4 0 0 0 1] (by decide)).1⟩

/-- A log that is cut where recovery stopped and then grows by whole units is recovered
in full: what was accepted stays, and nothing is lost. -/
theorem recovery_resumes {slots more : List Slot} {n w : ℕ} (hlen : slots.length < 2^64)
    (hn : (recoverSlots slots).nextEventID.toNat = n) (hmore : Splits (units IsEvent) n more w)
    (hroom : n+more.length < 2^64) :
    (recoverSlots (slots.take n++more)).nextEventID.toNat = n+more.length ∧
    (recoverSlots (slots.take n++more)).visibleEvents.toNat =
      (recoverSlots slots).visibleEvents.toNat+w := by
  obtain ⟨_,v,hlong,rfl,hv⟩ := recoverSlots_longest slots hlen
  rw [hn] at hlong
  have htake : (slots.take n).length = n := length_take_of_le hlong.le
  have hlog : (slots.take n++more).length = n+more.length := by rw [length_append, htake]
  have hwhole := hlong.splits.append (by rwa [htake, zero_add])
  obtain ⟨n',v',hlong',hn',hv'⟩ := recoverSlots_longest (slots.take n++more) (hlog ▸ hroom)
  obtain ⟨hfull,hweight⟩ := hlong'.whole hwhole
  exact ⟨by rw [hn', hfull, hlog],by rw [hv', hweight, hv]⟩

theorem slotOf_valid (id : UInt64) (type groupLen groupIndex flags : UInt32) :
    slotChecksumValid (slotOf id type groupLen groupIndex flags) :=
  refresh_valid _

theorem single_unit {id : UInt64} (p : ℕ) (hp : id = UInt64.ofNat p) :
    UnitAt IsEvent p [slotOf id 1001 1 0 0] 1 := by
  refine .group _ (le_refl 1) (le_add_left 1 31) fun j s hs => ?_
  obtain ⟨rfl,rfl⟩ : j = 0 ∧ s = slotOf id 1001 1 0 0 := by
    cases j with
    | zero => exact ⟨rfl,(Option.some.inj hs).symm⟩
    | succ j => cases hs
  exact ⟨(by decide : (1001 : UInt32) ≠ 0),⟨slotOf_valid ..,hp⟩,rfl,rfl⟩

theorem pair_unit : UnitAt IsEvent 1 [slotOf 1 1001 2 0 0, slotOf 2 1001 2 1 0] 2 := by
  have htype : (1001 : UInt32) ≠ 0 := by decide
  refine .group _ (le_add_left 1 1) (le_add_left 2 30) fun j s hs => ?_
  match j, hs with
  | 0, hs =>
    obtain rfl := Option.some.inj hs
    exact ⟨htype,⟨slotOf_valid ..,rfl⟩,rfl,rfl⟩
  | 1, hs =>
    obtain rfl := Option.some.inj hs
    exact ⟨htype,⟨slotOf_valid ..,rfl⟩,rfl,rfl⟩

theorem tornLog_longest : Longest (units IsEvent) 0 tornLog 3 3 := by
  suffices hend : Longest (units IsEvent) 3 [slotOf 3 1001 2 0 0] 0 0 by
    have hpair := longest_unit (U := units IsEvent) (p := 1) pair_unit hend
    exact longest_unit (U := units IsEvent) (p := 0) (single_unit 0 rfl) hpair
  refine longest_stop fun u w hu hpre => ?_
  obtain ⟨s,rest,rfl,-,⟨hr,-⟩ | ⟨-,hlen,-⟩⟩ := UnitAt.head hu
  · -- the slot that is left is no reserved one
    obtain ⟨_,he⟩ := hpre
    rw [(List.cons.inj he).1] at hr
    exact absurd hr (by decide)
  · -- its group has two slots
    have hle := hpre.length_le
    obtain ⟨_,he⟩ := hpre
    rw [(List.cons.inj he).1] at hlen
    have htwo : 2 = rest.length+1 := hlen
    rw [length_cons, ← htwo] at hle
    exact absurd hle (by decide)

/-- The torn slot is overwritten by an event, with a reserved slot behind it. -/
theorem recovery_resumes_torn :
    (recoverSlots tornLog).nextEventID.toNat = 3 ∧
    (recoverSlots (tornLog.take 3++[slotOf 3 1001 1 0 0, slotOf 4 0 0 0 1])).nextEventID.toNat = 5 ∧
    (recoverSlots (tornLog.take 3++[slotOf 3 1001 1 0 0, slotOf 4 0 0 0 1])).visibleEvents.toNat =
      (recoverSlots tornLog).visibleEvents.toNat+1 := by
  have hlen : tornLog.length < 2^64 := by decide
  obtain ⟨n,v,hlong,hn,-⟩ := recoverSlots_longest tornLog hlen
  have hthree : n = 3 := Nat.le_antisymm
    (tornLog_longest.longest n v hlong.le hlong.splits)
    (hlong.longest 3 3 tornLog_longest.le tornLog_longest.splits)
  rw [hthree] at hn
  have hreserved : UnitAt IsEvent 4 [slotOf 4 0 0 0 1] 0 :=
    .reserved _ (by decide) ⟨slotOf_valid ..,rfl⟩
  have hmore : Splits (units IsEvent) 3 ([slotOf 3 1001 1 0 0]++([slotOf 4 0 0 0 1]++[])) (1+(0+0)) :=
    .cons (single_unit 3 rfl) (.cons hreserved (.nil _))
  exact ⟨hn,recovery_resumes hlen hn hmore (by decide)⟩

/-- A slot of type zero may carry a group length of one: it has the form of a whole
group, and recovery stops before it. -/
theorem untyped_group_refused :
    Longest (units fun _ => True) 0 [slotOf 0 0 1 0 0] 1 1 ∧
    (recoverSlots [slotOf 0 0 1 0 0]).nextEventID = 0 ∧
    (recoverSlots [slotOf 0 0 1 0 0]).stopReason = .invalidEmptySlot := by
  have hsum := slotOf_valid 0 0 1 0 0
  have hunit : UnitAt (fun _ => True) 0 [slotOf 0 0 1 0 0] 1 := by
    refine .group _ (le_refl 1) (le_add_left 1 31) fun j s hs => ?_
    obtain ⟨rfl,rfl⟩ : j = 0 ∧ s = slotOf 0 0 1 0 0 := by
      cases j with
      | zero => exact ⟨rfl,(Option.some.inj hs).symm⟩
      | succ j => cases hs
    exact ⟨trivial,⟨hsum,rfl⟩,rfl,rfl⟩
  have hend : Longest (units fun _ => True) 1 [] 0 0 :=
    longest_stop fun u w hu hpre => (units _).ne_nil _ u w hu (prefix_nil.mp hpre)
  have hstop : recoverSlots [slotOf 0 0 1 0 0] = ⟨0,0,0,.invalidEmptySlot⟩ := by
    have htype : (slotOf 0 0 1 0 0).header.eventTypeID = 0 := rfl
    have hreserved : isReservedEmptySlot (slotOf 0 0 1 0 0).header = false := rfl
    rw [recoverSlots, recoverFrom]
    simp [hsum, htype, hreserved, RecoveryResult.stop]
  have hlong : Longest (units fun _ => True) 0 ([slotOf 0 0 1 0 0]++[]) (1+0) (1+0) :=
    longest_unit hunit hend
  rw [hstop]
  exact ⟨hlong,rfl,rfl⟩

end Wrela.Recovery

import Wrela.DepthSearch
import Wrela.X86.Memory

/-!
# The capability list of a function

The list is followed for at most 48 entries; they are four bytes apart from 0x40 to
0xFC, so a longer walk would be on a cycle.
-/

set_option autoImplicit false

namespace Wrela.Pci.Capabilities
open ChainSearch X86

structure PciDevice where
  readConfig32 : BitVec 16 → BitVec 32
  readConfig32Mmio : BitVec 16 → BitVec 32

section
variable (read : BitVec 16 → BitVec 32) (capabilityId : BitVec 8)

def hasList : Bool := read 0x04 &&& 0x00100000 ≠ 0

def head : BitVec 32 := read 0x34 &&& 0xFC

def header (ptr : BitVec 32) : BitVec 32 := read (ptr.setWidth 16)

def link (ptr : BitVec 32) : BitVec 32 := header read ptr >>> 8 &&& 0xFC

def carries (ptr : BitVec 32) : Bool := header read ptr &&& 0xFF = capabilityId.setWidth 32

def walk : Outcome (BitVec 32) :=
  search (link read) (· = 0) (carries read capabilityId ·) 48 (head read)

def findOptional : BitVec 16 :=
  if hasList read then
    match walk read capabilityId with
    | .found ptr => ptr.setWidth 16
    | .ended => 0
    | .exhausted => 0
  else 0

def find : Except Word (BitVec 16) :=
  if hasList read then
    match walk read capabilityId with
    | .found ptr => .ok (ptr.setWidth 16)
    | .ended => .error 0xAC060021
    | .exhausted => .error 0xAC060022
  else .error 0xAC060020

variable (device : PciDevice)

def findCapabilityOptional : BitVec 16 := findOptional device.readConfig32 capabilityId

def findCapabilityOptionalMmio : BitVec 16 := findOptional device.readConfig32Mmio capabilityId

def findCapability : Except Word (BitVec 16) := find device.readConfig32 capabilityId

def findCapabilityMmio : Except Word (BitVec 16) := find device.readConfig32Mmio capabilityId

def entry (n : ℕ) : BitVec 32 := (link read)^[n] (head read)

/-- The list ends before the first null pointer, and there is none without the bit of the
status register. -/
def Listed (n : ℕ) : Prop := hasList read ∧ Inside (link read) (· = 0) (head read) n

def InRange : Prop := ∀ n, Listed read n → 0x40 ≤ entry read n ∧ entry read n ≤ 0xFC

def FirstWith (offset : BitVec 16) : Prop :=
  ∃ n, Listed read n ∧ carries read capabilityId (entry read n) ∧
    (∀ i < n, ¬ carries read capabilityId (entry read i)) ∧ (entry read n).setWidth 16 = offset

def Absent : Prop := ∀ n, Listed read n → ¬ carries read capabilityId (entry read n)

/-- The two searches find the first entry, and nothing exactly if there is none. -/
structure Complete (optional : BitVec 16) (required : Except Word (BitVec 16)) : Prop where
  required_iff : ∀ offset, required = .ok offset ↔ FirstWith read capabilityId offset
  optional_iff : ∀ offset ≠ 0#16, optional = offset ↔ FirstWith read capabilityId offset
  panics_iff : (∃ code, required = .error code) ↔ Absent read capabilityId
  none_iff : optional = 0#16 ↔ Absent read capabilityId

end

variable {read : BitVec 16 → BitVec 32} {capabilityId : BitVec 8}

def places : Finset (BitVec 32) := (Finset.range 48).image fun i => BitVec.ofNat 32 (0x40+4*i)

theorem and_mem_places (x : BitVec 32) (h : 0x40 ≤ x &&& 0xFC) : x &&& 0xFC ∈ places := by
  have hall : ∀ n < 256, 0x40 ≤ n &&& 0xFC → ∃ i < 48, 0x40+4*i = n &&& 0xFC := by decide +kernel
  have hlow : (x &&& 0xFC).toNat = x.toNat%256 &&& 0xFC := by
    rw [BitVec.toNat_and]
    have := @Nat.and_mod_two_pow x.toNat 0xFC 8
    rwa [Nat.mod_eq_of_lt (Nat.and_le_right.trans_lt (by decide))] at this
  obtain ⟨i,hi,heq⟩ := hall _ (Nat.mod_lt x.toNat (by decide)) (hlow ▸ h)
  refine Finset.mem_image.mpr ⟨i,Finset.mem_range.mpr hi,?_⟩
  rw [heq, ← hlow, BitVec.ofNat_toNat, BitVec.setWidth_eq]

theorem entry_mem_places (h : InRange read) {n : ℕ} (hn : Listed read n) :
    entry read n ∈ places := by
  have hmasked : ∃ x, entry read n = x &&& 0xFC := by
    cases n with
    | zero => exact ⟨_,rfl⟩
    | succ n => exact ⟨_,Function.iterate_succ_apply' _ _ _⟩
  obtain ⟨x,hx⟩ := hmasked
  have := (h n hn).1
  rw [hx] at this ⊢
  exact and_mem_places x this

theorem firstWith_iff (h : InRange read) (hlist : hasList read) {offset : BitVec 16} :
    FirstWith read capabilityId offset ↔
      ∃ ptr, walk read capabilityId = .found ptr ∧ ptr.setWidth 16 = offset := by
  simp only [walk, search_eq_found_iff]
  constructor
  · rintro ⟨n,hn,hid,hbefore,rfl⟩
    have hfirst : First (link read) (· = 0) (carries read capabilityId ·) (head read) n :=
      ⟨hn.2,hbefore,hid⟩
    have hlt := hfirst.lt_card fun i hi => entry_mem_places h ⟨hlist,hi⟩
    exact ⟨_,⟨n,hlt.trans_le Finset.card_image_le,hfirst,rfl⟩,rfl⟩
  · rintro ⟨_,⟨n,_,hn,rfl⟩,rfl⟩
    exact ⟨n,⟨hlist,hn.inside⟩,hn.reached,hn.before,rfl⟩

theorem absent_iff : Absent read capabilityId ↔ ∀ offset, ¬ FirstWith read capabilityId offset := by
  constructor
  · rintro habsent _ ⟨n,hn,hid,_⟩
    exact habsent n hn hid
  · intro hnone n hn hid
    obtain ⟨k,hk⟩ := (@exists_first_iff _ _ _ (carries read capabilityId ·) _ _).mpr
      ⟨n,hn.2,hid⟩
    exact hnone _ ⟨k,⟨hn.1,hk.inside⟩,hk.reached,hk.before,rfl⟩

theorem FirstWith.ne_zero (h : InRange read) {offset : BitVec 16}
    (hoffset : FirstWith read capabilityId offset) : offset ≠ 0#16 := by
  obtain ⟨n,hn,_,_,rfl⟩ := hoffset
  have := h n hn
  bv_omega

theorem find_eq_ok_iff (h : InRange read) {offset : BitVec 16} :
    find read capabilityId = .ok offset ↔ FirstWith read capabilityId offset := by
  rw [find]
  split_ifs with hlist
  · rw [firstWith_iff h hlist]
    cases walk read capabilityId <;> simp
  · refine iff_of_false nofun ?_
    rintro ⟨n,hn,_⟩
    exact hlist hn.1

theorem findOptional_eq (read : BitVec 16 → BitVec 32) (capabilityId : BitVec 8) :
    findOptional read capabilityId = (find read capabilityId).toOption.getD 0#16 := by
  rw [findOptional, find]
  split_ifs
  · cases walk read capabilityId <;> rfl
  · rfl

theorem find_complete (h : InRange read) :
    Complete read capabilityId (findOptional read capabilityId) (find read capabilityId) := by
  have hok := @find_eq_ok_iff read capabilityId h
  have hne := @FirstWith.ne_zero read capabilityId h
  simp only [← hok] at hne
  rw [findOptional_eq]
  refine ⟨fun _ => hok,fun offset hoffset => ?_,?_,?_⟩
  · rw [← hok]
    cases find read capabilityId <;> simp [Except.toOption, hoffset.symm]
  all_goals
    simp only [absent_iff, ← hok]
    cases hfind : find read capabilityId with
    | error code => simp [Except.toOption]
    | ok offset => simp [Except.toOption, hne hfind]

theorem capability_search_complete (device : PciDevice) (capabilityId : BitVec 8)
    (hports : InRange device.readConfig32) (hmmio : InRange device.readConfig32Mmio) :
    Complete device.readConfig32 capabilityId (findCapabilityOptional capabilityId device)
      (findCapability capabilityId device) ∧
    Complete device.readConfig32Mmio capabilityId (findCapabilityOptionalMmio capabilityId device)
      (findCapabilityMmio capabilityId device) :=
  ⟨find_complete hports,find_complete hmmio⟩

def cyclic (offset : BitVec 16) : BitVec 32 :=
  if offset = 0x04 then 0x00100000 else if offset = 0x34 then 0x40 else 0x4005

theorem capability_search_complete_cyclic :
    InRange cyclic ∧ find cyclic 5 = .ok 0x40 ∧ find cyclic 9 = .error 0xAC060022 ∧
    Complete cyclic 9 (findOptional cyclic 9) (find cyclic 9) := by
  have hrange : InRange cyclic := by
    intro n _
    rw [entry, Function.iterate_fixed (by decide)]
    decide
  exact ⟨hrange,by decide,by decide,(capability_search_complete ⟨cyclic,cyclic⟩ 9 hrange hrange).1⟩

end Wrela.Pci.Capabilities

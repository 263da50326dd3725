import Wrela.Cache.Slots
import Wrela.RoundRobin

/-!
# A cache arena in memory

The arena object, the handle and the storage lie apart, and the slots lie one behind the
other in the storage. What is in a slot depends on the bytes of the slot only.
-/

set_option autoImplicit false

namespace Wrela.CacheMemory
open X86 RoundRobin Nat

abbrev Entry := Word × List (BitVec 8)

structure Cache where
  self : Word
  handle : Word
  address : Word
  length : Word
  slotCount : Word
  slotSize : Word
  fits : slotCount.toNat*(slotSize.toNat+24) ≤ length.toNat
  self_handle : Apart self 40 handle 16
  self_storage : Apart self 40 address length.toNat
  handle_storage : Apart handle 16 address length.toNat

namespace Cache
variable (c : Cache) {i w : ℕ}

def slots : ℕ := c.slotCount.toNat

def stride : Word := c.slotSize+24

def slot (i : ℕ) : Word := slotAddress c.address c.stride i

def Owns (x : Word) : Prop :=
  InRange x c.self 40 ∨ InRange x c.handle 16 ∨ InRange x c.address c.length.toNat

def Outside (a : Word) (n : ℕ) : Prop :=
  Apart a n c.self 40 ∧ Apart a n c.handle 16 ∧ Apart a n c.address c.length.toNat

instance (a : Word) (n : ℕ) : Decidable (c.Outside a n) := inferInstanceAs (Decidable (_ ∧ _))

structure Laid (m : Mem) : Prop where
  storage : load m c.self 8 = c.handle
  slotCount : load m (c.self+8) 8 = c.slotCount
  slotSize : load m (c.self+16) 8 = c.slotSize
  address : load m c.handle 8 = c.address
  length : load m (c.handle+8) 8 = c.length

structure Filled (m : Mem) (puts : List Entry) : Prop where
  laid : c.Laid m
  initialized : load m (c.self+32) 8 = 1
  victim : (load m (c.self+24) 8).toNat = puts.length%c.slots
  room : ∀ p ∈ puts, p.2.length ≤ c.slotSize.toNat
  entries : ∀ i < c.slots, ∀ p, slotEntry m (c.slot i) = some p ↔ Holds c.slots puts i p

/-- A cache that has not been initialized counts as empty. -/
structure Inv (m : Mem) (puts : List Entry) : Prop where
  laid : c.Laid m
  filled : load m (c.self+32) 8 = 1 → c.Filled m puts
  empty : load m (c.self+32) 8 ≠ 1 → puts = []

variable {c} {x : Word} {m m' : Mem} {puts : List Entry}

theorem Outside.not_owns {a : Word} {n : ℕ} (h : c.Outside a n) (hx : InRange x a n) :
    ¬ c.Owns x := by
  rintro (hs | hs | hs)
  · exact h.1.disjoint x hx hs
  · exact h.2.1.disjoint x hx hs
  · exact h.2.2.disjoint x hx hs

/-! ### Where the slots lie -/

theorem stride_toNat (hn : 0 < c.slots) : c.stride.toNat = c.slotSize.toNat+24 := by
  have hfits := c.fits
  have hone := Nat.le_mul_of_pos_left (c.slotSize.toNat+24) hn
  have hlt := c.length.isLt
  rw [stride, BitVec.toNat_add, mod_eq_of_lt]
  · rfl
  · show c.slotSize.toNat+24 < 2^64
    exact lt_of_le_of_lt (hone.trans hfits) hlt

section
variable (hi : i < c.slots)
include hi

theorem slot_end : i*c.stride.toNat+(c.slotSize.toNat+24) ≤ c.length.toNat := by
  have hmul := Nat.mul_le_mul_right (c.slotSize.toNat+24) (succ_le_of_lt hi)
  rw [stride_toNat (by omega)]
  rw [succ_mul] at hmul
  exact hmul.trans c.fits

theorem inRange_slot_iff (hw : w ≤ c.slotSize.toNat+24) :
    InRange x (c.slot i) w ↔
      i*c.stride.toNat ≤ (x-c.address).toNat ∧ (x-c.address).toNat < i*c.stride.toNat+w := by
  have hend := slot_end hi
  have hlt := c.length.isLt
  exact inRange_add_iff (by omega)

theorem slot_owned (hw : w ≤ c.slotSize.toNat+24)
    (h : InRange x (c.slot i) w) : InRange x c.address c.length.toNat := by
  have hend := slot_end hi
  have := (inRange_slot_iff hi hw).mp h
  rw [InRange]
  omega

theorem slots_disjoint {j : ℕ} (hj : j < c.slots) (hij : i ≠ j) :
    Disjoint (c.slot i) (c.slotSize.toNat+24) (c.slot j) (c.slotSize.toNat+24) := by
  have hstride := stride_toNat (c := c) (by omega)
  intro x hx hx'
  have h1 := (inRange_slot_iff hi le_rfl).mp hx
  have h2 := (inRange_slot_iff hj le_rfl).mp hx'
  rw [hstride] at h1 h2
  rcases lt_or_gt_of_ne hij with hlt | hlt
  all_goals
    have := Nat.mul_le_mul_right (c.slotSize.toNat+24) (succ_le_of_lt hlt)
    rw [succ_mul] at this
    omega

end

/-! ### What depends on which bytes -/

theorem inRange_field {k : ℕ} (hk : k+w ≤ 40)
    (h : InRange x (c.self+BitVec.ofNat 64 k) w) : InRange x c.self 40 := h.shift hk

theorem Laid.frame (h : c.Laid m) (hself : ∀ x, InRange x c.self 24 → m' x = m x)
    (hhandle : ∀ x, InRange x c.handle 16 → m' x = m x) : c.Laid m' where
  storage := (load_frame fun x hx => hself x (hx.mono (by omega))).trans h.storage
  slotCount := (load_frame fun x hx => hself x (hx.shift (k := 8) (by omega))).trans h.slotCount
  slotSize := (load_frame fun x hx => hself x (hx.shift (k := 16) (by omega))).trans h.slotSize
  address := (load_frame fun x hx => hhandle x (hx.mono (by omega))).trans h.address
  length := (load_frame fun x hx => hhandle x (hx.shift (k := 8) (by omega))).trans h.length

theorem slotEntry_frame {slot : Word} {size : ℕ} (h : ∀ x, InRange x slot (size+24) → m' x = m x)
    (hroom : ∀ p, slotEntry m slot = some p → p.2.length ≤ size) :
    slotEntry m' slot = slotEntry m slot := by
  have hhead : load m' slot 8 = load m slot 8 := load_frame fun x hx => h x (hx.mono (by omega))
  have hkey : load m' (slot+8) 8 = load m (slot+8) 8 :=
    load_frame fun x hx => h x (hx.shift (k := 8) (by omega))
  have hlen : load m' (slot+16) 8 = load m (slot+16) 8 :=
    load_frame fun x hx => h x (hx.shift (k := 16) (by omega))
  rw [slotEntry, slotEntry, hhead, hkey, hlen]
  split
  · next hused =>
    have hle := hroom _ (by rw [slotEntry, if_pos hused])
    rw [length_bytes] at hle
    have hbytes : bytes m' (slot+24) (load m (slot+16) 8).toNat =
        bytes m (slot+24) (load m (slot+16) 8).toNat :=
      bytes_frame fun x hx => h x (hx.shift (k := 24) (by omega))
    rw [hbytes]
  · rfl

theorem Filled.entry_room {m : Mem} (h : c.Filled m puts) (hi : i < c.slots) {p : Entry}
    (hp : slotEntry m (c.slot i) = some p) : p.2.length ≤ c.slotSize.toNat := by
  obtain ⟨a,ha,-⟩ := (h.entries i hi p).mp hp
  exact h.room p (List.mem_of_getElem? ha.2)

theorem Filled.frame (h : c.Filled m puts)
    (hm : ∀ x, c.Owns x → m' x = m x) : c.Filled m' puts where
  laid := h.laid.frame (fun x hx => hm x (.inl (hx.mono (by omega)))) fun x hx => hm x (.inr (.inl hx))
  initialized := (load_frame fun x hx =>
    hm x (.inl (inRange_field (k := 32) (by omega) hx))).trans h.initialized
  victim := (congrArg BitVec.toNat (load_frame fun x hx =>
    hm x (.inl (inRange_field (k := 24) (by omega) hx)))).trans h.victim
  room := h.room
  entries i hi p := by
    rw [slotEntry_frame (fun x hx => hm x (.inr (.inr (slot_owned hi le_rfl hx))))
      fun p hp => h.entry_room hi hp]
    exact h.entries i hi p

theorem Inv.frame (h : c.Inv m puts) (hm : ∀ x, c.Owns x → m' x = m x) : c.Inv m' puts := by
  have hinit : load m' (c.self+32) 8 = load m (c.self+32) 8 :=
    load_frame fun x hx => hm x (.inl (inRange_field (k := 32) (by omega) hx))
  refine ⟨?_,?_,?_⟩
  · exact h.laid.frame (fun x hx => hm x (.inl (hx.mono (by omega)))) fun x hx => hm x (.inr (.inl hx))
  · rw [hinit]
    exact fun hi => (h.filled hi).frame hm
  · rw [hinit]
    exact h.empty

theorem Filled.inv {m : Mem} (h : c.Filled m puts) : c.Inv m puts :=
  ⟨h.laid,fun _ => h,fun hi => absurd h.initialized hi⟩

end Cache

end Wrela.CacheMemory

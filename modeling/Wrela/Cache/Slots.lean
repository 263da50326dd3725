import Wrela.X86.Memory

/-!
# The routines of a cache arena

`clear`, `put_bytes` and `get_bytes` over memory, with the registers as local
names, and what their loops do, with the slots given by their number. A slot has
three words (one if it is in use, the key, the length) and then room for the
bytes. Each loop counts a register down to zero.
-/

set_option autoImplicit false

namespace Wrela.CacheMemory
open X86

/-- Adding up the slots, with a check for overflow and for the end of the storage
at each. -/
def capacityLoop (length stride : Word) : ℕ → Word → Bool
  | 0, _ => true
  | turns+1, total =>
    if total+stride < total then false
    else if length < total+stride then false
    else capacityLoop length stride turns (total+stride)

def clearLoop (stride : Word) : ℕ → Mem → Word → Mem
  | 0, m, _ => m
  | turns+1, m, slot =>
    clearLoop stride turns
      (store (store (store m slot 8 0) (slot+8) 8 0) (slot+16) 8 0) (slot+stride)

def copyLoop : ℕ → Mem → Word → Word → Mem
  | 0, m, _, _ => m
  | turns+1, m, dst, src => copyLoop turns (Function.update m dst (m src)) (dst+1) (src+1)

def slotLoop (m : Mem) (key stride : Word) : ℕ → Word → Option Word
  | 0, _ => none
  | turns+1, slot =>
    if load m slot 8 = 1 ∧ load m (slot+8) 8 = key then some slot
    else slotLoop m key stride turns (slot+stride)

variable (m : Mem)

def checkedSlots (self slotCount : Word) : Option (Word × Word) :=
  let storage := load m self 8
  let length := load m (storage+8) 8
  let address := load m storage 8
  let slotSize := load m (self+16) 8
  let stride := slotSize+24
  if stride < slotSize then none
  else if capacityLoop length stride slotCount.toNat 0 then some (stride, address)
  else none

def clear (self : Word) : Mem :=
  let m := store m (self+24) 8 0
  let slotCount := load m (self+8) 8
  if slotCount = 0 then store m (self+32) 8 1
  else match checkedSlots m self slotCount with
    | none => store m (self+32) 8 0
    | some (stride, address) => store (clearLoop stride slotCount.toNat m address) (self+32) 8 1

/-- A cache that is not initialized is cleared before its first use. -/
def initSlots (self slotCount stride address : Word) : Mem :=
  if load m (self+32) 8 = 1 then m
  else store (store (clearLoop stride slotCount.toNat m address) (self+24) 8 0) (self+32) 8 1

def putFail (result : Word) : Mem := store (store m result 8 0) (result+8) 8 0

def putSlot (self key bytes result stride address : Word) : Mem :=
  let victim := load m (self+24) 8
  let victim := if victim < load m (self+8) 8 then victim else 0
  let slot := (·+stride)^[victim.toNat] address
  let evicted : Word := if load m slot 8 = 1 then 1 else 0
  let m := store (store m slot 8 1) (slot+8) 8 key
  let length := load m (bytes+8) 8
  let m := store m (slot+16) 8 length
  let m := copyLoop length.toNat m (slot+24) (load m bytes 8)
  let next := load m (self+24) 8+1
  let next := if next < load m (self+8) 8 then next else 0
  let m := store m (self+24) 8 next
  store (store m result 8 1) (result+8) 8 evicted

def putBytes (self key bytes result : Word) : Mem :=
  let slotCount := load m (self+8) 8
  if slotCount = 0 then putFail m result
  else match checkedSlots m self slotCount with
    | none => putFail m result
    | some (stride, address) =>
      let m := initSlots m self slotCount stride address
      if load m (bytes+8) 8 ≤ load m (self+16) 8 then
        putSlot m self key bytes result stride address
      else putFail m result

def getMiss (result : Word) : Mem :=
  let m := store m result 8 0
  let m := store m (result+8) 8 (result+16)
  store (store m (result+16) 8 0) (result+24) 8 0

/-- The bytes of a slot are copied into the frame; `none` where the routine for
exhausted memory is called, which does not return. -/
def getHit (slot into result : Word) : Option Mem :=
  let length := load m (slot+16) 8
  let nextOffset := load m (into+16) 8
  if nextOffset+7 < nextOffset then none
  else
    let start := (nextOffset+7) &&& (-8)
    let end' := start+length
    if end' < start then none
    else if load m (into+8) 8 < end' then none
    else
      let m := store m (into+16) 8 end'
      let base := load m into 8
      let out := base+start
      if out < base then none
      else
        let m := copyLoop length.toNat m out (slot+24)
        let m := store m result 8 1
        let m := store m (result+8) 8 (result+16)
        some (store (store m (result+16) 8 out) (result+24) 8 length)

def getBytes (self key into result : Word) : Option Mem :=
  let slotCount := load m (self+8) 8
  if slotCount = 0 then some (getMiss m result)
  else match checkedSlots m self slotCount with
    | none => some (getMiss m result)
    | some (stride, address) =>
      let m := initSlots m self slotCount stride address
      match slotLoop m key stride slotCount.toNat address with
      | none => some (getMiss m result)
      | some slot => getHit m slot into result

open Function Nat

def slotAddress (address stride : Word) (i : ℕ) : Word :=
  address+BitVec.ofNat 64 (i*stride.toNat)

def slotEntry (m : Mem) (slot : Word) : Option (Word × List (BitVec 8)) :=
  if load m slot 8 = 1 then
    some (load m (slot+8) 8, bytes m (slot+24) (load m (slot+16) 8).toNat)
  else none

section
variable (address stride : Word)

theorem slotAddress_zero : slotAddress address stride 0 = address := by
  simp [slotAddress]

theorem slotAddress_shift (i : ℕ) :
    slotAddress (address+stride) stride i = slotAddress address stride (i+1) := by
  rw [slotAddress, slotAddress, add_mul, one_mul, add_comm (i*_), BitVec.ofNat_add,
    BitVec.ofNat_toNat, BitVec.setWidth_eq, BitVec.add_assoc]

theorem iterate_slotAddress (i : ℕ) : (·+stride)^[i] address = slotAddress address stride i := by
  induction i generalizing address with
  | zero => exact (slotAddress_zero address stride).symm
  | succ i ih => rw [iterate_succ_apply, ih, slotAddress_shift]

end

variable {length stride : Word}

theorem capacityLoop_of_le (turns : ℕ) (total : Word)
    (h : total.toNat+turns*stride.toNat ≤ length.toNat) :
    capacityLoop length stride turns total := by
  induction turns generalizing total with
  | zero => rfl
  | succ turns ih =>
    have := length.isLt
    rw [add_mul, one_mul] at h
    have hsum : (total+stride).toNat = total.toNat+stride.toNat := by
      rw [BitVec.toNat_add, mod_eq_of_lt (by omega)]
    rw [capacityLoop, if_neg (by rw [BitVec.lt_def]; omega), if_neg (by rw [BitVec.lt_def]; omega)]
    exact ih _ (by omega)

variable {m : Mem} {turns : ℕ} {n : ℕ} {slot x : Word}

theorem copyLoop_eq {dst src : Word} (hd : Disjoint src n dst n)
    (hn : n ≤ 2^64) : copyLoop n m dst src = copy m dst src n := by
  induction n generalizing m dst src with
  | zero =>
    funext x
    rw [copyLoop, copy, if_neg (by simp [InRange])]
  | succ n ih =>
    have hone : ∀ a x : Word, InRange x (a+1) n → InRange x a (n+1) := by
      intro a x hx
      exact hx.shift (k := 1) (by omega)
    rw [copyLoop, ih (fun x hs hx => hd x (hone _ x hs) (hone _ x hx)) (by omega)]
    funext x
    have hsrc : src+1+(x-(dst+1)) = src+(x-dst) := by bv_omega
    by_cases hx : InRange x (dst+1) n
    · -- the source byte is not the one written first
      have hin := hone dst x hx
      have hne : src+(x-dst) ≠ dst := by
        intro he
        refine hd dst ?_ (inRange_self (by omega))
        rw [← he, InRange, show src+(x-dst)-src = x-dst by bv_omega]
        exact hin
      rw [copy, copy, if_pos hx, if_pos hin, hsrc, update_of_ne hne]
    · rw [copy, if_neg hx]
      by_cases he : x = dst
      · subst he
        rw [update_self, copy, if_pos (inRange_self (by omega))]
        simp
      · rw [update_of_ne he, copy, if_neg]
        intro hin
        refine hx ?_
        simp only [InRange, BitVec.toNat_sub, BitVec.toNat_add] at hin ⊢
        have hne : x.toNat ≠ dst.toNat := fun h => he (BitVec.eq_of_toNat_eq h)
        have hlit : (1 : Word).toNat = 1 := rfl
        have := x.isLt
        have := dst.isLt
        omega

theorem slotLoop_eq_some {key t : Word} :
    slotLoop m key stride turns slot = some t ↔
      ∃ i < turns, t = slotAddress slot stride i ∧
        (∃ bs, slotEntry m t = some (key, bs)) ∧
        ∀ j < i, ∀ p ∈ slotEntry m (slotAddress slot stride j), p.1 ≠ key := by
  have hmatch : ∀ a, (load m a 8 = 1 ∧ load m (a+8) 8 = key) ↔
      ∃ bs, slotEntry m a = some (key, bs) := by
    intro a
    simp [slotEntry, ← and_assoc]
  induction turns generalizing slot with
  | zero => simp [slotLoop]
  | succ turns ih =>
    rw [slotLoop]
    split
    · next hfirst =>
      rw [hmatch] at hfirst
      constructor
      · intro h
        obtain rfl := Option.some.inj h
        exact ⟨0,succ_pos _,(slotAddress_zero _ _).symm,hfirst,fun j hj => absurd hj (Nat.not_lt_zero j)⟩
      · rintro ⟨i,-,rfl,-,hbefore⟩
        cases i with
        | zero => rw [slotAddress_zero]
        | succ i =>
          obtain ⟨bs,hbs⟩ := hfirst
          have := hbefore 0 (succ_pos i) (key, bs) (by rw [slotAddress_zero, hbs]; rfl)
          exact absurd rfl this
    · next hfirst =>
      rw [hmatch] at hfirst
      refine ih.trans ?_
      constructor
      · rintro ⟨i,hi,rfl,hbs,hbefore⟩
        refine ⟨i+1,succ_lt_succ hi,slotAddress_shift _ _ _,hbs,fun j hj p hp hk => ?_⟩
        cases j with
        | zero =>
          rw [slotAddress_zero] at hp
          exact hfirst ⟨p.2,by rw [hp, ← hk]⟩
        | succ j =>
          rw [← slotAddress_shift] at hp
          exact hbefore j (by omega) p hp hk
      · rintro ⟨i,hi,rfl,hbs,hbefore⟩
        cases i with
        | zero =>
          rw [slotAddress_zero] at hbs
          exact absurd hbs hfirst
        | succ i =>
          refine ⟨i,by omega,(slotAddress_shift _ _ _).symm,hbs,fun j hj p hp => ?_⟩
          rw [slotAddress_shift] at hp
          exact hbefore (j+1) (by omega) p hp

/-! ### Clearing -/

def clearSlot (m : Mem) (slot : Word) : Mem :=
  store (store (store m slot 8 0) (slot+8) 8 0) (slot+16) 8 0

theorem clearSlot_outside (h : ¬ InRange x slot 24) : clearSlot m slot x = m x := by
  have hpart : ∀ k, k+8 ≤ 24 → ¬ InRange x (slot+BitVec.ofNat 64 k) 8 :=
    fun k hk hx => h (hx.shift hk)
  have h0 := hpart 0 (by omega)
  have h8 : ¬ InRange x (slot+8) 8 := hpart 8 (by omega)
  have h16 : ¬ InRange x (slot+16) 8 := hpart 16 (by omega)
  rw [BitVec.add_zero] at h0
  rw [clearSlot, store_outside h16, store_outside h8, store_outside h0]

theorem clearLoop_succ (stride : Word) (turns : ℕ) (m : Mem) (slot : Word) :
    clearLoop stride (turns+1) m slot = clearLoop stride turns (clearSlot m slot) (slot+stride) :=
  rfl

theorem clearLoop_outside (h : ∀ i < turns, ¬ InRange x (slotAddress slot stride i) 24) :
    clearLoop stride turns m slot x = m x := by
  induction turns generalizing m slot with
  | zero => rfl
  | succ turns ih =>
    rw [clearLoop_succ, ih, clearSlot_outside]
    · have h0 := h 0 (succ_pos _)
      rwa [slotAddress_zero] at h0
    · intro i hi
      rw [slotAddress_shift]
      exact h (i+1) (by omega)

theorem load_clearLoop (h : ∀ i j, i < j → j < turns →
      Disjoint (slotAddress slot stride i) 8 (slotAddress slot stride j) 24)
    {i : ℕ} (hi : i < turns) : load (clearLoop stride turns m slot) (slotAddress slot stride i) 8 = 0 := by
  induction turns generalizing m slot i with
  | zero => omega
  | succ turns ih =>
    rw [clearLoop_succ]
    cases i with
    | succ i =>
      rw [← slotAddress_shift]
      refine ih (fun i j hij hj => ?_) (by omega)
      rw [slotAddress_shift, slotAddress_shift]
      exact h (i+1) (j+1) (by omega) (by omega)
    | zero =>
      have hlater : load (clearLoop stride turns (clearSlot m slot) (slot+stride)) slot 8 =
          load (clearSlot m slot) slot 8 := by
        refine load_frame fun x hx => clearLoop_outside fun j hj hin => ?_
        rw [slotAddress_shift] at hin
        refine h 0 (j+1) (succ_pos j) (by omega) x ?_ hin
        rwa [slotAddress_zero]
      have hapart : ∀ k, 8 ≤ k → k+8 ≤ 24 → Disjoint slot 8 (slot+BitVec.ofNat 64 k) 8 := by
        intro k hk hk' x hx hx'
        rw [inRange_add_iff (by omega)] at hx'
        exact absurd hx (by rw [InRange]; omega)
      have h8 : Disjoint slot 8 (slot+8) 8 := hapart 8 (by omega) (by omega)
      have h16 : Disjoint slot 8 (slot+16) 8 := hapart 16 (by omega) (by omega)
      rw [slotAddress_zero, hlater, clearSlot, load_store_other h16, load_store_other h8,
        load_store 0 le_rfl, lowBytes_eight]

/-! ### Filling -/

theorem words_disjoint (a : Word) {j k : ℕ} (hjk : j+8 ≤ k ∨ k+8 ≤ j) (hj : j+8 ≤ 2^64)
    (hk : k+8 ≤ 2^64) : Disjoint (a+BitVec.ofNat 64 j) 8 (a+BitVec.ofNat 64 k) 8 := by
  intro x hx hx'
  rw [inRange_add_iff hj] at hx
  rw [inRange_add_iff hk] at hx'
  omega

theorem copyLoop_outside {dst src : Word} (h : ¬ InRange x dst n) :
    copyLoop n m dst src x = m x := by
  induction n generalizing m dst src with
  | zero => rfl
  | succ n ih =>
    have hrest : ¬ InRange x (dst+1) n := fun hx => h (hx.shift (k := 1) (by omega))
    rw [copyLoop, ih hrest, update_of_ne]
    rintro rfl
    exact h (inRange_self (succ_pos n))

def slotHead (m : Mem) (slot key length : Word) : Mem :=
  store (store (store m slot 8 1) (slot+8) 8 key) (slot+16) 8 length

def fillSlot (m : Mem) (slot key length src : Word) : Mem :=
  copyLoop length.toNat (slotHead m slot key length) (slot+24) src

theorem slotHead_outside {key : Word} (h : ¬ InRange x slot 24) :
    slotHead m slot key length x = m x := by
  have h0 : ¬ InRange x slot 8 := fun hx => h (hx.mono (by omega))
  have h8 : ¬ InRange x (slot+8) 8 := fun hx => h (hx.shift (k := 8) (by omega))
  have h16 : ¬ InRange x (slot+16) 8 := fun hx => h (hx.shift (k := 16) (by omega))
  rw [slotHead, store_outside h16, store_outside h8, store_outside h0]

theorem load_slotHead (m : Mem) (slot key length : Word) :
    load (slotHead m slot key length) slot 8 = 1 ∧
      load (slotHead m slot key length) (slot+8) 8 = key ∧
      load (slotHead m slot key length) (slot+16) 8 = length := by
  have h08 : Disjoint slot 8 (slot+8) 8 := by
    simpa using words_disjoint slot (j := 0) (k := 8) (by omega) (by omega) (by omega)
  have h016 : Disjoint slot 8 (slot+16) 8 := by
    simpa using words_disjoint slot (j := 0) (k := 16) (by omega) (by omega) (by omega)
  have h816 : Disjoint (slot+8) 8 (slot+16) 8 :=
    words_disjoint slot (j := 8) (k := 16) (by omega) (by omega) (by omega)
  refine ⟨?_,?_,?_⟩
  · rw [slotHead, load_store_other h016, load_store_other h08, load_store 1 le_rfl, lowBytes_eight]
  · rw [slotHead, load_store_other h816, load_store key le_rfl, lowBytes_eight]
  · rw [slotHead, load_store length le_rfl, lowBytes_eight]

theorem fillSlot_outside {key src : Word}
    (h : ¬ InRange x slot (length.toNat+24)) : fillSlot m slot key length src x = m x := by
  have hbody : ¬ InRange x (slot+24) length.toNat := fun hx => h (hx.shift (k := 24) (by omega))
  rw [fillSlot, copyLoop_outside hbody, slotHead_outside fun hx => h (hx.mono (by omega))]

theorem slotEntry_fillSlot {key src : Word}
    (hd : Disjoint src length.toNat slot (length.toNat+24)) (hn : length.toNat+24 ≤ 2^64) :
    slotEntry (fillSlot m slot key length src) slot = some (key, bytes m src length.toNat) := by
  obtain ⟨hused,hkey,hlength⟩ := load_slotHead m slot key length
  -- the bytes lie behind the head
  have hkeep : ∀ k, k+8 ≤ 24 → load (fillSlot m slot key length src) (slot+BitVec.ofNat 64 k) 8 =
      load (slotHead m slot key length) (slot+BitVec.ofNat 64 k) 8 := by
    intro k hk
    refine load_frame fun x hx => copyLoop_outside fun hin => ?_
    have hin : InRange x (slot+BitVec.ofNat 64 24) length.toNat := hin
    rw [inRange_add_iff (by omega)] at hx hin
    omega
  have h0 := hkeep 0 (by omega)
  have h8 : load (fillSlot m slot key length src) (slot+8) 8 = key := (hkeep 8 (by omega)).trans hkey
  have h16 : load (fillSlot m slot key length src) (slot+16) 8 = length :=
    (hkeep 16 (by omega)).trans hlength
  have hbody : Disjoint src length.toNat (slot+24) length.toNat :=
    fun x hs hx => hd x hs (hx.shift (k := 24) (by omega))
  have hbytes : bytes (fillSlot m slot key length src) (slot+24) length.toNat =
      bytes m src length.toNat := by
    rw [fillSlot, copyLoop_eq hbody (by omega), bytes_copy]
    exact bytes_frame fun x hx => slotHead_outside fun hin => hd x hx (hin.mono (by omega))
  rw [BitVec.add_zero, hused] at h0
  rw [slotEntry, h0, h8, h16, hbytes, if_pos rfl]

end Wrela.CacheMemory

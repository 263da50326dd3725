import Wrela.Cache.Layout

/-!
# What the cache operations do

Each operation keeps the cache in the state that belongs to the puts so far, and
writes only what it is meant to write.
-/

set_option autoImplicit false

namespace Wrela.CacheMemory
open X86 RoundRobin List BitVec

namespace Cache
variable {c : Cache} {m : Mem} {puts : List Entry} {i n : ℕ} {a : Word}

def Written (c : Cache) (x : Word) : Prop :=
  InRange x c.self 40 ∨ InRange x c.address c.length.toNat

theorem checkedSlots_eq (h : c.Laid m) (hn : 0 < c.slots) :
    checkedSlots m c.self c.slotCount = some (c.stride, c.address) := by
  have hstride := stride_toNat hn
  have hfits := c.fits
  have hcapacity : capacityLoop c.length c.stride c.slotCount.toNat 0 :=
    capacityLoop_of_le _ 0 (by rw [hstride]; simpa using hfits)
  have hwrap : ¬ c.slotSize+24 < c.slotSize := by
    rw [lt_def]
    show ¬ c.stride.toNat < _
    omega
  simp only [checkedSlots, h.storage, h.length, h.address, h.slotSize]
  rw [if_neg hwrap]
  exact if_pos hcapacity

/-! ### Clearing -/

theorem filled_cleared (hlaid : c.Laid m) (hinit : load m (c.self+32) 8 = 1)
    (hvictim : load m (c.self+24) 8 = 0) (hslots : ∀ i < c.slots, load m (c.slot i) 8 = 0) :
    c.Filled m [] where
  laid := hlaid
  initialized := hinit
  victim := by rw [hvictim]; simp
  room := by simp
  entries i hi p := by
    rw [slotEntry, hslots i hi, if_neg (by decide)]
    exact iff_of_false (by simp) not_holds_nil

variable {x : Word} {k : ℕ}

theorem clearLoop_storage (hx : ¬ InRange x c.address c.length.toNat) :
    clearLoop c.stride c.slots m c.address x = m x :=
  clearLoop_outside fun _ hi hin => hx (slot_owned hi (by omega) hin)

theorem load_clearLoop_slot (hi : i < c.slots) :
    load (clearLoop c.stride c.slots m c.address) (c.slot i) 8 = 0 :=
  load_clearLoop (fun i j hij hj x hx hx' => slots_disjoint (c := c) (by omega) hj (by omega) x
    (hx.mono (by omega)) (hx'.mono (by omega))) hi

theorem fields_disjoint {j k : ℕ} (hjk : j+8 ≤ k ∨ k+8 ≤ j) (hj : j+8 ≤ 40) (hk : k+8 ≤ 40) :
    Disjoint (c.self+BitVec.ofNat 64 j) 8 (c.self+BitVec.ofNat 64 k) 8 :=
  words_disjoint c.self hjk (by omega) (by omega)

theorem field_storage (hk : k+8 ≤ 40)
    (hx : InRange x (c.self+BitVec.ofNat 64 k) 8) : ¬ InRange x c.address c.length.toNat :=
  c.self_storage.disjoint x (inRange_field hk hx)

theorem Laid.store_field (h : c.Laid m) (hk : 24 ≤ k) (hk' : k+8 ≤ 40) (v : Word) :
    c.Laid (store m (c.self+BitVec.ofNat 64 k) 8 v) := by
  refine h.frame (fun x hx => store_outside ?_) fun x hx => store_outside ?_
  · rw [inRange_add_iff (by omega)]
    rw [InRange] at hx
    omega
  · exact fun hin => c.self_handle.disjoint x (inRange_field hk' hin) hx

theorem Laid.clearLoop (h : c.Laid m) : c.Laid (clearLoop c.stride c.slots m c.address) :=
  h.frame
    (fun x hx => clearLoop_storage (c.self_storage.disjoint x (hx.mono (by omega))))
    fun x hx => clearLoop_storage (c.handle_storage.disjoint x hx)

theorem load_field_store {j k : ℕ} (hjk : j+8 ≤ k ∨ k+8 ≤ j) (hj : j+8 ≤ 40) (hk : k+8 ≤ 40)
    (v : Word) : load (store m (c.self+BitVec.ofNat 64 k) 8 v) (c.self+BitVec.ofNat 64 j) 8 =
      load m (c.self+BitVec.ofNat 64 j) 8 :=
  load_store_other (fields_disjoint hjk hj hk)

theorem load_slot_store {k : ℕ} (hi : i < c.slots) (hk : k+8 ≤ 40) (v : Word) :
    load (store m (c.self+BitVec.ofNat 64 k) 8 v) (c.slot i) 8 = load m (c.slot i) 8 :=
  load_frame fun _ hx => store_outside fun hin =>
    field_storage hk hin (slot_owned hi (by omega) hx)

theorem load_field_clearLoop (hk : k+8 ≤ 40) :
    load (CacheMemory.clearLoop c.stride c.slots m c.address) (c.self+BitVec.ofNat 64 k) 8 =
      load m (c.self+BitVec.ofNat 64 k) 8 :=
  load_frame fun _ hx => clearLoop_storage (field_storage hk hx)

theorem filled_initialized (hlaid : c.Laid m) (hvictim : load m (c.self+24) 8 = 0)
    (hslots : ∀ i < c.slots, load m (c.slot i) 8 = 0) : c.Filled (store m (c.self+32) 8 1) [] := by
  refine filled_cleared (hlaid.store_field (k := 32) (by omega) (by omega) 1) ?_ ?_ fun i hi => ?_
  · rw [load_store 1 le_rfl, lowBytes_eight]
  · exact (load_field_store (j := 24) (k := 32) (by omega) (by omega) (by omega) 1).trans hvictim
  · exact (load_slot_store (k := 32) hi (by omega) 1).trans (hslots i hi)

theorem store_field_written (hk : k+8 ≤ 40) {x v : Word} (hx : ¬ c.Written x) :
    store m (c.self+BitVec.ofNat 64 k) 8 v x = m x :=
  store_outside fun hin => hx (.inl (inRange_field hk hin))

theorem clear_filled (h : c.Laid m) : c.Filled (clear m c.self) [] := by
  have hlaid : c.Laid (store m (c.self+24) 8 0) := h.store_field (k := 24) (by omega) (by omega) 0
  have hvictim : load (store m (c.self+24) 8 0) (c.self+24) 8 = 0 := by
    rw [load_store 0 le_rfl, lowBytes_eight]
  rcases Nat.eq_zero_or_pos c.slots with hn | hn
  · have hcount : c.slotCount = 0 := eq_of_toNat_eq hn
    simp only [clear, hlaid.slotCount, if_pos hcount]
    exact filled_initialized hlaid hvictim fun i hi => by omega
  · have hcount : c.slotCount ≠ 0 := by
      intro he
      rw [slots, he] at hn
      exact absurd hn (by decide)
    simp only [clear, hlaid.slotCount, if_neg hcount, checkedSlots_eq hlaid hn]
    exact filled_initialized hlaid.clearLoop
      ((load_field_clearLoop (k := 24) (by omega)).trans hvictim) fun i hi => load_clearLoop_slot hi

theorem clear_outside (h : c.Laid m) (hx : ¬ c.Written x) : clear m c.self x = m x := by
  have hlaid : c.Laid (store m (c.self+24) 8 0) := h.store_field (k := 24) (by omega) (by omega) 0
  have hfirst : store m (c.self+24) 8 0 x = m x := store_field_written (k := 24) (by omega) hx
  have hlast : ∀ m' : Mem, ∀ v, store m' (c.self+32) 8 v x = m' x :=
    fun m' v => store_field_written (k := 32) (by omega) hx
  simp only [clear, hlaid.slotCount]
  split
  · rw [hlast, hfirst]
  · next hcount =>
    have hn : 0 < c.slots := Nat.pos_of_ne_zero fun he => hcount (eq_of_toNat_eq he)
    simp only [checkedSlots_eq hlaid hn]
    rw [hlast]
    exact (clearLoop_storage fun hin => hx (.inr hin)).trans hfirst

theorem initSlots_filled (h : c.Inv m puts) :
    c.Filled (initSlots m c.self c.slotCount c.stride c.address) puts := by
  rw [initSlots]
  split
  · next hinit => exact h.filled hinit
  · next hinit =>
    rw [h.empty hinit]
    have hlaid : c.Laid (CacheMemory.clearLoop c.stride c.slots m c.address) := h.laid.clearLoop
    refine filled_initialized (hlaid.store_field (k := 24) (by omega) (by omega) 0) ?_ fun i hi => ?_
    · rw [load_store 0 le_rfl, lowBytes_eight]
    · exact (load_slot_store (k := 24) hi (by omega) 0).trans (load_clearLoop_slot hi)

theorem initSlots_outside (hx : ¬ c.Written x) :
    initSlots m c.self c.slotCount c.stride c.address x = m x := by
  rw [initSlots]
  split
  · rfl
  · have h32 := store_field_written (c := c) (k := 32) (by omega)
      (m := store (CacheMemory.clearLoop c.stride c.slots m c.address) (c.self+24) 8 0) (v := 1) hx
    have h24 := store_field_written (c := c) (k := 24) (by omega)
      (m := CacheMemory.clearLoop c.stride c.slots m c.address) (v := 0) hx
    exact h32.trans (h24.trans (clearLoop_storage fun hin => hx (.inr hin)))

/-! ### Putting -/

theorem Outside.disjoint_slot {w : ℕ} (h : c.Outside a n) (hi : i < c.slots)
    (hw : w ≤ c.slotSize.toNat+24) : Disjoint a n (c.slot i) w :=
  fun x hx hin => h.2.2.disjoint x hx (slot_owned hi hw hin)

section
variable (h : c.Filled m puts) (hn : 0 < c.slots)
include h hn

theorem Filled.next_victim :
    (if load m (c.self+24) 8 < c.slotCount then load m (c.self+24) 8 else 0).toNat =
        puts.length%c.slots ∧
      (if load m (c.self+24) 8+1 < c.slotCount then load m (c.self+24) 8+1 else 0).toNat =
        (puts.length+1)%c.slots := by
  have hlt := Nat.mod_lt puts.length hn
  have hvictim := h.victim
  have hsucc : (load m (c.self+24) 8+1).toNat = puts.length%c.slots+1 := by
    have hin : (load m (c.self+24) 8).toNat < c.slotCount.toNat := hvictim ▸ hlt
    rw [RingIndex.succ_toNat hin, hvictim]
  have hnext := RingIndex.next_toNat (show 0 < c.slotCount.toNat from hn) hvictim
  refine ⟨?_,?_⟩
  · rw [if_pos (by rw [lt_def, hvictim]; exact hlt), hvictim]
  · rw [← show _ = (puts.length+1)%c.slots from hnext]
    congr 1
    -- one past the last slot, the two comparisons agree
    by_cases he : load m (c.self+24) 8+1 = c.slotCount
    · rw [if_pos he, if_neg (by rw [he]; exact BitVec.lt_irrefl _)]
    · have hne : (load m (c.self+24) 8+1).toNat ≠ c.slotCount.toNat :=
        fun hv => he (eq_of_toNat_eq hv)
      rw [if_neg he, if_pos]
      rw [lt_def, hsucc]
      rw [hsucc] at hne
      exact lt_of_le_of_ne hlt hne

theorem putSlot_eq (key bytes result : Word)
    (hbytes : c.Outside bytes 16) (hsize : load m (bytes+8) 8 ≤ c.slotSize) :
    ∃ next evicted : Word, next.toNat = (puts.length+1)%c.slots ∧
      putSlot m c.self key bytes result c.stride c.address =
        store (store (store (fillSlot m (c.slot (puts.length%c.slots)) key (load m (bytes+8) 8)
          (load m bytes 8)) (c.self+24) 8 next) result 8 1) (result+8) 8 evicted := by
  obtain ⟨hvictim,hnext⟩ := h.next_victim hn
  have hv : puts.length%c.slots < c.slots := Nat.mod_lt _ hn
  have hlen : (load m (bytes+8) 8).toNat+24 ≤ c.slotSize.toNat+24 := by
    rw [le_def] at hsize
    omega
  have hslot : (·+c.stride)^[puts.length%c.slots] c.address = c.slot (puts.length%c.slots) :=
    iterate_slotAddress _ _ _
  generalize hs : c.slot (puts.length%c.slots) = slot at hslot
  have hhead : ∀ {x : Word}, InRange x slot 24 → InRange x c.address c.length.toNat := by
    intro x hx
    exact slot_owned hv (by omega) (hs ▸ hx)
  -- what is read from the source record and the cache object is not in the slot
  have hrecord : ∀ k, k+8 ≤ 16 → ∀ x, InRange x (bytes+BitVec.ofNat 64 k) 8 →
      ¬ InRange x slot 24 := fun k hk x hx hin =>
    hbytes.2.2.disjoint x (hx.shift hk) (hhead hin)
  have hlength : load (store (store m slot 8 1) (slot+8) 8 key) (bytes+8) 8 = load m (bytes+8) 8 := by
    refine load_frame fun x hx => ?_
    have hout := hrecord 8 (by omega) x hx
    have h8 : ¬ InRange x (slot+8) 8 := fun hin => hout (hin.shift (k := 8) (by omega))
    rw [store_outside h8, store_outside fun hin => hout (hin.mono (by omega))]
  have hsource : load (slotHead m slot key (load m (bytes+8) 8)) bytes 8 = load m bytes 8 := by
    refine load_frame fun x hx => slotHead_outside ?_
    exact hrecord 0 (by omega) x (by rwa [BitVec.add_zero])
  have hfield : ∀ k, k+8 ≤ 40 →
      load (fillSlot m slot key (load m (bytes+8) 8) (load m bytes 8)) (c.self+BitVec.ofNat 64 k) 8 =
        load m (c.self+BitVec.ofNat 64 k) 8 := by
    intro k hk
    refine load_frame fun x hx => fillSlot_outside fun hin => ?_
    exact field_storage hk hx (slot_owned hv hlen (hs ▸ hin))
  have h24 : load (fillSlot m slot key (load m (bytes+8) 8) (load m bytes 8)) (c.self+24) 8 =
      load m (c.self+24) 8 := hfield 24 (by omega)
  have h8 : load (fillSlot m slot key (load m (bytes+8) 8) (load m bytes 8)) (c.self+8) 8 =
      c.slotCount := (hfield 8 (by omega)).trans h.laid.slotCount
  have hput : putSlot m c.self key bytes result c.stride c.address =
      let f := fillSlot m slot key (load m (bytes+8) 8) (load m bytes 8)
      store (store (store f (c.self+24) 8
        (if load f (c.self+24) 8+1 < load f (c.self+8) 8 then load f (c.self+24) 8+1 else 0))
        result 8 1) (result+8) 8 (if load m slot 8 = 1 then 1 else 0) := by
    simp only [putSlot, h.laid.slotCount, hvictim, hslot, hlength, fillSlot]
    rw [← hsource]
    rfl
  refine ⟨_,if load m slot 8 = 1 then 1 else 0,hnext,hput.trans ?_⟩
  simp only [h24, h8]

theorem Filled.put (key : Word) {length src next : Word}
    (hnext : next.toNat = (puts.length+1)%c.slots) (hsize : length ≤ c.slotSize)
    (hsrc : c.Outside src length.toNat) :
    c.Filled (store (fillSlot m (c.slot (puts.length%c.slots)) key length src) (c.self+24) 8 next)
      (puts++[(key, bytes m src length.toNat)]) := by
  have hv : puts.length%c.slots < c.slots := Nat.mod_lt _ hn
  have hle : length.toNat ≤ c.slotSize.toNat := by rwa [le_def] at hsize
  have hend := slot_end hv
  have hlt := c.length.isLt
  -- the slot lies in the storage, apart from the object and its record
  have hstorage : ∀ {x : Word}, ¬ InRange x c.address c.length.toNat →
      fillSlot m (c.slot (puts.length%c.slots)) key length src x = m x := fun hx =>
    fillSlot_outside fun hin => hx (slot_owned hv (by omega) hin)
  have hlaid : c.Laid (fillSlot m (c.slot (puts.length%c.slots)) key length src) :=
    h.laid.frame (fun x hx => hstorage (c.self_storage.disjoint x (hx.mono (by omega))))
      fun x hx => hstorage (c.handle_storage.disjoint x hx)
  have hinit : load (fillSlot m (c.slot (puts.length%c.slots)) key length src) (c.self+32) 8 = 1 :=
    (load_frame fun x hx => hstorage (field_storage (k := 32) (by omega) hx)).trans h.initialized
  refine ⟨hlaid.store_field (k := 24) (by omega) (by omega) next,?_,?_,?_,fun i hi p => ?_⟩
  · exact (load_field_store (j := 32) (k := 24) (by omega) (by omega) (by omega) next).trans hinit
  · rw [load_store next le_rfl, lowBytes_eight, hnext, length_append, length_singleton]
  · intro p hp
    rcases mem_append.mp hp with hp | hp
    · exact h.room p hp
    · rw [mem_singleton.mp hp, length_bytes]
      exact hle
  · have hfield : ∀ x, InRange x (c.slot i) (c.slotSize.toNat+24) →
        store (fillSlot m (c.slot (puts.length%c.slots)) key length src) (c.self+24) 8 next x =
          fillSlot m (c.slot (puts.length%c.slots)) key length src x := fun x hx =>
      store_outside fun hin => field_storage (k := 24) (by omega) hin (slot_owned hi le_rfl hx)
    rw [holds_concat_iff hn]
    split
    · next he =>
      subst he
      have hentry : slotEntry (fillSlot m (c.slot (puts.length%c.slots)) key length src)
          (c.slot (puts.length%c.slots)) = some (key, bytes m src length.toNat) :=
        slotEntry_fillSlot (hsrc.disjoint_slot hv (by omega)) (by omega)
      rw [slotEntry_frame hfield, hentry, Option.some.injEq]
      intro p hp
      rw [hentry] at hp
      obtain rfl := Option.some.inj hp
      rw [length_bytes]
      exact hle
    · next hne =>
      -- another slot is as it was
      have hsame : ∀ x, InRange x (c.slot i) (c.slotSize.toNat+24) →
          store (fillSlot m (c.slot (puts.length%c.slots)) key length src) (c.self+24) 8 next x =
            m x := fun x hx => (hfield x hx).trans <|
        fillSlot_outside fun hin => slots_disjoint hi hv hne x hx (hin.mono (by omega))
      rw [slotEntry_frame hsame fun p hp => h.entry_room hi hp]
      exact h.entries i hi p

end

theorem Outside.store_result {k : ℕ} (h : c.Outside a n) (hk : k+8 ≤ n) {x v : Word}
    (hx : c.Owns x) : store m (a+BitVec.ofNat 64 k) 8 v x = m x :=
  store_outside fun hin => h.not_owns (hin.shift hk) hx

theorem Outside.not_written (h : c.Outside a n) (hx : InRange x a n) : ¬ c.Written x := fun hw =>
  h.not_owns hx (hw.imp_right .inr)

theorem putFail_outside {result x : Word} (hx : ¬ InRange x result 16) :
    putFail m result x = m x := by
  have h8 : ¬ InRange x (result+8) 8 := fun hin => hx (hin.shift (k := 8) (by omega))
  rw [putFail, store_outside h8, store_outside fun hin => hx (hin.mono (by omega))]

theorem flag_store (m : Mem) (result v w : Word) :
    store (store m result 8 v) (result+8) 8 w result = byteOf v 0 := by
  have h8 : ¬ InRange result (result+8) 8 := by
    intro hin
    have hin : InRange result (result+BitVec.ofNat 64 8) 8 := hin
    rw [inRange_add_iff (by omega), BitVec.sub_self] at hin
    exact absurd hin.1 (by decide)
  have h0 := store_inside (m := m) (a := result) (n := 8) v (k := 0) (by omega) (by omega)
  rw [BitVec.add_zero] at h0
  rw [store_outside h8, h0]

theorem putBytes_spec (h : c.Inv m puts) (key : Word) {bytes result : Word}
    (hbytes : c.Outside bytes 16)
    (hsrc : c.Outside (load m bytes 8) (load m (bytes+8) 8).toNat) (hresult : c.Outside result 16) :
    (putBytes m c.self key bytes result result = 1 ∧
        c.Inv (putBytes m c.self key bytes result)
          (puts++[(key, X86.bytes m (load m bytes 8) (load m (bytes+8) 8).toNat)]) ∨
      putBytes m c.self key bytes result result = 0 ∧
        c.Inv (putBytes m c.self key bytes result) puts) ∧
    ∀ x, ¬ c.Written x → ¬ InRange x result 16 → putBytes m c.self key bytes result x = m x := by
  have hfail : ∀ {m' : Mem}, c.Inv m' puts →
      putFail m' result result = 0 ∧ c.Inv (putFail m' result) puts := by
    intro m' hm'
    refine ⟨flag_store m' result 0 0,hm'.frame fun x hx => putFail_outside fun hin => ?_⟩
    exact hresult.not_owns hin hx
  simp only [putBytes, h.laid.slotCount]
  split
  · exact ⟨.inr (hfail h),fun x _ hx => putFail_outside hx⟩
  next hcount =>
  have hn : 0 < c.slots := Nat.pos_of_ne_zero fun he => hcount (eq_of_toNat_eq he)
  have hfilled := initSlots_filled h
  have hsame : ∀ x, ¬ c.Written x →
      initSlots m c.self c.slotCount c.stride c.address x = m x := fun x hx => initSlots_outside hx
  simp only [checkedSlots_eq h.laid hn]
  generalize initSlots m c.self c.slotCount c.stride c.address = m1 at hfilled hsame ⊢
  -- the source is as it was before the cache was initialized
  have hlength : load m1 (bytes+8) 8 = load m (bytes+8) 8 :=
    load_frame fun x hx => hsame x (hbytes.not_written (hx.shift (k := 8) (by omega)))
  have haddress : load m1 bytes 8 = load m bytes 8 :=
    load_frame fun x hx => hsame x (hbytes.not_written (hx.mono (by omega)))
  have hdata : X86.bytes m1 (load m bytes 8) (load m (bytes+8) 8).toNat =
      X86.bytes m (load m bytes 8) (load m (bytes+8) 8).toNat :=
    bytes_frame fun x hx => hsame x (hsrc.not_written hx)
  rw [hlength, hfilled.laid.slotSize]
  split
  · next hsize =>
    obtain ⟨next,evicted,hnext,hput⟩ := putSlot_eq hfilled hn key bytes result hbytes (hlength ▸ hsize)
    rw [hput, hlength, haddress]
    have hdone := hfilled.put hn key hnext hsize hsrc
    rw [hdata] at hdone
    refine ⟨.inl ⟨flag_store _ result 1 evicted,?_⟩,fun x hx hres => ?_⟩
    · refine hdone.inv.frame fun x hx => ?_
      have h8 := hresult.store_result (m := store (store (fillSlot m1 (c.slot (puts.length%c.slots))
        key (load m (bytes+8) 8) (load m bytes 8)) (c.self+24) 8 next) result 8 1) (k := 8)
        (by omega) (v := evicted) hx
      exact h8.trans (store_outside fun hin => hresult.not_owns (hin.mono (by omega)) hx)
    · have h8 : ¬ InRange x (result+8) 8 := fun hin => hres (hin.shift (k := 8) (by omega))
      have hle : (load m (bytes+8) 8).toNat ≤ c.slotSize.toNat := by rwa [le_def] at hsize
      rw [store_outside h8, store_outside fun hin => hres (hin.mono (by omega))]
      refine (store_field_written (k := 24) (by omega) hx).trans ?_
      refine (fillSlot_outside fun hin => hx (.inr ?_)).trans (hsame x hx)
      exact slot_owned (Nat.mod_lt _ hn) (by omega) hin
  · refine ⟨.inr (hfail hfilled.inv),fun x hx hres => ?_⟩
    rw [putFail_outside hres, hsame x hx]

end Cache

end Wrela.CacheMemory

import Wrela.Arena.Bump
import Wrela.Cache.Operations
import Wrela.Transition

/-!
# Cache lookups

What a lookup returns after any sequence of operations on one cache. Between them
other code may write anywhere outside the cache.
-/

set_option autoImplicit false

namespace Wrela.CacheMemory
open X86 RoundRobin Transition Option

def answer (m : Mem) (result : Word) : Option (List (BitVec 8)) :=
  if m result = 0 then none
  else
    let handle := load m (result+8) 8
    some (bytes m (load m handle 8) (load m (handle+8) 8).toNat)

def lookupWords (m : Mem) (result hit address length : Word) : Mem :=
  store (store (store (store m result 8 hit) (result+8) 8 (result+16)) (result+16) 8 address)
    (result+24) 8 length

variable {result : Word}

theorem lookupWords_outside {m : Mem} {hit address length x : Word}
    (hx : ¬ InRange x result 32) : lookupWords m result hit address length x = m x := by
  have h8 : ¬ InRange x (result+8) 8 := fun h => hx (h.shift (k := 8) (by omega))
  have h16 : ¬ InRange x (result+16) 8 := fun h => hx (h.shift (k := 16) (by omega))
  have h24 : ¬ InRange x (result+24) 8 := fun h => hx (h.shift (k := 24) (by omega))
  rw [lookupWords, store_outside h24, store_outside h16, store_outside h8,
    store_outside fun h => hx (h.mono (by omega))]

theorem answer_lookupWords (m : Mem) (result hit address length : Word) :
    answer (lookupWords m result hit address length) result =
      if byteOf hit 0 = 0 then none
      else some (bytes (lookupWords m result hit address length) address length.toNat) := by
  have hd : ∀ j k, j+8 ≤ k → k+8 ≤ 32 →
      Disjoint (result+BitVec.ofNat 64 j) 8 (result+BitVec.ofNat 64 k) 8 := fun j k hjk hk =>
    words_disjoint result (.inl hjk) (by omega) (by omega)
  have h816 : Disjoint (result+8) 8 (result+16) 8 := hd 8 16 (by omega) (by omega)
  have h824 : Disjoint (result+8) 8 (result+24) 8 := hd 8 24 (by omega) (by omega)
  have h1624 : Disjoint (result+16) 8 (result+24) 8 := hd 16 24 (by omega) (by omega)
  have hself : ∀ k, 0 < k → k+8 ≤ 32 → ¬ InRange result (result+BitVec.ofNat 64 k) 8 := by
    intro k hk hk' hin
    rw [inRange_add_iff (by omega), BitVec.sub_self] at hin
    exact absurd hin.1 (by simpa using hk.ne')
  have hflag : lookupWords m result hit address length result = byteOf hit 0 := by
    have h16 : ¬ InRange result (result+16) 8 := hself 16 (by omega) (by omega)
    have h24 : ¬ InRange result (result+24) 8 := hself 24 (by omega) (by omega)
    rw [lookupWords, store_outside h24, store_outside h16]
    exact Cache.flag_store m result hit _
  have hhandle : load (lookupWords m result hit address length) (result+8) 8 = result+16 := by
    rw [lookupWords, load_store_other h824, load_store_other h816, load_store _ le_rfl,
      lowBytes_eight]
  have haddress : load (lookupWords m result hit address length) (result+16) 8 = address := by
    rw [lookupWords, load_store_other h1624, load_store _ le_rfl, lowBytes_eight]
  have hlength : load (lookupWords m result hit address length) (result+16+8) 8 = length := by
    rw [show result+16+8 = result+24 by bv_omega, lookupWords, load_store _ le_rfl, lowBytes_eight]
  simp only [answer, hflag, hhandle, haddress, hlength]

structure Cache.Separate (c : Cache) (m : Mem) (into result : Word) : Prop where
  frame_outside : c.Outside into 24
  result_outside : c.Outside result 32
  memory_outside : c.Outside (load m into 8) (load m (into+8) 8).toNat
  frame_memory : Apart into 24 (load m into 8) (load m (into+8) 8).toNat
  result_memory : Apart result 32 (load m into 8) (load m (into+8) 8).toNat
  result_frame : Apart result 32 into 24

instance (c : Cache) (m : Mem) (into result : Word) : Decidable (c.Separate m into result) :=
  decidable_of_iff (c.Outside into 24 ∧ c.Outside result 32 ∧
    c.Outside (load m into 8) (load m (into+8) 8).toNat ∧
    Apart into 24 (load m into 8) (load m (into+8) 8).toNat ∧
    Apart result 32 (load m into 8) (load m (into+8) 8).toNat ∧ Apart result 32 into 24)
    ⟨fun ⟨h1,h2,h3,h4,h5,h6⟩ => ⟨h1,h2,h3,h4,h5,h6⟩,fun ⟨h1,h2,h3,h4,h5,h6⟩ => ⟨h1,h2,h3,h4,h5,h6⟩⟩

def Reserved (m m' : Mem) (into x : Word) : Prop :=
  InRange x (load m into 8+load m (into+16) 8) (load m' (into+16) 8-load m (into+16) 8).toNat

namespace Cache
variable {c : Cache} {m m' : Mem} {puts : List Entry} {p : Entry} {into key : Word}

theorem getMiss_eq (m : Mem) (result : Word) : getMiss m result = lookupWords m result 0 0 0 := rfl

theorem getHit_spec (h : c.Filled m puts) {i : ℕ} (hi : i < c.slots)
    (hp : slotEntry m (c.slot i) = some p)
    (hsep : c.Separate m into result) (hget : getHit m (c.slot i) into result = some m') :
    answer m' result = some p.2 ∧ (∀ x, c.Owns x → m' x = m x) ∧
      ∀ x, ¬ InRange x result 32 → ¬ InRange x (into+16) 8 → ¬ Reserved m m' into x →
        m' x = m x := by
  have hroom := h.entry_room hi hp
  obtain ⟨hbs,hlen⟩ : p.2 = bytes m (c.slot i+24) (load m (c.slot i+16) 8).toNat ∧
      (load m (c.slot i+16) 8).toNat ≤ c.slotSize.toNat := by
    rw [slotEntry] at hp
    split at hp
    · obtain rfl := some.inj hp
      rw [length_bytes] at hroom
      exact ⟨rfl,hroom⟩
    · cases hp
  simp only [getHit] at hget
  split at hget
  · cases hget
  next hpad =>
  split at hget
  · cases hget
  next hwrap =>
  split at hget
  · cases hget
  next hfits =>
  split at hget
  · cases hget
  generalize hlength : load m (c.slot i+16) 8 = length at *
  generalize hmark : load m (into+16) 8 = mark at *
  generalize hstart : (mark+7) &&& (-8) = start at *
  have hframe0 : Disjoint into 8 (into+16) 8 := by
    simpa using words_disjoint into (j := 0) (k := 16) (by omega) (by omega) (by omega)
  have hbase : load (store m (into+16) 8 (start+length)) into 8 = load m into 8 :=
    load_store_other hframe0
  rw [hbase] at hget
  have hsum : (start+length).toNat = start.toNat+length.toNat := by
    rw [BitVec.lt_def, BitVec.toNat_add] at hwrap
    rw [BitVec.toNat_add]
    have := start.isLt
    have := length.isLt
    omega
  have hend : start.toNat+length.toNat ≤ (load m (into+8) 8).toNat := by
    rw [BitVec.lt_def, hsum] at hfits
    omega
  -- what is copied goes to the memory of the frame
  have hout : ∀ {x : Word}, InRange x (load m into 8+start) length.toNat →
      InRange x (load m into 8) (load m (into+8) 8).toNat := by
    intro x hx
    refine InRange.shift (k := start.toNat) (j := length.toNat) ?_ hend
    rwa [BitVec.ofNat_toNat, BitVec.setWidth_eq]
  have hslot : ∀ {x : Word}, InRange x (c.slot i+24) length.toNat →
      InRange x c.address c.length.toNat := fun hx =>
    slot_owned hi le_rfl (hx.shift (k := 24) (by omega))
  have hdisjoint : Disjoint (c.slot i+24) length.toNat (load m into 8+start) length.toNat :=
    fun x hx hin => hsep.memory_outside.2.2.disjoint x (hout hin) (hslot hx)
  have hm' : m' = lookupWords (copy (store m (into+16) 8 (start+length)) (load m into 8+start)
      (c.slot i+24) length.toNat) result 1 (load m into 8+start) length := by
    rw [← copyLoop_eq hdisjoint (by have := length.isLt; omega)]
    exact (some.inj hget).symm
  -- a byte outside the result, the mark and the copy is as it was
  have hsame : ∀ x, ¬ InRange x result 32 → ¬ InRange x (into+16) 8 →
      ¬ InRange x (load m into 8+start) length.toNat → m' x = m x := by
    intro x hr hmk hcopy
    rw [hm', lookupWords_outside hr, copy_outside hcopy, store_outside hmk]
  have hmark16 : ∀ {x : Word}, InRange x (into+16) 8 → InRange x into 24 :=
    fun hx => hx.shift (k := 16) (by omega)
  refine ⟨?_,fun x hx => ?_,fun x hr hmk hres => hsame x hr hmk fun hcopy => hres ?_⟩
  · have hkeep : bytes (lookupWords (copy (store m (into+16) 8 (start+length)) (load m into 8+start)
        (c.slot i+24) length.toNat) result 1 (load m into 8+start) length) (load m into 8+start)
        length.toNat = p.2 := by
      rw [bytes_frame fun x hx => lookupWords_outside fun hr =>
        hsep.result_memory.disjoint x hr (hout hx), bytes_copy, hbs]
      exact bytes_frame fun x hx => store_outside fun hmk =>
        hsep.frame_outside.2.2.disjoint x (hmark16 hmk) (hslot hx)
    rw [hm', answer_lookupWords, if_neg (by decide), hkeep]
  · refine hsame x (fun hr => hsep.result_outside.not_owns hr hx)
      (fun hmk => hsep.frame_outside.not_owns (hmark16 hmk) hx)
      fun hcopy => hsep.memory_outside.not_owns (hout hcopy) hx
  · -- the copy starts behind the old mark and ends at the new one
    have hnew : load m' (into+16) 8 = start+length := by
      have hstore : load (store m (into+16) 8 (start+length)) (into+16) 8 = start+length := by
        rw [load_store _ le_rfl, lowBytes_eight]
      rw [← hstore, hm']
      refine load_frame fun y hy => ?_
      rw [lookupWords_outside fun hr => hsep.result_frame.disjoint y hr (hmark16 hy),
        copy_outside fun hin => hsep.frame_memory.disjoint y (hmark16 hy) (hout hin)]
    have hle : mark.toNat ≤ start.toNat := by
      have hpow := Arenas.and_neg_power (mark+7) (show (8 : Word).toNat = 2^3 from rfl)
      rw [hstart] at hpow
      rw [BitVec.lt_def, BitVec.toNat_add] at hpad
      rw [BitVec.toNat_add] at hpow
      have h7 : (7 : Word).toNat = 7 := rfl
      have := mark.isLt
      omega
    rw [Reserved, hnew, hmark]
    have hcopy : InRange x (load m into 8+start) length.toNat := hcopy
    simp only [InRange, BitVec.toNat_sub, BitVec.toNat_add] at hcopy ⊢
    have := x.isLt
    have := (load m into 8).isLt
    have := start.isLt
    have := length.isLt
    have := mark.isLt
    rw [BitVec.toNat_add] at hsum
    omega

theorem Filled.slotLoop_iff (h : c.Filled m puts) {slot : Word} :
    slotLoop m key c.stride c.slots c.address = some slot ↔
      ∃ i < c.slots, slot = c.slot i ∧ ∃ a bs, Lowest c.slots puts a (key, bs) ∧ a%c.slots = i ∧
        slotEntry m slot = some (key, bs) := by
  rw [slotLoop_eq_some]
  refine exists_congr fun i => and_congr_right fun hi => and_congr_right fun hslot => ?_
  subst hslot
  constructor
  · rintro ⟨⟨bs,hbs⟩,hbefore⟩
    obtain ⟨a,ha,hai⟩ := lowest_of_first ((h.entries i hi _).mp hbs) fun j hj q hq =>
      hbefore j hj q ((h.entries j (by omega) q).mpr hq)
    exact ⟨a,bs,ha,hai,hbs⟩
  · rintro ⟨a,bs,ha,rfl,hbs⟩
    refine ⟨⟨bs,hbs⟩,fun j hj p hp hkey => ?_⟩
    obtain ⟨b,hb,rfl⟩ := (h.entries j (by omega) p).mp hp
    exact absurd (ha.2 b p hb hkey) (by omega)

theorem Filled.slotLoop_none (h : c.Filled m puts)
    (hnone : slotLoop m key c.stride c.slots c.address = none) {a : ℕ}
    (hp : Live c.slots puts a p) (hn : 0 < c.slots) : p.1 ≠ key := by
  rintro rfl
  obtain ⟨b,q,hq,hkey⟩ := exists_lowest hp
  have hb := Nat.mod_lt b hn
  have hentry := (h.entries _ hb q).mpr ⟨b,hq.1,rfl⟩
  obtain ⟨k,bs⟩ := q
  obtain rfl : k = p.1 := hkey
  have hsome := h.slotLoop_iff.mpr ⟨_,hb,rfl,b,bs,hq,rfl,hentry⟩
  rw [hnone] at hsome
  cases hsome

theorem Separate.frame (h : c.Separate m into result) (hm : ∀ x, InRange x into 24 → m' x = m x) :
    c.Separate m' into result ∧ ∀ m2 x, Reserved m' m2 into x ↔ Reserved m m2 into x := by
  have hbase : load m' into 8 = load m into 8 := load_frame fun x hx => hm x (hx.mono (by omega))
  have hlength : load m' (into+8) 8 = load m (into+8) 8 :=
    load_frame fun x hx => hm x (hx.shift (k := 8) (by omega))
  have hmark : load m' (into+16) 8 = load m (into+16) 8 :=
    load_frame fun x hx => hm x (hx.shift (k := 16) (by omega))
  refine ⟨⟨h.frame_outside,h.result_outside,?_,?_,?_,h.result_frame⟩,fun m2 x => ?_⟩
  · rw [hbase, hlength]
    exact h.memory_outside
  · rw [hbase, hlength]
    exact h.frame_memory
  · rw [hbase, hlength]
    exact h.result_memory
  · rw [Reserved, Reserved, hbase, hmark]

/-- A lookup that returns leaves the cache as it is and answers with the lowest
entry of the key. -/
theorem getBytes_spec (h : c.Inv m puts)
    (hsep : c.Separate m into result) (hget : getBytes m c.self key into result = some m') :
    c.Inv m' puts ∧
      (∀ bs, answer m' result = some bs ↔ ∃ a, Lowest c.slots puts a (key, bs)) ∧
      ∀ x, ¬ c.Written x → ¬ InRange x result 32 → ¬ InRange x (into+16) 8 →
        ¬ Reserved m m' into x → m' x = m x := by
  have hmiss : ∀ {m1 : Mem}, c.Inv m1 puts → c.Inv (getMiss m1 result) puts :=
    fun h1 => h1.frame fun x hx => lookupWords_outside fun hr => hsep.result_outside.not_owns hr hx
  have hnone : ∀ m1 : Mem, answer (getMiss m1 result) result = none := by
    intro m1
    rw [getMiss_eq, answer_lookupWords, if_pos (by decide)]
  simp only [getBytes, h.laid.slotCount] at hget
  split at hget
  · next hcount =>
    -- without slots nothing is held
    obtain rfl := some.inj hget
    refine ⟨hmiss h,fun bs => ?_,fun x _ hr _ _ => lookupWords_outside hr⟩
    rw [hnone]
    refine iff_of_false (by simp) ?_
    rintro ⟨a,ha⟩
    have hlt := ha.1.lt
    have hle := ha.1.1
    rw [slots, hcount] at hle
    simp at hle
    omega
  next hcount =>
  have hn : 0 < c.slots := Nat.pos_of_ne_zero fun he => hcount (BitVec.eq_of_toNat_eq he)
  have hfilled := initSlots_filled h
  have hsame : ∀ x, ¬ c.Written x →
      initSlots m c.self c.slotCount c.stride c.address x = m x := fun x hx => initSlots_outside hx
  simp only [checkedSlots_eq h.laid hn] at hget
  generalize initSlots m c.self c.slotCount c.stride c.address = m1 at hfilled hsame hget
  obtain ⟨hsep1,hreserved⟩ := hsep.frame fun x hx => hsame x (hsep.frame_outside.not_written hx)
  split at hget
  · next hsearch =>
    obtain rfl := some.inj hget
    refine ⟨hmiss hfilled.inv,fun bs => ?_,fun x hx hr _ _ => ?_⟩
    · rw [hnone]
      refine iff_of_false (by simp) ?_
      rintro ⟨a,ha⟩
      exact hfilled.slotLoop_none hsearch ha.1 hn rfl
    · exact (lookupWords_outside hr).trans (hsame x hx)
  · next slot hsearch =>
    obtain ⟨i,hi,rfl,a,bs,ha,-,hentry⟩ := hfilled.slotLoop_iff.mp hsearch
    obtain ⟨hanswer,howns,houtside⟩ := getHit_spec hfilled hi hentry hsep1 hget
    refine ⟨hfilled.inv.frame howns,fun bs' => ?_,fun x hx hr hmk hres => ?_⟩
    · rw [hanswer, some.injEq]
      constructor
      · rintro rfl
        exact ⟨a,ha⟩
      · rintro ⟨b,hb⟩
        exact congrArg Prod.snd (ha.unique hb rfl)
    · exact (houtside x hr hmk (fun h1 => hres ((hreserved m' x).mp h1))).trans (hsame x hx)

end Cache

/-! ### Sequences of operations -/

structure CacheState where
  mem : Mem
  puts : List Entry

/-- `write` is a byte written by other code. -/
inductive CacheEvent where
  | clear
  | put (key bytes result : Word)
  | get (key into result : Word)
  | write (a : Word) (v : BitVec 8)

/-- Operations are called with records and results of their own; a put has
succeeded when its result says so. -/
def step (c : Cache) (s : CacheState) : CacheEvent → Option CacheState
  | .clear => some ⟨clear s.mem c.self,[]⟩
  | .put key bytes result =>
    let source := load s.mem bytes 8
    let length := (load s.mem (bytes+8) 8).toNat
    if c.Outside bytes 16 ∧ c.Outside source length ∧ c.Outside result 16 then
      let m := putBytes s.mem c.self key bytes result
      some ⟨m,if m result = 0 then s.puts else s.puts++[(key, X86.bytes s.mem source length)]⟩
    else none
  | .get key into result =>
    if c.Separate s.mem into result then
      (getBytes s.mem c.self key into result).map fun m => ⟨m,s.puts⟩
    else none
  | .write a v => if c.Outside a 1 then some ⟨Function.update s.mem a v,s.puts⟩ else none

/-- The bytes an operation may change: the cache object and its storage, the
result, and for a lookup the mark of the frame and what it has newly reserved. -/
def Footprint (c : Cache) (s t : CacheState) (x : Word) : CacheEvent → Prop
  | .clear => c.Written x
  | .put _ _ result => c.Written x ∨ InRange x result 16
  | .get _ into result => c.Written x ∨ InRange x result 32 ∨ InRange x (into+16) 8 ∨
    Reserved s.mem t.mem into x
  | .write a _ => x = a

theorem step_spec {c : Cache} {s t : CacheState} (h : c.Inv s.mem s.puts) {e : CacheEvent}
    (hstep : step c s e = some t) :
    c.Inv t.mem t.puts ∧ ∀ x, t.mem x ≠ s.mem x → Footprint c s t x e := by
  cases e with
  | clear =>
    obtain rfl := some.inj hstep
    exact ⟨(Cache.clear_filled h.laid).inv,fun x hx =>
      Classical.by_contradiction fun hw => hx (Cache.clear_outside h.laid hw)⟩
  | put key bytes result =>
    simp only [step, ite_none_right_eq_some] at hstep
    obtain ⟨⟨hbytes,hsrc,hresult⟩,hstep⟩ := hstep
    obtain rfl := some.inj hstep
    obtain ⟨hdone,houtside⟩ := Cache.putBytes_spec h key hbytes hsrc hresult
    refine ⟨?_,fun x hx => Classical.by_contradiction fun hw => ?_⟩
    · rcases hdone with ⟨hflag,hinv⟩ | ⟨hflag,hinv⟩
      · simpa [hflag] using hinv
      · simpa [hflag] using hinv
    · obtain ⟨hw,hr⟩ := not_or.mp hw
      exact hx (houtside x hw hr)
  | get key into result =>
    simp only [step, ite_none_right_eq_some, map_eq_some_iff] at hstep
    obtain ⟨hsep,m',hget,rfl⟩ := hstep
    obtain ⟨hinv,-,houtside⟩ := Cache.getBytes_spec h hsep hget
    refine ⟨hinv,fun x hx => Classical.by_contradiction fun hw => ?_⟩
    simp only [Footprint, not_or] at hw
    exact hx (houtside x hw.1 hw.2.1 hw.2.2.1 hw.2.2.2)
  | write a v =>
    simp only [step, ite_none_right_eq_some] at hstep
    obtain ⟨hout,hstep⟩ := hstep
    obtain rfl := some.inj hstep
    refine ⟨h.frame fun x hx => Function.update_of_ne ?_ _ _,fun x hx =>
      Classical.by_contradiction fun hne => hx (Function.update_of_ne hne _ _)⟩
    rintro rfl
    exact hout.not_owns (inRange_self (by omega)) hx

/-- After any operations, a lookup that returns answers with the entry of its key
in the lowest slot among those not overwritten, and misses when there is none. This
is the entry put last whenever no key is put twice in one round of the slots. No
operation changes bytes outside its footprint. -/
theorem cache_lookups (c : Cache) (m : Mem) (hlaid : c.Laid m) (hnew : load m (c.self+32) 8 ≠ 1)
    (es : List CacheEvent) (s : CacheState) (hrun : run (step c) ⟨m,[]⟩ es = some s) :
    (∀ e t x, step c s e = some t → t.mem x ≠ s.mem x → Footprint c s t x e) ∧
    ∀ key into result t, step c s (.get key into result) = some t →
      (∀ bs, answer t.mem result = some bs ↔ ∃ a, Lowest c.slots s.puts a (key, bs)) ∧
      (answer t.mem result = none ↔ ∀ a p, Live c.slots s.puts a p → p.1 ≠ key) ∧
      (OncePerRound c.slots s.puts → ∀ bs, answer t.mem result = some bs →
        ∃ a : ℕ, s.puts[a]? = some (key, bs) ∧
          ∀ (b : ℕ) (p : Entry), s.puts[b]? = some p → p.1 = key → b ≤ a) := by
  have hinv : c.Inv s.mem s.puts :=
    run_invariant (P := fun s => c.Inv s.mem s.puts) (fun _ _ _ hi hstep => (step_spec hi hstep).1)
      (⟨hlaid,fun hi => absurd hi hnew,fun _ => rfl⟩ : c.Inv m []) es hrun
  refine ⟨fun e t x hstep hx => (step_spec hinv hstep).2 x hx,fun key into result t hstep => ?_⟩
  simp only [step, ite_none_right_eq_some, map_eq_some_iff] at hstep
  obtain ⟨hsep,m',hget,rfl⟩ := hstep
  obtain ⟨-,hanswer,-⟩ := Cache.getBytes_spec hinv hsep hget
  refine ⟨hanswer,?_,fun honce bs hbs => ?_⟩
  · constructor
    · rintro hnone a p hp rfl
      obtain ⟨b,⟨k,bs⟩,hq,hkey⟩ := exists_lowest hp
      obtain rfl : k = p.1 := hkey
      have := (hanswer bs).mpr ⟨b,hq⟩
      rw [hnone] at this
      cases this
    · intro hlive
      rw [eq_none_iff_forall_ne_some]
      intro bs hbs
      obtain ⟨a,ha⟩ := (hanswer bs).mp hbs
      exact hlive a _ ha.1 rfl
  · obtain ⟨a,ha⟩ := (hanswer bs).mp hbs
    exact ⟨a,ha.1.2,fun b p hp hkey => ha.last honce hp hkey⟩

/-- Two slots of eight bytes, at 128 behind the cache object and the record of its
storage. -/
def twoSlots : Cache where
  self := 0
  handle := 64
  address := 128
  length := 64
  slotCount := 2
  slotSize := 8
  fits := by decide
  self_handle := by decide
  self_storage := by decide
  handle_storage := by decide

/-- The fields of the cache; a record at 256 of the one byte at 272; a frame at 384
of the bytes from 512 on. -/
def twoSlotsMemory : Mem :=
  storeAll 0 (fun _ => 0) [(392, 8, 64), (384, 8, 512), (272, 1, 7), (264, 8, 1), (256, 8, 272),
    (72, 8, 64), (64, 8, 128), (16, 8, 8), (8, 8, 2), (0, 8, 64)]

theorem twoSlots_laid : twoSlots.Laid twoSlotsMemory where
  storage := by decide +kernel
  slotCount := by decide +kernel
  slotSize := by decide +kernel
  address := by decide +kernel
  length := by decide +kernel

/-- Three puts to two slots: the third one evicts the first. -/
def threePuts : List CacheEvent :=
  [.put 1 256 320, .write 272 8, .put 2 256 320, .write 272 9, .put 3 256 320]

theorem cache_lookups_threePuts :
    ∃ s, run (step twoSlots) ⟨twoSlotsMemory,[]⟩ threePuts = some s ∧
      s.puts = [(1, [7]), (2, [8]), (3, [9])] ∧
      (∀ t, step twoSlots s (.get 3 384 320) = some t → answer t.mem 320 = some [9]) ∧
      ∀ t, step twoSlots s (.get 1 384 320) = some t → answer t.mem 320 = none := by
  have hputs : (run (step twoSlots) ⟨twoSlotsMemory,[]⟩ threePuts).map CacheState.puts =
      some [(1, [7]), (2, [8]), (3, [9])] := by decide +kernel
  obtain ⟨s,hs,hp⟩ := map_eq_some_iff.mp hputs
  have hlookup := (cache_lookups twoSlots twoSlotsMemory twoSlots_laid (by decide +kernel) _ s hs).2
  rw [hp] at hlookup
  refine ⟨s,hs,hp,fun t ht => ?_,fun t ht => ?_⟩
  · exact ((hlookup 3 384 320 t ht).1 [9]).mpr ⟨2,⟨by decide,rfl⟩,fun _ _ _ _ => Nat.zero_le _⟩
  · refine (hlookup 1 384 320 t ht).2.1.mpr fun a p hlive => ?_
    match a, hlive with
    | 0, ⟨hlen,_⟩ => exact absurd hlen (by decide)
    | 1, ⟨_,hget⟩ | 2, ⟨_,hget⟩ =>
      cases hget
      decide

/-- A key is put twice in one round: its first entry stands in the lower slot, and
the lookup answers with that one. -/
theorem lookup_returns_older :
    (run (step twoSlots) ⟨twoSlotsMemory,[]⟩
      [.put 1 256 320, .write 272 9, .put 1 256 320]).map CacheState.puts =
        some [(1, [7]), (1, [9])] ∧
    ((run (step twoSlots) ⟨twoSlotsMemory,[]⟩
      [.put 1 256 320, .write 272 9, .put 1 256 320]).bind
        fun s => step twoSlots s (.get 1 384 320)).map (fun t => answer t.mem 320) =
          some (some [7]) :=
  ⟨by decide +kernel,by decide +kernel⟩

end Wrela.CacheMemory

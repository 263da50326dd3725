import Wrela.Arena.Bump
import Wrela.Diag
import Wrela.Transition
import Mathlib.Order.CompletePartialOrder
import Mathlib.Order.Interval.Set.Disjoint

/-!
# Child arenas

A root arena over a physical region and the child arenas taken from it hand out
parts of their range at explicit offsets, or at the mark behind the highest part
handed out so far. Only that mark is kept. Comparisons of the compiled code are
signed.
-/

set_option autoImplicit false

namespace Wrela.ChildArenas
open X86 Transition Arenas BitVec Option

structure PhysicalRegionAuthority where
  base : Word
  length : Word
  align : Word
  provenance : Word

structure RootArena where
  region : PhysicalRegionAuthority
  identity : String
  evictCacheByDefault : Bool
  nextOffset : Word

structure ChildArena where
  root : RootArena
  identity : String
  base : Word
  length : Word
  nextOffset : Word

structure MutableBytes where
  address : Word
  length : Word

structure CacheArena where
  storage : MutableBytes
  slotCount : Word
  slotSize : Word
  nextVictim : Word
  initialized : Word

structure DmaBuffer where
  owner : Word
  address : Word
  capacity : Word

def panicCode : Word := 0xAC070001

/-- The base of the child and the mark behind it, for an arena of the given base,
length and mark. -/
def placeChild (base length nextOffset offset childLength align : Word) : Except Word (Word × Word) :=
  let requestedBase := base+offset
  if requestedBase.slt base then .error panicCode
  else
    let childBase := (requestedBase+align-1) &&& (0-align)
    if childBase.slt requestedBase then .error panicCode
    else
      let alignedOffset := childBase-base
      if length.slt childLength then .error panicCode
      else if (length-childLength).slt alignedOffset then .error panicCode
      else
        let end' := alignedOffset+childLength
        if length.slt end' then .error panicCode
        else if alignedOffset.slt nextOffset ∧ nextOffset.slt end' then .error panicCode
        else .ok (childBase, if nextOffset.slt end' then end' else nextOffset)

def PhysicalRegionAuthority.createArena (self : PhysicalRegionAuthority) (identity : String)
    (evictCacheByDefault : Bool) : RootArena := ⟨self,identity,evictCacheByDefault,0⟩

namespace RootArena

variable (self : RootArena)

variable (identity : String)

def childAt (offset length align : Word) : Except Word (ChildArena × RootArena) := do
  let (base, mark) ← placeChild self.region.base self.region.length self.nextOffset offset length align
  let self := {self with nextOffset := mark}
  return (⟨self,identity,base,length,0⟩, self)

def child (length align : Word) : Except Word (ChildArena × RootArena) :=
  self.childAt identity self.nextOffset length align

def executorMemory (length align : Word) : Except Word (Arena × RootArena) := do
  let (child, self) ← self.child "executor.memory" length align
  return (⟨child.base,child.length,0⟩, self)

def cacheArena (length align : Word) : Except Word (CacheArena × RootArena) := do
  let (child, self) ← self.child identity length align
  return (⟨⟨child.base,child.length⟩,0,0,0,0⟩, self)

def dmaBuffer (owner : Word) (identity : String) (length align : Word) :
    Except Word (DmaBuffer × RootArena) := do
  let (child, self) ← self.child identity length align
  return (⟨owner,child.base,child.length⟩, self)

end RootArena

namespace ChildArena

def childAt (self : ChildArena) (identity : String) (offset length align : Word) :
    Except Word (ChildArena × ChildArena) := do
  let (base, mark) ← placeChild self.base self.length self.nextOffset offset length align
  return (⟨self.root,identity,base,length,0⟩, {self with nextOffset := mark})

def child (self : ChildArena) (identity : String) (length align : Word) :
    Except Word (ChildArena × ChildArena) :=
  self.childAt identity self.nextOffset length align

end ChildArena

/-! ### Requests on one arena -/

inductive ArenaRef where
  | root (arena : RootArena)
  | child (arena : ChildArena)

namespace ArenaRef

def base : ArenaRef → Word
  | root a => a.region.base
  | child a => a.base

def length : ArenaRef → Word
  | root a => a.region.length
  | child a => a.length

def nextOffset : ArenaRef → Word
  | root a => a.nextOffset
  | child a => a.nextOffset

end ArenaRef

structure Alignment where
  value : Word
  power : value.toNat.isPowerOfTwo

inductive Request where
  | child (identity : String) (length : Word) (align : Alignment)
  | childAt (identity : String) (offset length : Word) (align : Alignment)
  | executorMemory (length : Word) (align : Alignment)
  | cacheArena (identity : String) (length : Word) (align : Alignment)
  | dmaBuffer (owner : Word) (identity : String) (length : Word) (align : Alignment)

inductive Obtained where
  | child (arena : ChildArena)
  | executorMemory (arena : Arena)
  | cacheArena (arena : CacheArena)
  | dmaBuffer (buffer : DmaBuffer)

namespace Obtained

def address : Obtained → Word
  | child a => a.base
  | executorMemory a => a.arenaBase
  | cacheArena a => a.storage.address
  | dmaBuffer b => b.address

def length : Obtained → Word
  | child a => a.length
  | executorMemory a => a.arenaLength
  | cacheArena a => a.storage.length
  | dmaBuffer b => b.capacity

def range (o : Obtained) : Set ℕ := Set.Ico o.address.toNat (o.address.toNat+o.length.toNat)

end Obtained

namespace Request

def align : Request → Alignment
  | child _ _ align => align
  | childAt _ _ _ align => align
  | executorMemory _ align => align
  | cacheArena _ _ align => align
  | dmaBuffer _ _ _ align => align

def length : Request → Word
  | child _ length _ => length
  | childAt _ _ length _ => length
  | executorMemory length _ => length
  | cacheArena _ length _ => length
  | dmaBuffer _ _ length _ => length

def offset (nextOffset : Word) : Request → Word
  | childAt _ offset _ _ => offset
  | _ => nextOffset

/-- A child arena has no methods but `child` and `child_at`. -/
def serve : Request → ArenaRef → Option (Obtained × ArenaRef)
  | child identity length align, .root a =>
    (a.child identity length align.value).toOption.map fun p => (.child p.1, .root p.2)
  | childAt identity offset length align, .root a =>
    (a.childAt identity offset length align.value).toOption.map fun p => (.child p.1, .root p.2)
  | executorMemory length align, .root a =>
    (a.executorMemory length align.value).toOption.map fun p => (.executorMemory p.1, .root p.2)
  | cacheArena identity length align, .root a =>
    (a.cacheArena identity length align.value).toOption.map fun p => (.cacheArena p.1, .root p.2)
  | dmaBuffer owner identity length align, .root a =>
    (a.dmaBuffer owner identity length align.value).toOption.map fun p => (.dmaBuffer p.1, .root p.2)
  | child identity length align, .child a =>
    (a.child identity length align.value).toOption.map fun p => (.child p.1, .child p.2)
  | childAt identity offset length align, .child a =>
    (a.childAt identity offset length align.value).toOption.map fun p => (.child p.1, .child p.2)
  | _, .child _ => none

end Request

structure Use where
  receiver : Receiver
  request : Request

structure Ledger where
  arena : ArenaRef
  obtained : List (Obtained × Alignment)

/-- A request that panics never returns: it has no next state. -/
def Ledger.step (l : Ledger) (u : Use) : Option Ledger :=
  (u.request.serve l.arena).map fun p =>
    ⟨u.receiver.left l.arena p.2,(p.1, u.request.align)::l.obtained⟩

structure Ledger.Sound (l : Ledger) : Prop where
  apart : l.obtained.Pairwise fun p q => Disjoint p.1.range q.1.range
  aligned : ∀ p ∈ l.obtained, p.2.value.toNat ∣ p.1.address.toNat
  inside : ∀ p ∈ l.obtained, l.arena.base.toNat ≤ p.1.address.toNat ∧
    p.1.address.toNat+p.1.length.toNat ≤ l.arena.base.toNat+l.arena.length.toNat

/-- Where a request asks for: its offset, or the mark, rounded up. -/
def Request.start (q : Request) (a : ArenaRef) : ℕ :=
  roundUp (a.base.toNat+(q.offset a.nextOffset).toNat) q.align.value.toNat

/-- A request that begins below the mark ends before every arena handed out, or
begins behind it, unless one of them has no bytes. -/
def Ledger.Fresh (l : Ledger) (q : Request) : Prop :=
  q.start l.arena < l.arena.base.toNat+l.arena.nextOffset.toNat →
    ∀ p ∈ l.obtained, q.length.toNat = 0 ∨ p.1.length.toNat = 0 ∨
      q.start l.arena+q.length.toNat ≤ p.1.address.toNat ∨
      p.1.address.toNat+p.1.length.toNat ≤ q.start l.arena

/-- The arena lies in the lower half of the address space, where the signed
comparisons are those of the numbers, and its mark in the arena. -/
structure ArenaRef.Regular (a : ArenaRef) : Prop where
  fits : a.base.toNat+a.length.toNat < 2^63
  mark_le : a.nextOffset.toNat ≤ a.length.toNat

/-! ### Below and above the mark -/

variable {α : Type} {x : Except Word α}

section
variable {base length nextOffset offset childLength align childBase mark : Word}

structure Placed (base length nextOffset offset childLength align childBase mark : Word) : Prop where
  base_eq : childBase.toNat = roundUp (base.toNat+offset.toNat) align.toNat
  base_le : base.toNat ≤ childBase.toNat
  end_le : childBase.toNat+childLength.toNat ≤ base.toNat+length.toNat
  mark_eq : base.toNat+mark.toNat =
    max (base.toNat+nextOffset.toNat) (childBase.toNat+childLength.toNat)

theorem check_eq_ok {c : Prop} [Decidable c] {e : Word} {r : α} :
    (if c then .error e else x) = .ok r ↔ ¬ c ∧ x = .ok r := by
  by_cases h : c <;> simp [h]

theorem childBase_toNat {requestedBase : Word} (hp : align.toNat.isPowerOfTwo)
    (h : requestedBase.toNat < 2^63) :
    ((requestedBase+align-1) &&& (0-align)).toNat = roundUp requestedBase.toNat align.toNat := by
  obtain ⟨k,hk⟩ := hp
  have hpos : 0 < align.toNat := Nat.pos_of_isPowerOfTwo ⟨k,hk⟩
  have hhalf : align.toNat ≤ 2^63 := by
    have hlt := align.isLt
    rw [hk] at hlt ⊢
    have := (Nat.pow_lt_pow_iff_right (by decide)).mp hlt
    exact Nat.pow_le_pow_right (by decide) (by omega)
  have hsum : (requestedBase+align-1).toNat = requestedBase.toNat+(align.toNat-1) := by bv_omega
  have hneg : 0-align = -align := zero_sub align
  rw [hneg, and_neg_power _ hk, hsum, roundUp, hk]

theorem placeChild_ok (hfits : base.toNat+length.toNat < 2^63)
    (hmark : nextOffset.toNat ≤ length.toNat) (hlength : childLength.toNat < 2^63)
    (hp : align.toNat.isPowerOfTwo)
    (h : placeChild base length nextOffset offset childLength align = .ok (childBase, mark)) :
    Placed base length nextOffset offset childLength align childBase mark := by
  simp only [placeChild, check_eq_ok, Except.ok.injEq, Prod.mk.injEq] at h
  obtain ⟨hreq,hbase,hlen,hoff,hend,-,hcb,hm⟩ := h
  -- a request that leaves the lower half is negative and panics
  obtain ⟨hreqlt,hreqle⟩ := le_of_not_slt (by omega) hreq
  have hreqeq : (base+offset).toNat = base.toNat+offset.toNat := by
    have := offset.isLt
    rw [toNat_add] at hreqle ⊢
    omega
  have hcbeq := childBase_toNat hp hreqlt
  rw [hcb, hreqeq] at hcbeq
  rw [hcb] at hbase hoff hend hm
  obtain ⟨hcblt,hcble⟩ := le_of_not_slt hreqlt hbase
  have hle : base.toNat ≤ childBase.toNat := by omega
  have haligned : (childBase-base).toNat = childBase.toNat-base.toNat := toNat_sub_of_le hle
  have hlenle := (le_of_not_slt hlength hlen).2
  obtain ⟨-,hoffle⟩ := le_of_not_slt (by omega) hoff
  rw [toNat_sub_of_le hlenle, haligned] at hoffle
  have hend' : (childBase-base+childLength).toNat =
      childBase.toNat-base.toNat+childLength.toNat := by
    rw [toNat_add, haligned, Nat.mod_eq_of_lt (by omega)]
  refine ⟨hcbeq,hle,by omega,?_⟩
  rw [← hm, apply_ite BitVec.toNat, slt_eq (by omega) (by omega), hend']
  simp only [decide_eq_true_eq]
  split <;> omega

end

theorem toOption_map_eq_some {β : Type} {f : α → β} {b : β} :
    x.toOption.map f = some b ↔ ∃ a, x = .ok a ∧ f a = b := by
  cases x <;> simp [Except.toOption]

/-- Behind each request is one placement, and it says all that matters here. -/
structure Served (q : Request) (a : ArenaRef) (o : Obtained) (after : ArenaRef) : Prop where
  placed : placeChild a.base a.length a.nextOffset (q.offset a.nextOffset) q.length q.align.value =
    .ok (o.address, after.nextOffset)
  length_eq : o.length = q.length
  base_eq : after.base = a.base
  arenaLength_eq : after.length = a.length

theorem RootArena.childAt_ok {self after : RootArena} {identity : String}
    {offset length align : Word} {c : ChildArena}
    (h : self.childAt identity offset length align = .ok (c, after)) :
    placeChild self.region.base self.region.length self.nextOffset offset length align =
      .ok (c.base, after.nextOffset) ∧ c.length = length ∧ after.region = self.region := by
  obtain ⟨⟨base,mark⟩,hp,h⟩ := bind_eq_ok h
  cases h
  exact ⟨hp,rfl,rfl⟩

variable {q : Request} {l t : Ledger} {o : Obtained}

theorem serve_eq_some {a after : ArenaRef}
    (h : q.serve a = some (o, after)) : Served q a o after := by
  cases a with
  | root a =>
    cases q with
    | child identity length align | childAt identity offset length align =>
      obtain ⟨⟨c,a'⟩,hc,he⟩ := toOption_map_eq_some.mp h
      obtain ⟨hp,hl,hr⟩ := RootArena.childAt_ok hc
      cases he
      exact ⟨hp,hl,congrArg (·.base) hr,congrArg (·.length) hr⟩
    | executorMemory length align | cacheArena identity length align
    | dmaBuffer owner identity length align =>
      obtain ⟨⟨m,a'⟩,hm,he⟩ := toOption_map_eq_some.mp h
      obtain ⟨⟨c,a''⟩,hc,hm⟩ := bind_eq_ok hm
      obtain ⟨hp,hl,hr⟩ := RootArena.childAt_ok hc
      cases hm
      cases he
      exact ⟨hp,hl,congrArg (·.base) hr,congrArg (·.length) hr⟩
  | child a =>
    cases q with
    | child identity length align | childAt identity offset length align =>
      obtain ⟨⟨c,a'⟩,hc,he⟩ := toOption_map_eq_some.mp h
      obtain ⟨⟨base,mark⟩,hp,hc⟩ := bind_eq_ok hc
      cases hc
      cases he
      exact ⟨hp,rfl,rfl,rfl⟩
    | executorMemory length align | cacheArena identity length align
    | dmaBuffer owner identity length align => cases h

def Ledger.Marked (l : Ledger) : Prop :=
  ∀ p ∈ l.obtained, p.1.address.toNat+p.1.length.toNat ≤
    l.arena.base.toNat+l.arena.nextOffset.toNat

variable {u : Use}

theorem step_eq_some (h : l.step u = some t) :
    ∃ o after, u.request.serve l.arena = some (o, after) ∧
      t = ⟨u.receiver.left l.arena after,(o, u.request.align)::l.obtained⟩ := by
  obtain ⟨⟨o,after⟩,hs,rfl⟩ := map_eq_some_iff.mp h
  exact ⟨o,after,hs,rfl⟩

section
variable {a after : ArenaRef} (hr : a.Regular) (hlength : q.length.toNat < 2^63)
  (h : q.serve a = some (o, after))
include hr hlength h

theorem served_placed :
    Placed a.base a.length a.nextOffset (q.offset a.nextOffset) q.length q.align.value o.address
      after.nextOffset :=
  placeChild_ok hr.fits hr.mark_le hlength q.align.power (serve_eq_some h).placed

theorem regular_served : after.Regular := by
  have hs := serve_eq_some h
  have hp := served_placed hr hlength h
  have hmark := hp.mark_eq
  have hend := hp.end_le
  refine ⟨?_,?_⟩
  · rw [hs.base_eq, hs.arenaLength_eq]
    exact hr.fits
  · have := hr.mark_le
    rw [hs.arenaLength_eq]
    omega

end

/-- What holds of the ledger of a run on a named arena besides soundness. -/
structure Ledger.Kept (l : Ledger) : Prop where
  regular : l.arena.Regular
  marked : l.Marked

section
variable (hl : l.Kept) (hnamed : u.receiver = .named) (hlength : u.request.length.toNat < 2^63)
  (h : l.step u = some t)
include hl hnamed hlength h

theorem kept_step : t.Kept := by
  obtain ⟨o,after,hs,rfl⟩ := step_eq_some h
  have hp := served_placed hl.regular hlength hs
  rw [hnamed]
  refine ⟨regular_served hl.regular hlength hs,fun p hmem => ?_⟩
  change _ ≤ after.base.toNat+after.nextOffset.toNat
  rw [(serve_eq_some hs).base_eq, hp.mark_eq]
  rcases List.mem_cons.mp hmem with rfl | hmem
  · rw [(serve_eq_some hs).length_eq]
    exact le_max_right _ _
  · exact le_trans (hl.marked p hmem) (le_max_left _ _)

/-- A step keeps the arenas apart exactly when its request is fresh: from the
mark on it always is. -/
theorem sound_step_iff (hsound : l.Sound) : t.Sound ↔ l.Fresh u.request := by
  obtain ⟨o,after,hs,rfl⟩ := step_eq_some h
  have hserved := serve_eq_some hs
  have hp := served_placed hl.regular hlength hs
  have hstart : o.address.toNat = u.request.start l.arena := hp.base_eq
  have hlen : o.length.toNat = u.request.length.toNat := congrArg BitVec.toNat hserved.length_eq
  rw [hnamed]
  constructor
  · intro ht _ p hmem
    have hapart : Disjoint o.range p.1.range := (List.pairwise_cons.mp ht.apart).1 p hmem
    rw [Obtained.range, Obtained.range, Set.Ico_disjoint_Ico] at hapart
    omega
  · intro hfresh
    have hnew : ∀ p ∈ l.obtained, Disjoint o.range p.1.range := by
      intro p hmem
      rw [Obtained.range, Obtained.range, Set.Ico_disjoint_Ico]
      have hmarked := hl.marked p hmem
      by_cases hbelow : u.request.start l.arena < l.arena.base.toNat+l.arena.nextOffset.toNat
      · have := hfresh hbelow p hmem
        omega
      · omega
    refine ⟨List.pairwise_cons.mpr ⟨hnew,hsound.apart⟩,fun p hmem => ?_,fun p hmem => ?_⟩
    · rcases List.mem_cons.mp hmem with rfl | hmem
      · change u.request.align.value.toNat ∣ o.address.toNat
        rw [hp.base_eq]
        exact dvd_roundUp _ _
      · exact hsound.aligned p hmem
    · change after.base.toNat ≤ _ ∧ _ ≤ after.base.toNat+after.length.toNat
      rw [hserved.base_eq, hserved.arenaLength_eq]
      rcases List.mem_cons.mp hmem with rfl | hmem
      · rw [hserved.length_eq]
        exact ⟨hp.base_le,hp.end_le⟩
      · exact hsound.inside p hmem

end

/-- On a named arena of the lower half of the address space, and for lengths of that half,
the arenas obtained stay apart, aligned and inside the parent exactly when no request
that begins below the mark asks for bytes of an arena obtained before. -/
theorem child_arenas_apart_iff (arena : ArenaRef) (hr : arena.Regular) (uses : List Use)
    (hnamed : ∀ u ∈ uses, u.receiver = .named)
    (hlength : ∀ u ∈ uses, u.request.length.toNat < 2^63)
    (hrun : (run Ledger.step ⟨arena,[]⟩ uses).isSome) :
    (∀ n l, run Ledger.step ⟨arena,[]⟩ (uses.take n) = some l → l.Sound) ↔
    ∀ n u l, uses[n]? = some u → run Ledger.step ⟨arena,[]⟩ (uses.take n) = some l →
      l.Fresh u.request := by
  have hinit : Ledger.Kept ⟨arena,[]⟩ := ⟨hr,by simp [Ledger.Marked]⟩
  have hkept : ∀ n l, run Ledger.step ⟨arena,[]⟩ (uses.take n) = some l → l.Kept := by
    refine run_good Ledger.step (fun l u t hl hstep hu => kept_step hl hu.1 hu.2 hstep) _ uses hinit
      (G := fun _ u => u.receiver = .named ∧ u.request.length.toNat < 2^63) fun n u _ hu _ => ?_
    exact ⟨hnamed u (List.mem_of_getElem? hu),hlength u (List.mem_of_getElem? hu)⟩
  rw [← run_good_iff_of_mem (P := fun l => l.Kept ∧ l.Sound) Ledger.step uses ?_ ⟨arena,[]⟩ ?_ hrun]
  · exact ⟨fun h n l hl => ⟨hkept n l hl,h n l hl⟩,fun h n l hl => (h n l hl).2⟩
  · intro l u hu t hl hstep
    rw [← sound_step_iff hl.1 (hnamed u hu) (hlength u hu) hstep hl.2]
    exact and_iff_right (kept_step hl.1 (hnamed u hu) (hlength u hu) hstep)
  · exact ⟨hinit,by simp,by simp,by simp⟩

def fourPages : ArenaRef :=
  .root (PhysicalRegionAuthority.createArena ⟨0x100000,0x4000,0x1000,0⟩ "root" false)

def page : Alignment := ⟨0x1000,12,rfl⟩

/-- Two pages behind one that is left out, then that page, then one behind them. -/
def pageUses : List Use :=
  [⟨.named,.childAt "log" 0x1000 0x2000 page⟩, ⟨.named,.childAt "boot" 0 0x1000 page⟩,
    ⟨.named,.executorMemory 0x1000 page⟩]

theorem child_arenas_apart_pages :
    (run Ledger.step ⟨fourPages,[]⟩ pageUses).isSome ∧
    ∀ n l, run Ledger.step ⟨fourPages,[]⟩ (pageUses.take n) = some l → l.Sound := by
  have hnamed : ∀ u ∈ pageUses, u.receiver = .named := by simp [pageUses]
  have hlength : ∀ u ∈ pageUses, u.request.length.toNat < 2^63 := by
    simp [pageUses, Request.length]
  refine ⟨rfl,(child_arenas_apart_iff fourPages ⟨by decide,by decide⟩ pageUses hnamed hlength
    rfl).mpr ?_⟩
  intro n u l hu hl hlt p hmem
  match n with
  | 0 =>
    obtain rfl := some.inj hl
    cases hmem
  | 1 =>
    -- the page left out begins below the mark and ends where the first arena begins
    obtain rfl := some.inj hu
    obtain rfl := some.inj hl
    obtain rfl := List.mem_singleton.mp hmem
    exact .inr (.inr (.inl (by decide)))
  | 2 =>
    obtain rfl := some.inj hu
    obtain rfl := some.inj hl
    exact absurd hlt (by decide)
  | n+3 => exact absurd hu (by simp [pageUses])

/-- A child at offset zero gets the first page of the executor's memory, and two
requests on a field get the same page. -/
theorem child_arenas_overlap :
    (∃ l, run Ledger.step ⟨fourPages,[]⟩ [⟨.named,.executorMemory 0x2000 page⟩,
      ⟨.named,.childAt "log" 0 0x1000 page⟩] = some l ∧ ¬ l.Sound) ∧
    ∃ l, run Ledger.step ⟨fourPages,[]⟩ [⟨.field,.executorMemory 0x1000 page⟩,
      ⟨.field,.executorMemory 0x1000 page⟩] = some l ∧ ¬ l.Sound := by
  refine ⟨⟨_,rfl,fun h => ?_⟩,_,rfl,fun h => ?_⟩
  · have := (List.pairwise_cons.mp h.apart).1 _ (List.mem_cons_self ..)
    exact Set.disjoint_left.mp this (show 0x100000 ∈ Set.Ico 0x100000 0x101000 by simp)
      (show 0x100000 ∈ Set.Ico 0x100000 0x102000 by simp)
  · have := (List.pairwise_cons.mp h.apart).1 _ (List.mem_cons_self ..)
    exact Set.disjoint_left.mp this (show 0x100000 ∈ Set.Ico 0x100000 0x101000 by simp)
      (show 0x100000 ∈ Set.Ico 0x100000 0x101000 by simp)

end Wrela.ChildArenas

import Wrela.Arena.Bump
import Wrela.Regions
import Wrela.Transition

/-!
# Runs over nested frames

An arena, the frames opened from it that have not ended, and the allocations
held from them. Levels count the open frames, the arena itself is level zero; a
frame may be opened from any arena that is open, and every open arena may be
asked at any time. A frame ends by writing the offset it saved into the arena
its parent value then points at.
-/

set_option autoImplicit false

namespace Wrela.Arenas
open X86 Transition Option BitVec Function Nat

structure Level where
  arena : Arena
  parent : ℕ
  saved : Word

structure Allocation where
  level : ℕ
  address : Word
  length : Word
  align : Word

structure Nesting where
  depth : ℕ
  level : ℕ → Level
  live : List Allocation

inductive Op where
  | frameBegin (parent : ℕ) (length : Word)
  | frameEnd (parent : ℕ)
  | request (arena : ℕ) (r : Request)

/-- The level of the arena that an operation writes to. -/
def Op.target : Op → ℕ
  | frameBegin p _ => p
  | frameEnd p => p
  | request l _ => l

/-- An operation with the way its arena is read. -/
structure Use where
  receiver : Receiver
  op : Op

variable (n : Nesting) (root : Arena)

variable (a : Allocation)

namespace Nesting

def initial : Nesting := ⟨0,fun _ => ⟨root,0,0⟩,[]⟩

def arena (l : ℕ) : Arena := (n.level l).arena

def setArena (l : ℕ) (arena : Arena) : Nesting :=
  {n with level := update n.level l {n.level l with arena := arena}}

def pushFrame (p : ℕ) (frame parent : Arena) : Nesting where
  depth := n.depth+1
  level := update (n.setArena p parent).level (n.depth+1)
    ⟨frame,p,(n.arena p).nextOffset⟩
  live := n.live

def popFrame (p : ℕ) : Nesting where
  depth := n.depth-1
  level := (n.setArena p (frameEnd (n.arena p) (n.level n.depth).saved)).level
  live := n.live.filter (·.level ≠ n.depth)

def hold (arena : Arena) : Nesting where
  depth := n.depth
  level := (n.setArena a.level arena).level
  live := a::n.live

/-- An operation on the arena itself; `none` is a trap. -/
def step : Op → Option Nesting
  | .frameBegin p length =>
    (frameBegin (n.arena p) length).map fun (frame, parent) => n.pushFrame p frame parent
  | .frameEnd p => some (n.popFrame p)
  | .request l r =>
    r.length.bind fun length =>
      (arenaBump (n.arena l) length r.align).map fun (address, arena) =>
        n.hold ⟨l,address,length,r.align⟩ arena

/-- An arena that is read from a field stays as it is: the operation moved its copy. -/
def use (u : Use) : Option Nesting :=
  (n.step u.op).map fun n' => u.receiver.left (n'.setArena u.op.target (n.arena u.op.target)) n'

def Admitted : Op → Prop
  | .frameBegin p _ => p ≤ n.depth
  | .frameEnd p => p ≤ n.depth ∧ 0 < n.depth
  | .request l _ => l ≤ n.depth

instance (n : Nesting) (op : Op) : Decidable (n.Admitted op) :=
  match op with
  | .frameBegin p _ => inferInstanceAs (Decidable (p ≤ n.depth))
  | .frameEnd p => inferInstanceAs (Decidable (p ≤ n.depth ∧ 0 < n.depth))
  | .request l _ => inferInstanceAs (Decidable (l ≤ n.depth))

/-- A frame ends into the arena it was opened from, and an arena is not asked
while a frame opened from it is open. -/
def Disciplined : Op → Prop
  | .frameBegin _ _ => True
  | .frameEnd p => p = (n.level n.depth).parent
  | .request l _ => ∀ d < n.depth, (n.level (d+1)).parent ≠ l

instance (n : Nesting) (op : Op) : Decidable (n.Disciplined op) :=
  match op with
  | .frameBegin _ _ => inferInstanceAs (Decidable True)
  | .frameEnd p => inferInstanceAs (Decidable (p = (n.level n.depth).parent))
  | .request l _ => inferInstanceAs (Decidable (∀ d < n.depth, (n.level (d+1)).parent ≠ l))

end Nesting

def Allocation.bytes : Set Word := {x | InRange x a.address a.length.toNat}

def bytesFrom (arena : Arena) (offset : Word) : Set Word :=
  {x | offset.toNat ≤ (x-arena.arenaBase).toNat ∧ (x-arena.arenaBase).toNat < arena.arenaLength.toNat}

def Allocation.Inside (arena : Arena) : Prop :=
  arena.arenaBase.toNat ≤ a.address.toNat ∧
    a.address.toNat+a.length.toNat ≤ arena.arenaBase.toNat+arena.arenaLength.toNat

def Arena.Fits (arena : Arena) : Prop := arena.arenaBase.toNat+arena.arenaLength.toNat ≤ 2^64

/-- The request runs over the end of the arena or of the address space. -/
def Request.Overruns (r : Request) (arena : Arena) : Prop :=
  arena.arenaLength.toNat < roundUp arena.nextOffset.toNat r.align.toNat+r.bytes ∨
    2^64 < arena.arenaBase.toNat+roundUp arena.nextOffset.toNat r.align.toNat+r.bytes

def FrameOverruns (arena : Arena) (length : Word) : Prop :=
  arena.arenaLength.toNat < arena.nextOffset.toNat+length.toNat ∨
    2^64 < arena.arenaBase.toNat+arena.nextOffset.toNat+length.toNat

variable {r : Request} {arena : Arena} {length : Word} {l p : ℕ}

theorem Request.overruns_trap (hf : arena.Fits) (h : r.Overruns arena) : r.serve arena = none := by
  rw [Request.serve, bind_eq_none_iff]
  intro length hl
  rw [arenaBump_eq_none]
  rintro ⟨-,hin,-⟩
  rw [Request.length_eq_some] at hl
  rw [Arena.Fits] at hf
  rw [Request.Overruns] at h
  omega

theorem frameOverruns_trap (hf : arena.Fits)
    (h : FrameOverruns arena length) : frameBegin arena length = none := by
  rw [frameBegin_eq_none]
  rw [Arena.Fits] at hf
  rw [FrameOverruns] at h
  omega

theorem frameEnd_arenaBase (arena : Arena) (saved : Word) :
    (frameEnd arena saved).arenaBase = arena.arenaBase := rfl

theorem frameEnd_arenaLength (arena : Arena) (saved : Word) :
    (frameEnd arena saved).arenaLength = arena.arenaLength := rfl

namespace Nesting

variable {n n' : Nesting}

theorem setArena_level (l k : ℕ) (a : Arena) :
    (n.setArena l a).level k = if k = l then {n.level k with arena := a} else n.level k := by
  simp only [setArena, update_apply]
  split_ifs with h
  · rw [h]
  · rfl

theorem step_request (h : n.step (.request l r) = some n') :
    ∃ address length after, r.length = some length ∧
      Granted (n.arena l) length r.align address after ∧
      n' = n.hold ⟨l,address,length,r.align⟩ after := by
  rw [step, bind_eq_some_iff] at h
  obtain ⟨length,hl,h⟩ := h
  rw [map_eq_some_iff] at h
  obtain ⟨⟨address,after⟩,hb,rfl⟩ := h
  exact ⟨address,length,after,hl,arenaBump_eq_some hb,rfl⟩

theorem step_frameBegin (h : n.step (.frameBegin p length) = some n') :
    ∃ frame parent, frameBegin (n.arena p) length = some (frame, parent) ∧
      n' = n.pushFrame p frame parent := by
  rw [step, map_eq_some_iff] at h
  obtain ⟨⟨frame,parent⟩,hb,rfl⟩ := h
  exact ⟨frame,parent,hb,rfl⟩

end Nesting

section
variable {arena after frame : Arena} {length align address : Word} {x : Word}

theorem bytesFrom_congr (hb : after.arenaBase = arena.arenaBase)
    (hl : after.arenaLength = arena.arenaLength) (o : Word) :
    bytesFrom after o = bytesFrom arena o := by
  rw [bytesFrom, bytesFrom, hb, hl]

theorem bytesFrom_mono {o o' : Word} (h : o.toNat ≤ o'.toNat) :
    bytesFrom arena o' ⊆ bytesFrom arena o := fun _ hx => ⟨le_trans h hx.1,hx.2⟩

theorem inRange_at {b : Word} {o k : ℕ} (hb : b.toNat = arena.arenaBase.toNat+o) (h : o+k ≤ 2^64) :
    InRange x b k ↔ o ≤ (x-arena.arenaBase).toNat ∧ (x-arena.arenaBase).toNat < o+k := by
  have he : b = arena.arenaBase+BitVec.ofNat 64 o := by
    apply eq_of_toNat_eq
    rw [toNat_add, toNat_ofNat, hb]
    omega
  rw [he]
  exact inRange_add_iff h

namespace Granted
variable (h : Granted arena length align address after)
include h

theorem offset_toNat : after.nextOffset.toNat =
    roundUp arena.nextOffset.toNat align.toNat+length.toNat := by
  have := h.inside
  rw [h.after_eq, toNat_ofNat, mod_eq_of_lt (by omega)]

theorem le_roundUp : arena.nextOffset.toNat ≤ roundUp arena.nextOffset.toNat align.toNat :=
  Arenas.le_roundUp _ (pos_of_isPowerOfTwo h.power)

theorem mem_bytes : x ∈ Allocation.bytes ⟨l,address,length,align⟩ ↔
    roundUp arena.nextOffset.toNat align.toNat ≤ (x-arena.arenaBase).toNat ∧
      (x-arena.arenaBase).toNat < roundUp arena.nextOffset.toNat align.toNat+length.toNat := by
  have := h.inside
  show InRange x address length.toNat ↔ _
  exact inRange_at h.address_eq (by omega)

theorem bytes_subset (l : ℕ) :
    Allocation.bytes ⟨l,address,length,align⟩ ⊆ bytesFrom arena arena.nextOffset := by
  intro x hx
  obtain ⟨h1,h2⟩ := h.mem_bytes.mp hx
  exact ⟨le_trans h.le_roundUp h1,lt_of_lt_of_le h2 h.inside⟩

theorem left_subset : bytesFrom after after.nextOffset ⊆ bytesFrom arena arena.nextOffset := by
  rw [bytesFrom_congr (by rw [h.after_eq]) (by rw [h.after_eq])]
  apply bytesFrom_mono
  rw [h.offset_toNat]
  exact le_trans h.le_roundUp (le_add_right _ _)

theorem bytes_left (l : ℕ) :
    Disjoint (Allocation.bytes ⟨l,address,length,align⟩) (bytesFrom after after.nextOffset) := by
  rw [Set.disjoint_left]
  rintro x hx ⟨hy,-⟩
  rw [h.offset_toNat, h.after_eq] at hy
  exact absurd (h.mem_bytes.mp hx).2 (not_lt.mpr hy)

end Granted

theorem mem_frame (h : frameBegin arena length = some (frame, after)) :
    x ∈ bytesFrom frame frame.nextOffset ↔ arena.nextOffset.toNat ≤ (x-arena.arenaBase).toNat ∧
      (x-arena.arenaBase).toNat < arena.nextOffset.toNat+length.toNat := by
  obtain ⟨hin,hb,hl,ho,-,-⟩ := frameBegin_eq_some h
  rw [← inRange_at hb (by omega)]
  show frame.nextOffset.toNat ≤ _ ∧ _ < frame.arenaLength.toNat ↔ _
  rw [ho, hl]
  exact and_iff_right (zero_le _)

end

namespace Nesting
variable {n n' : Nesting} {op : Op} {a : Arena}

def regions (n : Nesting) : Regions.Nest Word where
  depth := n.depth
  parent l := (n.level l).parent
  free l := bytesFrom (n.arena l) (n.arena l).nextOffset
  rest l := bytesFrom (n.arena (n.level l).parent) (n.level l).saved
  live := n.live.map fun a => (a.level, a.bytes)

theorem separated_initial : (initial root).regions.Separated :=
  .single _ rfl rfl

theorem setArena_parent (l d : ℕ) (a : Arena) :
    ((n.setArena l a).level d).parent = (n.level d).parent := by
  rw [setArena_level]
  split_ifs <;> rfl

theorem setArena_saved (l d : ℕ) (a : Arena) :
    ((n.setArena l a).level d).saved = (n.level d).saved := by
  rw [setArena_level]
  split_ifs <;> rfl

theorem setArena_bytesFrom {d : ℕ} (hb : a.arenaBase = (n.arena l).arenaBase)
    (hl : a.arenaLength = (n.arena l).arenaLength) (o : Word) :
    bytesFrom ((n.setArena l a).arena d) o = bytesFrom (n.arena d) o := by
  rw [arena, setArena_level]
  split_ifs with h
  · rw [h]
    exact bytesFrom_congr hb hl o
  · rfl

section
variable (hs : n.regions.Separated)
include hs

theorem separated_request (hl : l ≤ n.depth) (hd : n.Disciplined (.request l r))
    (h : n.step (.request l r) = some n') : n'.regions.Separated := by
  obtain ⟨address,length,after,-,hg,rfl⟩ := step_request h
  have hc : n.regions.Childless l := by
    intro d hd0 (hde : d ≤ n.depth)
    have := hd (d-1) (by omega)
    rwa [Nat.sub_add_cancel hd0] at this
  refine (hs.allocate hl hc (hg.bytes_subset l) hg.left_subset (hg.bytes_left l)).congr rfl rfl
    ?_ ?_ ?_
  · intro d _ _
    exact setArena_parent l d after
  · intro k _
    simp only [regions, Regions.Nest.allocate, update_apply, arena, hold, setArena_level]
    split_ifs <;> rfl
  · intro d _ _
    simp only [regions, Regions.Nest.allocate, hold, arena]
    rw [setArena_parent, setArena_saved]
    exact setArena_bytesFrom (by rw [hg.after_eq]) (by rw [hg.after_eq]) _

theorem separated_frameBegin (hp : p ≤ n.depth)
    (h : n.step (.frameBegin p length) = some n') : n'.regions.Separated := by
  obtain ⟨frame,after,hb,rfl⟩ := step_frameBegin h
  obtain ⟨hin,-,-,-,hafter,ho⟩ := frameBegin_eq_some hb
  have hleft : bytesFrom after after.nextOffset ⊆ n.regions.free p := by
    rw [bytesFrom_congr (by rw [hafter]) (by rw [hafter])]
    apply bytesFrom_mono
    rw [hafter, ho]
    exact le_add_right _ _
  have hinside : bytesFrom frame frame.nextOffset ⊆ n.regions.free p := by
    intro x hx
    obtain ⟨h1,h2⟩ := (mem_frame hb).mp hx
    exact ⟨h1,lt_of_lt_of_le h2 hin⟩
  have hdis : Disjoint (bytesFrom frame frame.nextOffset) (bytesFrom after after.nextOffset) := by
    rw [Set.disjoint_left]
    rintro x hx ⟨hy,-⟩
    rw [hafter, ho] at hy
    exact absurd ((mem_frame hb).mp hx).2 (not_lt.mpr hy)
  refine (hs.push hp hinside hleft hdis).congr rfl rfl ?_ ?_ ?_
  · intro d _ _
    simp only [regions, Regions.Nest.push, pushFrame, update_apply]
    split_ifs
    · rfl
    · exact setArena_parent p d after
  · intro k hk
    simp only [regions, Regions.Nest.push, pushFrame, update_apply, arena, setArena_level]
    split_ifs <;> rfl
  · intro d hd0 hd
    -- the arena a frame was opened from is below it, so it is not the new one
    have hlow : ∀ q < n.depth+1, ∀ o, bytesFrom (update (n.setArena p after).level
        (n.depth+1) ⟨frame,p,(n.arena p).nextOffset⟩ q).arena o = bytesFrom (n.arena q) o := by
      intro q hq o
      rw [update_of_ne hq.ne]
      exact setArena_bytesFrom (by rw [hafter]) (by rw [hafter]) o
    simp only [regions, Regions.Nest.push, pushFrame, arena]
    by_cases hdn : d = n.depth+1
    · subst hdn
      rw [update_self, update_self]
      exact hlow p (lt_succ_of_le hp) _
    · have hde : d ≤ n.depth := le_of_lt_succ (lt_of_le_of_ne hd hdn)
      rw [update_of_ne hdn, update_of_ne hdn, setArena_parent, setArena_saved]
      exact hlow _ (lt_of_lt_of_le (hs.parent_lt d hd0 hde) (le_succ_of_le hde)) _

theorem separated_frameEnd (h0 : 0 < n.depth) (hd : n.Disciplined (.frameEnd p))
    (h : n.step (.frameEnd p) = some n') : n'.regions.Separated := by
  rw [step, some.injEq] at h
  subst h
  have hp : p = (n.level n.depth).parent := hd
  refine (hs.pop h0).congr rfl ?_ ?_ ?_ ?_
  · simp only [regions, Regions.Nest.pop, popFrame, List.filter_map]
    rfl
  · intro d _ _
    exact setArena_parent p d _
  · intro k _
    simp only [regions, Regions.Nest.pop, popFrame, update_apply, arena, setArena_level, ← hp]
    split_ifs with hk
    · rw [hk]
      rfl
    · rfl
  · intro d _ _
    simp only [regions, Regions.Nest.pop, popFrame, arena]
    rw [setArena_parent, setArena_saved]
    exact setArena_bytesFrom (frameEnd_arenaBase _ _) (frameEnd_arenaLength _ _) _

theorem separated_step (ha : n.Admitted op) (hd : n.Disciplined op)
    (h : n.step op = some n') : n'.regions.Separated := by
  cases op with
  | frameBegin p length => exact separated_frameBegin hs ha h
  | frameEnd p => exact separated_frameEnd hs ha.2 hd h
  | request l r => exact separated_request hs ha hd h

end

/-- Allocations are held from open levels and lie inside their arenas, and all
arenas end inside the address space. -/
structure Contained (n : Nesting) : Prop where
  level_le : ∀ a ∈ n.live, a.level ≤ n.depth
  inside : ∀ a ∈ n.live, a.Inside (n.arena a.level)
  fits : ∀ l ≤ n.depth, (n.arena l).Fits

theorem contained_initial {root : Arena} (h : root.Fits) : (initial root).Contained where
  level_le a ha := by cases ha
  inside a ha := by cases ha
  fits _ _ := h

theorem Contained.of_extent (h : n.Contained) (hle : n'.depth ≤ n.depth)
    (hlive : ∀ a ∈ n'.live, a ∈ n.live ∧ a.level ≤ n'.depth)
    (hext : ∀ l, (n'.arena l).arenaBase = (n.arena l).arenaBase ∧
      (n'.arena l).arenaLength = (n.arena l).arenaLength) : n'.Contained where
  level_le a ha := (hlive a ha).2
  inside a ha := by
    rw [Allocation.Inside, (hext _).1, (hext _).2]
    exact h.inside a (hlive a ha).1
  fits l hl := by
    rw [Arena.Fits, (hext l).1, (hext l).2]
    exact h.fits l (hl.trans hle)

theorem setArena_extent (hb : a.arenaBase = (n.arena l).arenaBase)
    (hl : a.arenaLength = (n.arena l).arenaLength) (k : ℕ) :
    ((n.setArena l a).arena k).arenaBase = (n.arena k).arenaBase ∧
      ((n.setArena l a).arena k).arenaLength = (n.arena k).arenaLength := by
  rw [arena, setArena_level]
  split_ifs with h
  · rw [h]
    exact ⟨hb,hl⟩
  · exact ⟨rfl,rfl⟩

theorem contained_step (hc : n.Contained) (ha : n.Admitted op) (h : n.step op = some n') :
    n'.Contained := by
  cases op with
  | frameBegin p length =>
    obtain ⟨frame,after,hb,rfl⟩ := step_frameBegin h
    obtain ⟨hin,hbase,hlen,-,hafter,-⟩ := frameBegin_eq_some hb
    have hc' : (n.setArena p after).Contained :=
      hc.of_extent le_rfl (fun a hm => ⟨hm,hc.level_le a hm⟩)
        (setArena_extent (by rw [hafter]) (by rw [hafter]))
    refine ⟨fun a hm => le_succ_of_le (hc.level_le a hm),fun a hm => ?_,fun l hl => ?_⟩
    · have hne : a.level ≠ n.depth+1 := (lt_succ_of_le (hc.level_le a hm)).ne
      simp only [arena, pushFrame, update_of_ne hne]
      exact hc'.inside a hm
    · by_cases hln : l = n.depth+1
      · have := hc.fits p ha
        rw [Arena.Fits] at this ⊢
        simp only [arena, pushFrame, hln, update_self, hbase, hlen]
        rw [arena] at this hin
        omega
      · simp only [arena, pushFrame, update_of_ne hln]
        exact hc'.fits l (le_of_lt_succ (lt_of_le_of_ne hl hln))
  | frameEnd p =>
    rw [step, some.injEq] at h
    subst h
    refine hc.of_extent (sub_le _ _) (fun a hm => ?_)
      (setArena_extent (frameEnd_arenaBase _ _) (frameEnd_arenaLength _ _))
    simp only [popFrame, List.mem_filter, decide_eq_true_eq] at hm
    have := hc.level_le a hm.1
    exact ⟨hm.1,show a.level ≤ n.depth-1 by omega⟩
  | request l r =>
    obtain ⟨address,length,after,-,hg,rfl⟩ := step_request h
    have hext := setArena_extent (show after.arenaBase = (n.arena l).arenaBase by rw [hg.after_eq])
      (show after.arenaLength = (n.arena l).arenaLength by rw [hg.after_eq])
    have hc' : (n.setArena l after).Contained :=
      hc.of_extent le_rfl (fun a hm => ⟨hm,hc.level_le a hm⟩) hext
    refine ⟨fun a hm => ?_,fun a hm => ?_,hc'.fits⟩
    · rcases List.mem_cons.mp hm with rfl | hm
      · exact ha
      · exact hc.level_le a hm
    · rcases List.mem_cons.mp hm with rfl | hm
      · have hin := hg.inside
        have haddr := hg.address_eq
        show ((n.setArena l after).arena l).arenaBase.toNat ≤ address.toNat ∧
          address.toNat+length.toNat ≤ ((n.setArena l after).arena l).arenaBase.toNat+
            ((n.setArena l after).arena l).arenaLength.toNat
        rw [(hext l).1, (hext l).2]
        omega
      · exact hc'.inside a hm

def Based (n : Nesting) : Prop :=
  ∀ d, 0 < d → d ≤ n.depth → (n.level d).parent < d ∧
    (n.arena d).arenaBase = (n.arena (n.level d).parent).arenaBase+(n.level d).saved

theorem based_initial : (initial root).Based := fun _ h0 hd =>
  absurd h0 (not_lt.mpr hd)

theorem Based.setArena (h : n.Based) (hb : a.arenaBase = (n.arena l).arenaBase)
    (hl : a.arenaLength = (n.arena l).arenaLength) : (n.setArena l a).Based := by
  intro d h0 hd
  rw [setArena_parent, setArena_saved, (setArena_extent hb hl _).1, (setArena_extent hb hl _).1]
  exact h d h0 hd

theorem based_step (hb : n.Based) (ha : n.Admitted op) (h : n.step op = some n') : n'.Based := by
  cases op with
  | frameBegin p length =>
    obtain ⟨frame,after,hf,rfl⟩ := step_frameBegin h
    obtain ⟨-,hbase,-,-,hafter,-⟩ := frameBegin_eq_some hf
    have hp : p ≤ n.depth := ha
    have hext := setArena_extent (show after.arenaBase = (n.arena p).arenaBase by rw [hafter])
      (show after.arenaLength = (n.arena p).arenaLength by rw [hafter])
    have hb' := hb.setArena (show after.arenaBase = (n.arena p).arenaBase by rw [hafter])
      (show after.arenaLength = (n.arena p).arenaLength by rw [hafter])
    have hlow : ∀ q < n.depth+1, (n.pushFrame p frame after).level q = (n.setArena p after).level q :=
      fun q hq => update_of_ne hq.ne _ _
    intro d h0 hd
    by_cases hdn : d = n.depth+1
    · have htop : (n.pushFrame p frame after).level d = ⟨frame,p,(n.arena p).nextOffset⟩ := by
        rw [hdn]
        exact update_self _ _ _
      rw [arena, arena, htop]
      refine ⟨by simp only; omega,?_⟩
      simp only [hlow p (lt_succ_of_le hp)]
      rw [show ((n.setArena p after).level p).arena = (n.setArena p after).arena p from rfl,
        (hext p).1]
      apply eq_of_toNat_eq
      rw [toNat_add, hbase, mod_eq_of_lt (by omega)]
    · have hde : d < n.depth+1 := lt_of_le_of_ne hd hdn
      obtain ⟨h1,h2⟩ := hb' d h0 (le_of_lt_succ hde)
      rw [arena, arena, hlow d hde, hlow _ (h1.trans hde)]
      exact ⟨h1,h2⟩
  | frameEnd p =>
    rw [step, some.injEq] at h
    subst h
    intro d h0 hd
    exact hb.setArena (frameEnd_arenaBase _ _) (frameEnd_arenaLength _ _) d h0
      (hd.trans (sub_le _ _))
  | request l r =>
    obtain ⟨address,length,after,-,hg,rfl⟩ := step_request h
    exact hb.setArena (by rw [hg.after_eq]) (by rw [hg.after_eq])

/-- A granted request is aligned when its arena's base is, since only the
offset is rounded. -/
theorem aligned_step (h : n.step (.request l r) = some n') :
    ∃ a, n'.live = a::n.live ∧
      (r.align.toNat ∣ a.address.toNat ↔ r.align.toNat ∣ (n.arena l).arenaBase.toNat) := by
  obtain ⟨address,length,after,-,hg,rfl⟩ := step_request h
  refine ⟨_,rfl,?_⟩
  rw [hg.address_eq]
  exact Nat.dvd_add_iff_left (dvd_roundUp _ _) |>.symm

def Grants (ops : List Op) (n : Nesting) (l : ℕ) (r : Request) (n' : Nesting) : Prop :=
  ∃ k, ops[k]? = some (.request l r) ∧
    run (guarded Admitted step) (initial root) (ops.take k) = some n ∧
    n.step (.request l r) = some n'

/-- All allocations of a run are aligned exactly when each is taken from an
arena or a frame whose base is; a frame's base is wherever its parent's offset
stood when it was opened. -/
theorem allocations_aligned_iff (root : Arena) (ops : List Op) :
    ((∀ n l r n', Grants root ops n l r n' →
        ∃ a, n'.live = a::n.live ∧ r.align.toNat ∣ a.address.toNat) ↔
      ∀ n l r n', Grants root ops n l r n' → r.align.toNat ∣ (n.arena l).arenaBase.toNat) ∧
    ∀ n, run (guarded Admitted step) (initial root) ops = some n →
      ∀ d, 0 < d → d ≤ n.depth →
        (n.arena d).arenaBase = (n.arena (n.level d).parent).arenaBase+(n.level d).saved := by
  constructor
  · constructor
    · intro h n l r n' hg
      obtain ⟨a,ha,hal⟩ := h n l r n' hg
      obtain ⟨-,-,-,hs⟩ := hg
      obtain ⟨b,hb,hiff⟩ := aligned_step hs
      rw [ha] at hb
      cases hb
      exact hiff.mp hal
    · intro h n l r n' hg
      have hal := h n l r n' hg
      obtain ⟨-,-,-,hs⟩ := hg
      obtain ⟨a,ha,hiff⟩ := aligned_step hs
      exact ⟨a,ha,hiff.mpr hal⟩
  · intro n hr d h0 hd
    refine (run_invariant (fun m op m' hm hstep => ?_) (based_initial root) ops hr d h0 hd).2
    rw [guarded_eq_some] at hstep
    exact based_step hm hstep.1 hstep.2

/-- A frame opened behind one reserved byte: a request for alignment eight is
granted an odd address. -/
theorem misaligned_in_frame :
    ∃ n n', Grants ⟨0x1000,64,0⟩
        [.request 0 (.reserve 1 1), .frameBegin 0 32, .request 1 (.reserve 8 8)]
        n 1 (.reserve 8 8) n' ∧
      ∃ a, n'.live = a::n.live ∧ a.address = 0x1001 ∧ ¬ 8 ∣ a.address.toNat :=
  ⟨_,_,⟨2,rfl,rfl,rfl⟩,_,rfl,rfl,by decide⟩

end Nesting

end Wrela.Arenas

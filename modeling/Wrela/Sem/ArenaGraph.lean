import Wrela.Arena.Bump
import Wrela.Diag

/-!
# Static placement of arenas

The checker records the arenas that an image creates, with addresses computed modulo
2^64, and reports two siblings whose offset ranges overlap. Calls have literal arguments.
-/

set_option autoImplicit false

namespace Wrela.ArenaGraph
open X86 List

inductive Kind where
  | rootArena | childArena | executorMemory | cacheMemory | dmaBuffer
  deriving DecidableEq

structure ArenaNode where
  label : String
  parent : String
  base : Word
  offset : Word
  bytes : Word
  align : Word
  kind : Kind
  deriving DecidableEq

variable (arenas : List ArenaNode) (a : ArenaNode)

def arenaHasStaticRange : Bool := a.kind ≠ .rootArena

variable (b : ArenaNode)

def arenaRangesOverlap : Bool :=
  if !arenaHasStaticRange a || !arenaHasStaticRange b then false
  else if a.parent = "" ∨ b.parent = "" ∨ a.parent ≠ b.parent then false
  else a.offset < b.offset+b.bytes && b.offset < a.offset+a.bytes

def duplicates (seen : List String) : List ArenaNode → List Diagnostic
  | [] => []
  | a::arenas =>
    if a.label = "" then duplicates seen arenas
    else (if a.label ∈ seen then [⟨.SEM0057,"duplicate arena identity "++a.label⟩] else [])++
      duplicates (a.label::seen) arenas

def overlaps : List ArenaNode → List Diagnostic
  | [] => []
  | a::arenas => (arenas.filter (arenaRangesOverlap a)).map
      (fun _ => ⟨.SEM0058,"statically overlapping arena placement"⟩)++overlaps arenas

def validateArenaGraph : List Diagnostic :=
  duplicates [] arenas++overlaps arenas

def alignArenaOffset (offset align : Word) : Word :=
  if align = 0 then offset else (offset+align-1) &&& (0-align)

structure Origin where
  arenaLabel : String
  arenaBase : Word

inductive Call where
  | createArena (label : String) (base bytes align : Word)
  | childAt (receiver : Origin) (label : String) (offset length align : Word)
  | executorMemory (receiver : Origin) (length align : Word)
  | cacheArena (receiver : Origin) (label : String) (length align : Word)
  | dmaBuffer (receiver : Origin) (label : String) (length align : Word)

variable (receiver : Origin)

def nextImplicitArenaOffset (align : Word) : Word :=
  let next := arenas.foldl (fun next arena =>
    if arena.parent ≠ receiver.arenaLabel ∨ !arenaHasStaticRange arena then next
    else if arena.offset+arena.bytes > next then arena.offset+arena.bytes else next) 0
  alignArenaOffset (receiver.arenaBase+next) align-receiver.arenaBase

def implicitArenaAllocation (label : String) (kind : Kind) (length align : Word) : ArenaNode :=
  let offset := nextImplicitArenaOffset arenas receiver align
  ⟨label,receiver.arenaLabel,receiver.arenaBase+offset,offset,length,align,kind⟩

def recordArenaGraphCall : Call → ArenaNode
  | .createArena label base bytes align => ⟨label,"",base,0,bytes,align,.rootArena⟩
  | .childAt receiver label offset length align =>
    let base := alignArenaOffset (receiver.arenaBase+offset) align
    ⟨label,receiver.arenaLabel,base,base-receiver.arenaBase,length,align,.childArena⟩
  | .executorMemory receiver length align =>
    implicitArenaAllocation arenas receiver "" .executorMemory length align
  | .cacheArena receiver label length align =>
    implicitArenaAllocation arenas receiver label .cacheMemory length align
  | .dmaBuffer receiver label length align =>
    implicitArenaAllocation arenas receiver label .dmaBuffer length align

def graph (calls : List Call) : List ArenaNode :=
  calls.foldl (fun arenas call => arenas++[recordArenaGraphCall arenas call]) []

/-- Static arenas of one parent: its label and its base are the same. -/
def Siblings : Prop :=
  arenaHasStaticRange a ∧ arenaHasStaticRange b ∧ a.parent = b.parent ∧
    a.base-a.offset = b.base-b.offset

def Apart : Prop := ∀ x : ℕ,
  ¬ (a.base.toNat ≤ x ∧ x < a.base.toNat+a.bytes.toNat ∧
    b.base.toNat ≤ x ∧ x < b.base.toNat+b.bytes.toNat)

/-- The bytes that a call can add to the range of its siblings: an explicit offset, the
length, and what the alignment skips. -/
def Call.cost : Call → ℕ
  | .createArena _ _ _ _ => 0
  | .childAt _ _ offset length align => offset.toNat+length.toNat+align.toNat
  | .executorMemory _ length align => length.toNat+align.toNat
  | .cacheArena _ _ length align => length.toNat+align.toNat
  | .dmaBuffer _ _ length align => length.toNat+align.toNat

def cost (calls : List Call) : ℕ := (calls.map Call.cost).sum

/-- The parent has a label, and `total` bytes behind its base are below 2^64. -/
def Origin.Bounded (total : ℕ) (align : Word) : Prop :=
  receiver.arenaLabel ≠ "" ∧ receiver.arenaBase.toNat+total < 2^64 ∧ align.toNat.isPowerOfTwo

def Call.Bounded (total : ℕ) : Call → Prop
  | .createArena _ _ _ _ => True
  | .childAt receiver _ _ _ align => receiver.Bounded total align
  | .executorMemory receiver _ align => receiver.Bounded total align
  | .cacheArena receiver _ _ align => receiver.Bounded total align
  | .dmaBuffer receiver _ _ align => receiver.Bounded total align

/-- A static arena has a parent and ends within `total` bytes behind its base. -/
def Within (total : ℕ) : Prop :=
  arenaHasStaticRange a → a.parent ≠ "" ∧ a.offset.toNat+a.bytes.toNat ≤ total

theorem apart_of_within {a b : ArenaNode} {total : ℕ} (htotal : total < 2^64)
    (ha : Within a total) (hb : Within b total) (hs : Siblings a b)
    (h : arenaRangesOverlap a b = false) : Apart a b := by
  obtain ⟨hsa,hsb,hp,hbase⟩ := hs
  obtain ⟨hl,hwa⟩ := ha hsa
  obtain ⟨hlb,hwb⟩ := hb hsb
  simp [arenaRangesOverlap, hsa, hsb, hlb, hp] at h
  intro x hx
  bv_omega

theorem alignArenaOffset_sub (offset : Word) {total : ℕ} {align : Word}
    (hr : receiver.Bounded total align) (h : offset.toNat+align.toNat ≤ total) :
    (alignArenaOffset (receiver.arenaBase+offset) align-receiver.arenaBase).toNat <
      offset.toNat+align.toNat := by
  obtain ⟨-,hbase,k,hk⟩ := hr
  have hpos : 0 < align.toNat := hk ▸ Nat.two_pow_pos k
  have h0 : align ≠ 0 := fun h0 => Nat.ne_of_gt hpos (by rw [h0]; rfl)
  have hsum : (receiver.arenaBase+offset+align-1).toNat =
      receiver.arenaBase.toNat+offset.toNat+(align.toNat-1) := by bv_omega
  have hround := Arenas.le_roundUp (receiver.arenaBase.toNat+offset.toNat) hpos
  have hle := Nat.div_mul_le_self (receiver.arenaBase.toNat+offset.toNat+(align.toNat-1)) align.toNat
  rw [Arenas.roundUp] at hround
  rw [alignArenaOffset, if_neg h0, show 0-align = -align from BitVec.zero_sub align]
  have hand := Arenas.and_neg_power (receiver.arenaBase+offset+align-1) hk
  rw [hsum, ← hk] at hand
  bv_omega

theorem nextEnd_le {c : ℕ} (h : ∀ a ∈ arenas, Within a c) {next : Word}
    (hnext : next.toNat ≤ c) :
    (arenas.foldl (fun next arena =>
      if arena.parent ≠ receiver.arenaLabel ∨ !arenaHasStaticRange arena then next
      else if arena.offset+arena.bytes > next then arena.offset+arena.bytes else next)
        next).toNat ≤ c := by
  induction arenas generalizing next with
  | nil => exact hnext
  | cons a arenas ih =>
    refine ih (fun b hb => h b (mem_cons_of_mem _ hb)) ?_
    dsimp only
    split
    · exact hnext
    · next hskip =>
      have hstatic : arenaHasStaticRange a := by simpa using (not_or.mp hskip).2
      have hend := (h a mem_cons_self hstatic).2
      split
      · bv_omega
      · exact hnext

theorem implicitArenaAllocation_within {c total : ℕ} (h : ∀ a ∈ arenas, Within a c)
    {length align : Word} (hr : receiver.Bounded total align)
    (hc : c+(length.toNat+align.toNat) ≤ total) (label : String) (kind : Kind) :
    Within (implicitArenaAllocation arenas receiver label kind length align)
      (c+(length.toNat+align.toNat)) := by
  intro _
  have hbase := hr.2.1
  have hnext := nextEnd_le arenas receiver h (show (0 : Word).toNat ≤ c from Nat.zero_le _)
  have hoffset := alignArenaOffset_sub receiver _ hr (Nat.le_trans (Nat.add_le_add_right hnext _)
    (by omega))
  refine ⟨hr.1,?_⟩
  change (nextImplicitArenaOffset arenas receiver align).toNat+length.toNat ≤ _
  rw [nextImplicitArenaOffset]
  omega

theorem recordArenaGraphCall_within {c total : ℕ} (h : ∀ a ∈ arenas, Within a c) {call : Call}
    (hcall : call.Bounded total) (hc : c+call.cost ≤ total) :
    Within (recordArenaGraphCall arenas call) (c+call.cost) := by
  cases call with
  | createArena => exact fun hs => by cases hs
  | childAt receiver label offset length align =>
    intro _
    rw [Call.cost] at hc ⊢
    have hoffset := alignArenaOffset_sub receiver offset hcall (by omega)
    refine ⟨hcall.1,?_⟩
    change (alignArenaOffset (receiver.arenaBase+offset) align-receiver.arenaBase).toNat+
      length.toNat ≤ _
    omega
  | executorMemory | cacheArena | dmaBuffer =>
    exact implicitArenaAllocation_within arenas _ h hcall hc _ _

theorem graph_within (calls : List Call) (hcalls : ∀ call ∈ calls, call.Bounded (cost calls)) :
    ∀ a ∈ graph calls, Within a (cost calls) := by
  -- the calls so far have spent `c` of the total
  have run : ∀ (rest : List Call) (arenas : List ArenaNode) (c : ℕ),
      (∀ call ∈ rest, call.Bounded (cost calls)) → c+cost rest = cost calls →
      (∀ a ∈ arenas, Within a c) → ∀ a ∈ rest.foldl
        (fun arenas call => arenas++[recordArenaGraphCall arenas call]) arenas,
        Within a (cost calls) := by
    intro rest
    induction rest with
    | nil =>
      intro arenas c _ hc h
      exact (show c = cost calls from hc) ▸ h
    | cons call rest ih =>
      intro arenas c hb hc h
      rw [cost, map_cons, sum_cons] at hc
      have hc : c+call.cost+cost rest = cost calls := by rw [← hc, cost, Nat.add_assoc]
      refine ih _ (c+call.cost) (fun d hd => hb d (mem_cons_of_mem _ hd)) hc fun a ha => ?_
      rcases mem_append.mp ha with ha | ha
      · intro hs
        obtain ⟨hp,hle⟩ := h a ha hs
        exact ⟨hp,by omega⟩
      · rw [mem_singleton.mp ha]
        exact recordArenaGraphCall_within arenas h (hb call mem_cons_self) (by omega)
  exact run calls [] 0 hcalls (Nat.zero_add _) fun _ h => absurd h not_mem_nil

theorem overlaps_nil {arenas : List ArenaNode} (h : overlaps arenas = []) :
    arenas.Pairwise fun a b => arenaRangesOverlap a b = false := by
  induction arenas with
  | nil => exact .nil
  | cons a arenas ih =>
    simp only [overlaps, append_eq_nil_iff, map_eq_nil_iff, filter_eq_nil_iff,
      Bool.not_eq_true] at h
    exact .cons h.1 (ih h.2)

theorem alignArenaOffset_dvd (offset : Word) {align : Word} (h : align.toNat.isPowerOfTwo) :
    align.toNat ∣ (alignArenaOffset offset align).toNat := by
  obtain ⟨k,hk⟩ := h
  have h0 : align ≠ 0 := fun h0 => (Nat.two_pow_pos k).ne' (by rw [← hk, h0]; rfl)
  rw [alignArenaOffset, if_neg h0, show 0-align = -align from BitVec.zero_sub align,
    Arenas.and_neg_power _ hk, hk]
  exact Nat.dvd_mul_left _ _

def Aligned : Prop :=
  arenaHasStaticRange a → a.align.toNat.isPowerOfTwo → a.align.toNat ∣ a.base.toNat

theorem implicitArenaAllocation_aligned (label : String) (kind : Kind) (length align : Word) :
    Aligned (implicitArenaAllocation arenas receiver label kind length align) := by
  intro _ hp
  have hb : (implicitArenaAllocation arenas receiver label kind length align).base =
      alignArenaOffset _ align := (BitVec.add_comm _ _).trans (BitVec.sub_add_cancel _ _)
  rw [hb]
  exact alignArenaOffset_dvd _ hp

theorem recordArenaGraphCall_aligned (call : Call) :
    Aligned (recordArenaGraphCall arenas call) := by
  cases call with
  | createArena => exact fun hs => by cases hs
  | childAt => exact fun _ hp => alignArenaOffset_dvd _ hp
  | executorMemory | cacheArena | dmaBuffer => exact implicitArenaAllocation_aligned _ _ _ _ _ _

theorem graph_aligned (calls : List Call) : ∀ a ∈ graph calls, Aligned a := by
  have run : ∀ arenas : List ArenaNode, (∀ a ∈ arenas, Aligned a) → ∀ a ∈ calls.foldl
      (fun arenas call => arenas++[recordArenaGraphCall arenas call]) arenas, Aligned a := by
    induction calls with
    | nil => exact fun _ h => h
    | cons call calls ih =>
      refine fun arenas h => ih _ fun a ha => ?_
      rcases mem_append.mp ha with ha | ha
      · exact h a ha
      · exact mem_singleton.mp ha ▸ recordArenaGraphCall_aligned arenas call
  exact run [] fun _ h => absurd h not_mem_nil

/-- A child behind an executor's memory, and a buffer behind both. -/
def placedCalls : List Call :=
  [.createArena "root" 4096 65536 4096, .executorMemory ⟨"root",4096⟩ 8192 4096,
    .childAt ⟨"root",4096⟩ "log" 12288 4096 4096, .dmaBuffer ⟨"root",4096⟩ "dma" 512 64]

end Wrela.ArenaGraph

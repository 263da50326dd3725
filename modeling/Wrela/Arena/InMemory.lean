import Wrela.Arena.Frames
import Wrela.Codegen.ArenaRequests

/-!
# Arenas and frames in memory

Where the objects of open arenas lie and where frames keep the offsets they
saved. Emitted code that runs on such a memory takes the step of the nesting,
or stops where the step traps.
-/

set_option autoImplicit false

namespace Wrela.Arenas
open X86 Transition Codegen Option Function

structure Place where
  object : ℕ → Word
  save : ℕ → Word

def Place.Occupied (pl : Place) (depth : ℕ) (x : Word) : Prop :=
  (∃ l ≤ depth, InRange x (pl.object l) 24) ∨ ∃ d, 0 < d ∧ d ≤ depth ∧ InRange x (pl.save d) 8

structure Place.Apart (pl : Place) (depth : ℕ) : Prop where
  objects : ∀ l ≤ depth, ∀ k ≤ depth, l ≠ k → X86.Disjoint (pl.object l) 24 (pl.object k) 24
  saves : ∀ d, 0 < d → d ≤ depth → ∀ l ≤ depth, X86.Disjoint (pl.save d) 8 (pl.object l) 24

theorem Place.Apart.mono {pl : Place} {depth k : ℕ} (h : pl.Apart depth) (hk : k ≤ depth) :
    pl.Apart k :=
  ⟨fun l hl j hj => h.objects l (hl.trans hk) j (hj.trans hk),
    fun d h0 hd l hl => h.saves d h0 (hd.trans hk) l (hl.trans hk)⟩

def Place.Clear (pl : Place) (depth : ℕ) (a : Word) (k : ℕ) : Prop :=
  ∀ x, pl.Occupied depth x → ¬ InRange x a k

structure Realises (pl : Place) (m : Mem) (n : Nesting) : Prop where
  reads : ∀ l ≤ n.depth, Reads m (pl.object l) (n.arena l)
  saved : ∀ d, 0 < d → d ≤ n.depth → load m (pl.save d) 8 = (n.level d).saved

namespace Realises
variable {pl : Place} {m m' : Mem} {n : Nesting}

theorem frame (h : Realises pl m n) (he : ∀ x, pl.Occupied n.depth x → m' x = m x) :
    Realises pl m' n where
  reads l hl := (h.reads l hl).frame fun x hx => he x (.inl ⟨l,hl,hx⟩)
  saved d h0 hd := (load_frame fun x hx => he x (.inr ⟨d,h0,hd,hx⟩)).trans (h.saved d h0 hd)

theorem store_offset (h : Realises pl m n) (ha : pl.Apart n.depth) {l : ℕ} (hl : l ≤ n.depth)
    (o : Word) :
    Realises pl (store m (pl.object l+16) 8 o) (n.setArena l {n.arena l with nextOffset := o}) where
  reads k hk := by
    rw [Nesting.arena, Nesting.setArena_level]
    split_ifs with hkl
    · rw [hkl]
      exact (h.reads l hl).store_offset o
    · refine (h.reads k hk).frame fun x hx => store_outside fun hy => ?_
      exact ha.objects k hk l hl hkl x hx (InRange.shift (k := 16) hy (by decide))
  saved d h0 hd := by
    rw [Nesting.setArena_saved, ← h.saved d h0 hd]
    refine load_store_other fun x hx hy => ?_
    exact ha.saves d h0 hd l hl x hx (InRange.shift (k := 16) hy (by decide))

end Realises

def Held (pl : Place) (m : Mem) (n : Nesting) : Prop := Realises pl m n ∧ pl.Apart n.depth

/-- Code of a request, with the arena value it asks and the words its operands stand for. -/
inductive Emits (frame : Frame) (s : State) : Value → Request → List Instr → Prop
  | reserve {op : ArenaReserve} {slot objectSlot : ℤ} {code : List Instr}
      (hslot : frame.slots op.id = some slot) (hobject : frame.objectSlots op.id = some objectSlot)
      (h : emitArenaReserve frame op = .ok code) :
      Emits frame s op.arena (.reserve (frame.word s op.length) (frame.word s op.align)) code
  | reserveArray {op : ArenaReserveArray} {slot objectSlot : ℤ} {code : List Instr}
      (hslot : frame.slots op.id = some slot) (hobject : frame.objectSlots op.id = some objectSlot)
      (h : emitArenaReserveArray frame op = .ok code) :
      Emits frame s op.arena
        (.reserveArray op.element (frame.word s op.count) (op.alignWord frame s)) code
  | place {op : ArenaPlace} {slot : ℤ} {code : List Instr} (hslot : frame.slots op.id = some slot)
      (h : emitArenaPlace frame op = .ok code) : Emits frame s op.arena (.place op.type) code

section
variable {frame : Frame} {s : State} {value : Value} {r : Request} {code : List Instr} {arena : Arena}

theorem Emits.stop (h : Emits frame s value r code) (hh : value.type.isHandleType)
    (hr : Reads s.mem (frame.handle s value) arena) (hn : r.serve arena = none) :
    ∃ t, outcome s code = .error t ∧ t.mem = s.mem := by
  cases h with
  | reserve hslot hobject h =>
    have hs := serves_emitArenaReserve hslot hobject hh h hr
    rw [hn] at hs
    exact hs
  | reserveArray hslot hobject h =>
    have hs := serves_emitArenaReserveArray hslot hobject hh h hr
    rw [hn] at hs
    exact hs
  | place hslot h =>
    rw [emitArenaPlace, hslot] at h
    obtain ⟨address,ha,h⟩ := bind_eq_ok h
    obtain ⟨fields,-,h⟩ := bind_eq_ok h
    cases h
    have hs := serves_emitPlaceAddress hh ha hr
    rw [hn] at hs
    obtain ⟨t,he,hm⟩ := hs
    exact ⟨t,outcome_append_error he _,hm⟩

end

section
variable {pl : Place} {n : Nesting} {frame : Frame} {s : State} {code : List Instr}
  {l : ℕ} {slot objectSlot : ℤ} {frameSaves : ℕ → Option FrameSave} {p : ℕ} {save : FrameSave}
  {x : Word}

/-- The slots that hold the result of a request are not part of the arenas' state. -/
structure ResultClear (pl : Place) (depth : ℕ) (s : State) (slot objectSlot : ℤ) : Prop where
  address : pl.Clear depth (s.address .rbp (disp32 objectSlot)) 8
  second : pl.Clear depth (s.address .rbp (disp32 (objectSlot+8))) 8
  handle : pl.Clear depth (s.address .rbp (disp32 slot)) 8

theorem returned_clear {p word : Word} {b : Word × Arena} {t : State}
    (hc : ResultClear pl n.depth s slot objectSlot) (h : Returned s p slot objectSlot word b t)
    (x : Word) (hx : pl.Occupied n.depth x) : t.mem x = store s.mem (p+16) 8 b.2.nextOffset x := by
  rw [h.mem, sliceMem, store_outside (hc.handle x hx), store_outside (hc.second x hx),
    store_outside (hc.address x hx)]

section
variable (h : Realises pl s.mem n) (ha : pl.Apart n.depth) (hl : l ≤ n.depth)
include h ha hl

/-- Code that serves a request and otherwise keeps clear of the arenas' state
takes the step of the nesting. -/
theorem realises_request {Done : Word × Arena → State → Prop} {r : Request} {p : Word}
    (hp : p = pl.object l)
    (hs : Reads s.mem p (n.arena l) → Serves s s.mem code (r.serve (n.arena l)) Done)
    (hd : ∀ b t, Done b t → ∀ x, pl.Occupied n.depth x →
      t.mem x = store s.mem (p+16) 8 b.2.nextOffset x) :
    Serves s s.mem code (n.step (.request l r)) fun n' t => Held pl t.mem n' := by
  subst hp
  have hs := hs (h.reads l hl)
  rw [Request.serve] at hs
  rw [Nesting.step]
  cases hlen : r.length with
  | none =>
    rw [hlen] at hs
    exact hs
  | some length =>
    rw [hlen, bind_some] at hs
    rw [bind_some]
    cases hb : arenaBump (n.arena l) length r.align with
    | none =>
      rw [hb] at hs
      exact hs
    | some b =>
      rw [hb] at hs
      obtain ⟨t,ht,hdone⟩ := hs
      refine ⟨t,ht,?_⟩
      have hafter : b.2 = {n.arena l with nextOffset := b.2.nextOffset} := by
        rw [(arenaBump_eq_some hb).after_eq]
      have hr := (h.store_offset ha hl b.2.nextOffset).frame (hd b t hdone)
      rw [← hafter] at hr
      exact ⟨⟨hr.reads,hr.saved⟩,ha⟩

end

/-- The slots of a frame that is opened: new to the arenas' state and apart
from each other, the object in three consecutive words. -/
structure FrameClear (pl : Place) (depth : ℕ) (s : State) (saveSlot slot objectSlot : ℤ) :
    Prop where
  save : pl.Clear depth (s.address .rbp (disp32 saveSlot)) 8
  object : pl.Clear depth (s.address .rbp (disp32 objectSlot)) 24
  handle : pl.Clear depth (s.address .rbp (disp32 slot)) 8
  second : s.address .rbp (disp32 (objectSlot+8)) = s.address .rbp (disp32 objectSlot)+8
  third : s.address .rbp (disp32 (objectSlot+16)) = s.address .rbp (disp32 objectSlot)+16
  save_object : X86.Disjoint (s.address .rbp (disp32 saveSlot)) 8
    (s.address .rbp (disp32 objectSlot)) 24
  save_handle : X86.Disjoint (s.address .rbp (disp32 saveSlot)) 8 (s.address .rbp (disp32 slot)) 8
  object_handle : X86.Disjoint (s.address .rbp (disp32 objectSlot)) 24
    (s.address .rbp (disp32 slot)) 8

def Place.push (pl : Place) (depth : ℕ) (object save : Word) : Place :=
  ⟨update pl.object (depth+1) object,update pl.save (depth+1) save⟩

theorem outside_offset (hl : l ≤ n.depth) (hx : ¬ pl.Occupied n.depth x) :
    ¬ InRange x (pl.object l+16) 8 :=
  fun hy => hx (.inl ⟨l,hl,InRange.shift (k := 16) hy (by decide)⟩)

theorem outside_object {a : Word} (hx : ¬ InRange x a 24) :
    ¬ InRange x a 8 ∧ ¬ InRange x (a+8) 8 ∧ ¬ InRange x (a+16) 8 :=
  ⟨fun hy => hx (hy.mono (by decide)),fun hy => hx (InRange.shift (k := 8) hy (by decide)),
    fun hy => hx (InRange.shift (k := 16) hy (by decide))⟩

theorem realises_pushFrame {m : Mem} {save slot objectSlot : ℤ} {opened parent : Arena}
    (h : Realises pl m n) (ha : pl.Apart n.depth) (hp : p ≤ n.depth)
    (hc : FrameClear pl n.depth s save slot objectSlot)
    (hsaved : load m (s.address .rbp (disp32 save)) 8 = (n.arena p).nextOffset)
    (hafter : parent = {n.arena p with nextOffset := parent.nextOffset}) :
    Realises (pl.push n.depth (s.address .rbp (disp32 objectSlot)) (s.address .rbp (disp32 save)))
      (frameMem s m (pl.object p) slot objectSlot opened parent.nextOffset)
      (n.pushFrame p opened parent) := by
  have hold : Realises pl (frameMem s m (pl.object p) slot objectSlot opened parent.nextOffset)
      (n.setArena p parent) := by
    have hr := h.store_offset ha hp parent.nextOffset
    rw [← hafter] at hr
    refine hr.frame fun x hx => ?_
    obtain ⟨h1,h2,h3⟩ := outside_object (hc.object x hx)
    rw [frameMem, hc.second, hc.third, store_outside (hc.handle x hx)]
    by_cases hin : InRange x (pl.object p+16) 8
    · rw [store, if_pos hin, store, if_pos hin]
    · rw [store_outside hin, store_outside hin, store_outside h3, store_outside h2,
        store_outside h1]
  constructor
  case reads =>
    intro l hl
    by_cases hln : l = n.depth+1
    · subst hln
      have hr := reads_stored m (s.address .rbp (disp32 objectSlot)) opened
      simp only [Place.push, Nesting.arena, Nesting.pushFrame, update_self]
      refine hr.frame fun x hx => ?_
      rw [frameMem, hc.second, hc.third, store_outside (hc.object_handle x hx),
        store_outside (outside_offset hp fun ho => hc.object x ho hx)]
    · simp only [Place.push, Nesting.arena, Nesting.pushFrame, update_of_ne hln]
      exact hold.reads l (Nat.le_of_lt_succ (lt_of_le_of_ne hl hln))
  case saved =>
    intro d h0 hd
    by_cases hdn : d = n.depth+1
    · subst hdn
      simp only [Place.push, Nesting.pushFrame, update_self]
      rw [← hsaved]
      refine load_frame fun x hx => ?_
      obtain ⟨h1,h2,h3⟩ := outside_object (hc.save_object x hx)
      rw [frameMem, hc.second, hc.third, store_outside (hc.save_handle x hx),
        store_outside (outside_offset hp fun ho => hc.save x ho hx), store_outside h3,
        store_outside h2, store_outside h1]
    · simp only [Place.push, Nesting.pushFrame, update_of_ne hdn]
      exact hold.saved d h0 (Nat.le_of_lt_succ (lt_of_le_of_ne hd hdn))

theorem apart_push {save slot objectSlot : ℤ} (ha : pl.Apart n.depth)
    (hc : FrameClear pl n.depth s save slot objectSlot) :
    (pl.push n.depth (s.address .rbp (disp32 objectSlot)) (s.address .rbp (disp32 save))).Apart
      (n.depth+1) where
  objects l hl k hk hne x hx hy := by
    simp only [Place.push, update_apply] at hx hy
    split_ifs at hx hy with hln hkn hkn
    · exact hne (hln.trans hkn.symm)
    · exact hc.object x (.inl ⟨k,by omega,hy⟩) hx
    · exact hc.object x (.inl ⟨l,by omega,hx⟩) hy
    · exact ha.objects l (by omega) k (by omega) hne x hx hy
  saves d h0 hd l hl x hx hy := by
    simp only [Place.push, update_apply] at hx hy
    split_ifs at hx hy with hdn hln hln
    · exact hc.save_object x hx hy
    · exact hc.save x (.inl ⟨l,by omega,hy⟩) hx
    · exact hc.object x (.inr ⟨d,h0,by omega,hx⟩) hy
    · exact ha.saves d h0 (by omega) l (by omega) x hx hy

end

section
variable (frame : Frame) (frameSaves : ℕ → Option FrameSave)

section
variable (pl : Place) (n : Nesting) (s : State)

/-- The value is a handle of the object of an open arena. -/
structure Open (value : Value) (l : ℕ) : Prop where
  handle : value.type.isHandleType
  level : l ≤ n.depth
  object : frame.handle s value = pl.object l

/-- Emitted code of an operation at the state that runs it, and where the arenas' state lies
behind it. -/
inductive Piece : Op → List Instr → Place → Prop
  | reserve {slot objectSlot : ℤ} {l : ℕ} {code : List Instr} {op : ArenaReserve}
      (hslot : frame.slots op.id = some slot)
      (hobject : frame.objectSlots op.id = some objectSlot) (ho : Open frame pl n s op.arena l)
      (hcode : emitArenaReserve frame op = .ok code)
      (hc : ResultClear pl n.depth s slot objectSlot) :
      Piece (.request l (.reserve (frame.word s op.length) (frame.word s op.align))) code pl
  | reserveArray {slot objectSlot : ℤ} {l : ℕ} {code : List Instr} {op : ArenaReserveArray}
      (hslot : frame.slots op.id = some slot)
      (hobject : frame.objectSlots op.id = some objectSlot) (ho : Open frame pl n s op.arena l)
      (hcode : emitArenaReserveArray frame op = .ok code)
      (hc : ResultClear pl n.depth s slot objectSlot) :
      Piece (.request l (.reserveArray op.element (frame.word s op.count) (op.alignWord frame s)))
        code pl
  | place {l : ℕ} {slot : ℤ} {code : List Instr} {op : ArenaPlace}
      (ho : Open frame pl n s op.arena l)
      (hcode : emitPlaceAddress frame op slot = .ok code)
      (hc : pl.Clear n.depth (s.address .rbp (disp32 slot)) 8) :
      Piece (.request l (.place op.type)) code pl
  | frameBegin {save : FrameSave} {slot objectSlot : ℤ} {p : ℕ} {code : List Instr}
      {op : FrameBegin} (hsave : frameSaves op.id = some save)
      (hslot : frame.slots op.id = some slot) (hobject : frame.objectSlots op.id = some objectSlot)
      (ho : Open frame pl n s op.parent p) (hcode : emitFrameBegin frame frameSaves op = .ok code)
      (hc : FrameClear pl n.depth s save.savedOffsetSlot slot objectSlot) :
      Piece (.frameBegin p (frame.word (s.setMem (savedMem s save (n.arena p))) op.length)) code
        (pl.push n.depth (s.address .rbp (disp32 objectSlot))
          (s.address .rbp (disp32 save.savedOffsetSlot)))
  | frameEnd {save : FrameSave} {p : ℕ} {code : List Instr} {id : ℕ}
      (hsave : frameSaves id = some save) (ho : Open frame pl n s save.parent p)
      (hcode : emitFrameEnd frame frameSaves id = .ok code) (hd : 0 < n.depth)
      (hs : s.address .rbp (disp32 save.savedOffsetSlot) = pl.save n.depth) :
      Piece (.frameEnd p) code pl

end

/-- Code of a run: pieces that each begin where the one before them ended, and between them
code that keeps the arenas' state. -/
inductive Pieces : Place → Nesting → State → List Op → List Instr → Prop
  | nil {pl : Place} {n : Nesting} {s : State} : Pieces pl n s [] []
  | between {pl : Place} {n : Nesting} {s t : State} {ops : List Op} {code rest : List Instr}
      (ht : outcome s code = .ok t) (hkeep : ∀ x, pl.Occupied n.depth x → t.mem x = s.mem x)
      (h : Pieces pl n t ops rest) : Pieces pl n s ops (code++rest)
  | cons {pl : Place} {n : Nesting} {s : State} {op : Op} {code : List Instr} {pl' : Place}
      {ops : List Op} {rest : List Instr} (hop : Piece frame frameSaves pl n s op code pl')
      (h : ∀ n' t, n.step op = some n' → outcome s code = .ok t → Pieces pl' n' t ops rest) :
      Pieces pl n s (op::ops) (code++rest)

end

section
variable {frame : Frame} {frameSaves : ℕ → Option FrameSave} {pl pl' : Place} {n : Nesting}
  {s : State} {op : Op} {ops : List Op} {code : List Instr}

/-- The code takes the step of the nesting, or stops where the step traps. -/
theorem serves_piece (h : Piece frame frameSaves pl n s op code pl') (hn : Held pl s.mem n) :
    ∃ m, Serves s m code (n.step op) fun n' t => Held pl' t.mem n' := by
  obtain ⟨hr,ha⟩ := hn
  cases h with
  | reserve hslot hobject ho hcode hc =>
    exact ⟨_,realises_request hr ha ho.level ho.object
      (serves_emitArenaReserve hslot hobject ho.handle hcode) fun _ _ => returned_clear hc⟩
  | reserveArray hslot hobject ho hcode hc =>
    exact ⟨_,realises_request hr ha ho.level ho.object
      (serves_emitArenaReserveArray hslot hobject ho.handle hcode) fun _ _ => returned_clear hc⟩
  | place ho hcode hc =>
    refine ⟨_,realises_request hr ha ho.level ho.object (serves_emitPlaceAddress ho.handle hcode)
      fun b t ht x hx => ?_⟩
    rw [ht.mem, store_outside (hc x hx)]
  | @frameBegin save slot objectSlot p _ op hsave hslot hobject ho hcode hc =>
    have hm : Realises pl (savedMem s save (n.arena p)) n :=
      hr.frame fun x hx => store_outside (hc.save x hx)
    have hs := serves_emitFrameBegin hsave hslot hobject ho.handle hcode
      (ho.object ▸ hr.reads p ho.level) (ho.object ▸ hm.reads p ho.level)
    rw [ho.object] at hs
    rw [Nesting.step]
    cases hb : frameBegin (n.arena p)
        (frame.word (s.setMem (savedMem s save (n.arena p))) op.length) with
    | none =>
      rw [hb] at hs
      exact ⟨_,hs⟩
    | some b =>
      obtain ⟨opened,parent⟩ := b
      rw [hb] at hs
      obtain ⟨t,ht,hd⟩ := hs
      refine ⟨s.mem,t,ht,?_,apart_push ha hc⟩
      show Realises _ t.mem (n.pushFrame p opened parent)
      rw [hd.mem]
      obtain ⟨-,-,-,-,hafter,-⟩ := frameBegin_eq_some hb
      refine realises_pushFrame hm ha ho.level hc ?_ (by rw [hafter])
      rw [savedMem, load_store _ (by decide), lowBytes_eight]
  | frameEnd hsave ho hcode hd hs =>
    obtain ⟨t,ht,-,hm⟩ := run_emitFrameEnd hsave ho.handle hcode
    have hle : n.depth-1 ≤ n.depth := Nat.sub_le _ _
    refine ⟨s.mem,t,outcome_of_run ht,?_,ha.mono hle⟩
    rw [hm, ho.object, hs, hr.saved n.depth hd le_rfl]
    have hr' := hr.store_offset ha ho.level (n.level n.depth).saved
    exact ⟨fun l hl => hr'.reads l (hl.trans hle),fun d h0 hd => hr'.saved d h0 (hd.trans hle)⟩

/-- The code of a run of arena operations does on memory what the run does on the nesting,
and stops if and only if the run traps. -/
theorem arena_code_refines_nesting (h : Pieces frame frameSaves pl n s ops code)
    (hn : Held pl s.mem n) :
    ∃ m, Serves s m code (run Nesting.step n ops) fun n' t => ∃ pl', Held pl' t.mem n' := by
  induction h with
  | nil => exact ⟨fun _ => 0,_,rfl,_,hn⟩
  | between ht hkeep _ ih =>
    obtain ⟨m,hm⟩ := ih ⟨hn.1.frame hkeep,hn.2⟩
    exact ⟨m,hm.of_outcome_eq (by rw [outcome_append, ht]; rfl)⟩
  | @cons pl n s op code pl' ops rest hop _ ih =>
    obtain ⟨m,hs⟩ := serves_piece hop hn
    rw [Transition.run]
    cases hstep : n.step op with
    | none =>
      rw [hstep] at hs
      obtain ⟨t,ht,hm⟩ := hs
      exact ⟨m,t,outcome_append_error ht _,hm⟩
    | some n' =>
      rw [hstep] at hs
      obtain ⟨t,ht,hn'⟩ := hs
      obtain ⟨m',hm⟩ := ih n' t hstep ht hn'
      exact ⟨m',hm.of_outcome_eq (by rw [outcome_append, ht]; rfl)⟩

/-- The handle of an arena in the first slot below rbp, a frame opened from it in the
next three words, its handle and the offset it saved, and a pointer to what is placed. -/
def nestFrame : Frame where
  slots id := if id = 0 then some (-8) else if id = 1 then some (-40) else some (-56)
  objectSlots id := if id = 1 then some (-32) else none

def arenaValue : Value := ⟨0,.cls [],none⟩

def beginOp : FrameBegin := ⟨1,arenaValue,⟨3,.prim .u64,some 64⟩⟩

def nestSave : FrameSave := ⟨arenaValue,-48⟩

def nestSaves (id : ℕ) : Option FrameSave := if id = 1 then some nestSave else none

def placeOp : ArenaPlace := ⟨2,⟨1,.cls [],none⟩,.data [.prim .u64],[]⟩

/-- The arena lies at 0x8000, with nothing taken. -/
def nestState : State :=
  ⟨fun _ => 0x2000,store (store (store (store (fun _ => 0) 0x1ff8 8 0x8000) 0x8000 8 0x10000)
    (0x8000+8) 8 256) (0x8000+16) 8 0,none⟩

def nestOps : List Op := [.frameBegin 0 64, .request 1 (.place placeOp.type), .frameEnd 0]

theorem clear_of_apart {pl : Place} {depth k : ℕ} {a : Word}
    (hobject : ∀ l ≤ depth, X86.Disjoint (pl.object l) 24 a k)
    (hsave : ∀ d, 0 < d → d ≤ depth → X86.Disjoint (pl.save d) 8 a k) : pl.Clear depth a k := by
  rintro x (⟨l,hl,hx⟩ | ⟨d,h0,hd,hx⟩)
  · exact hobject l hl x hx
  · exact hsave d h0 hd x hx

def nestPlace : Place := ⟨fun _ => 0x8000,fun _ => 0⟩

theorem nest_save : nestSaves beginOp.id = some nestSave := rfl

theorem nest_slot : nestFrame.slots beginOp.id = some (-40) := rfl

theorem nest_objectSlot : nestFrame.objectSlots beginOp.id = some (-32) := rfl

theorem nest_frameClear : FrameClear nestPlace 0 nestState (-48) (-40) (-32) := by
  have hclear (a : Word) (k : ℕ) (h : X86.Apart 0x8000 24 a k) : nestPlace.Clear 0 a k :=
    clear_of_apart (fun _ _ => h.disjoint) (by omega)
  exact ⟨hclear _ _ (by decide),hclear _ _ (by decide),hclear _ _ (by decide),by decide,by decide,
    Apart.disjoint (by decide),Apart.disjoint (by decide),Apart.disjoint (by decide)⟩

/-- What the frame's begin leaves: rbp, the handles of the arena and of the frame, and
the frame. -/
theorem nest_begun {code : List Instr} {t : State}
    (hcode : emitFrameBegin nestFrame nestSaves beginOp = .ok code)
    (ht : outcome nestState code = .ok t) :
    t.reg .rbp = nestState.reg .rbp ∧ load t.mem 0x1ff8 8 = 0x8000 ∧
      load t.mem 0x1fd8 8 = 0x1fe0 ∧ Reads t.mem 0x1fe0 ⟨0x10000,64,0⟩ := by
  have hr : Reads nestState.mem 0x8000 ⟨0x10000,256,0⟩ :=
    reads_stored _ 0x8000 ⟨0x10000,256,0⟩
  have hr' : Reads (savedMem nestState nestSave ⟨0x10000,256,0⟩) 0x8000 ⟨0x10000,256,0⟩ :=
    hr.frame fun x hx => store_outside fun hy => nest_frameClear.save x (.inl ⟨0,le_rfl,hx⟩) hy
  have hhandle : nestFrame.handle nestState arenaValue = 0x8000 := by decide
  have hs := serves_emitFrameBegin nest_save nest_slot nest_objectSlot rfl hcode (hhandle ▸ hr)
    (hhandle ▸ hr')
  obtain ⟨t',ht',hopened⟩ := hs
  obtain rfl : t' = t := Except.ok.inj (ht'.symm.trans ht)
  rw [hopened.mem]
  exact ⟨hopened.rbp,by decide,by decide,by decide,by decide,by decide⟩

theorem arena_code_refines_nesting_frame :
    ∃ beginCode placeCode endCode m, emitFrameBegin nestFrame nestSaves beginOp = .ok beginCode ∧
      emitPlaceAddress nestFrame placeOp (-56) = .ok placeCode ∧
      emitFrameEnd nestFrame nestSaves 1 = .ok endCode ∧
      (run Nesting.step (.initial ⟨0x10000,256,0⟩) nestOps).isSome ∧
      Serves nestState m (beginCode++(placeCode++(endCode++[])))
        (run Nesting.step (.initial ⟨0x10000,256,0⟩) nestOps)
        fun n' t => ∃ pl', Held pl' t.mem n' := by
  obtain ⟨beginCode,hbegin⟩ : ∃ code, emitFrameBegin nestFrame nestSaves beginOp = .ok code :=
    ⟨_,rfl⟩
  obtain ⟨placeCode,hplace⟩ : ∃ code, emitPlaceAddress nestFrame placeOp (-56) = .ok code := ⟨_,rfl⟩
  obtain ⟨endCode,hend⟩ : ∃ code, emitFrameEnd nestFrame nestSaves 1 = .ok code := ⟨_,rfl⟩
  have hheld : Held nestPlace nestState.mem (.initial ⟨0x10000,256,0⟩) :=
    ⟨⟨fun _ _ => reads_stored _ 0x8000 ⟨0x10000,256,0⟩,fun _ h0 hd => absurd h0 hd.not_gt⟩,
      show nestPlace.Apart 0 from ⟨by omega,by omega⟩⟩
  have hpieces : Pieces nestFrame nestSaves nestPlace (.initial ⟨0x10000,256,0⟩) nestState nestOps
      (beginCode++(placeCode++(endCode++[]))) := by
    refine .cons (.frameBegin nest_save nest_slot nest_objectSlot ⟨rfl,le_rfl,by decide⟩ hbegin
      nest_frameClear) fun n₁ t₁ hn₁ ht₁ => ?_
    obtain ⟨hrbp₁,harena,hframe,hreads⟩ := nest_begun hbegin ht₁
    obtain rfl := some.inj hn₁
    have hopen : nestFrame.handle t₁ placeOp.arena = 0x1fe0 := by
      rw [← hframe, show (0x1fd8 : Word) = t₁.address .rbp (disp32 (-40)) by
        rw [State.address, hrbp₁]; decide]
      rfl
    have hslot : t₁.address .rbp (disp32 (-56)) = 0x1fc8 := by
      rw [State.address, hrbp₁]
      decide
    have hplaced : placeOp.arena.type.isHandleType := rfl
    refine .cons (.place ⟨hplaced,Nat.le_refl 1,hopen⟩ hplace ?_) fun n₂ t₂ hn₂ ht₂ => ?_
    · rw [hslot]
      refine clear_of_apart (fun l hl => ?_) fun d h0 hd => ?_
      · have : l = 0 ∨ l = 1 := by
          change l ≤ 1 at hl
          omega
        rcases this with rfl | rfl <;> exact Apart.disjoint (by decide)
      · obtain rfl : d = 1 := by
          change d ≤ 1 at hd
          omega
        exact Apart.disjoint (by decide)
    · rw [← hopen] at hreads
      obtain ⟨t',ht',hplaced⟩ := serves_emitPlaceAddress hplaced hplace hreads
      obtain rfl : t' = t₂ := Except.ok.inj (ht'.symm.trans ht₂)
      obtain rfl := some.inj hn₂
      refine .cons (.frameEnd nest_save ⟨rfl,Nat.zero_le _,?_⟩ hend Nat.one_pos ?_)
        fun _ _ _ _ => .nil
      · have hslot₀ : t'.address .rbp (disp32 (-8)) = 0x1ff8 := by
          rw [State.address, hplaced.rbp, hrbp₁]
          decide
        change load t'.mem (t'.address .rbp (disp32 (-8))) 8 = 0x8000
        rw [hslot₀, hplaced.mem, hslot, hopen, load_store_other (Apart.disjoint (by decide)),
          load_store_other (Apart.disjoint (by decide)), harena]
      · rw [State.address, hplaced.rbp, hrbp₁]
        rfl
  obtain ⟨m,hm⟩ := arena_code_refines_nesting hpieces hheld
  exact ⟨beginCode,placeCode,endCode,m,hbegin,hplace,hend,rfl,hm⟩

end

section
variable {root : Arena} {uses : List Use} {n n' : Nesting} {u : Use}

/-- The arena is named in every use. -/
abbrev disciplinedUse : Nesting → Use → Option Nesting :=
  guarded (fun n u => n.Admitted u.op ∧ u.receiver = .named ∧ n.Disciplined u.op) Nesting.use

theorem use_named (hnamed : u.receiver = .named) : n.use u = n.step u.op := by
  rw [Nesting.use, hnamed]
  exact map_id_apply

theorem separated_run (h : run disciplinedUse (.initial root) uses = some n) :
    n.regions.Separated := by
  refine run_invariant (P := fun m => m.regions.Separated) (fun m op m' hm hstep => ?_)
    (Nesting.separated_initial root) uses h
  obtain ⟨⟨ha,hnamed,hd⟩,hstep⟩ := guarded_eq_some.mp hstep
  rw [use_named hnamed] at hstep
  exact Nesting.separated_step hm ha hd hstep

theorem contained_run (hf : root.Fits) (h : run disciplinedUse (.initial root) uses = some n) :
    n.Contained := by
  refine run_invariant (fun m op m' hm hstep => ?_) (Nesting.contained_initial hf) uses h
  obtain ⟨⟨ha,hnamed,-⟩,hstep⟩ := guarded_eq_some.mp hstep
  rw [use_named hnamed] at hstep
  exact Nesting.contained_step hm ha hstep

/-- In a run that names its arenas, asks no arena while a frame opened from it is open, and ends
every frame into its parent, allocations lie in their arenas and those that are
still held are apart; a request or a frame that does not fit traps, its code
stopping with memory as it was but for the frame's save slot. -/
theorem live_allocations_apart (hf : root.Fits)
    (h : run disciplinedUse (.initial root) uses = some n) :
    (∀ a ∈ n.live, a.level ≤ n.depth ∧ a.Inside (n.arena a.level)) ∧
    (n.live.Pairwise fun a b => Disjoint a.bytes b.bytes) ∧
    (∀ l ≤ n.depth, ∀ r : Request, r.Overruns (n.arena l) →
      n.step (.request l r) = none ∧
      ∀ frame s value code, Emits frame s value r code → value.type.isHandleType →
        Reads s.mem (frame.handle s value) (n.arena l) →
        ∃ t, outcome s code = .error t ∧ t.mem = s.mem) ∧
    ∀ l ≤ n.depth, ∀ length, FrameOverruns (n.arena l) length →
      n.step (.frameBegin l length) = none ∧
      ∀ frame frameSaves s op save slot objectSlot code, frameSaves op.id = some save →
        frame.slots op.id = some slot → frame.objectSlots op.id = some objectSlot →
        op.parent.type.isHandleType → emitFrameBegin frame frameSaves op = .ok code →
        Reads s.mem (frame.handle s op.parent) (n.arena l) →
        Reads (savedMem s save (n.arena l)) (frame.handle s op.parent) (n.arena l) →
        frame.word (s.setMem (savedMem s save (n.arena l))) op.length = length →
        ∃ t, outcome s code = .error t ∧ t.mem = savedMem s save (n.arena l) := by
  have hc := contained_run hf h
  refine ⟨fun a ha => ⟨hc.level_le a ha,hc.inside a ha⟩,?_,fun l hl r hr => ⟨?_,?_⟩,
    fun l hl length hr => ⟨?_,?_⟩⟩
  · have := (separated_run h).apart
    rwa [Nesting.regions, List.pairwise_map] at this
  · have := Request.overruns_trap (hc.fits l hl) hr
    rw [Request.serve, bind_eq_none_iff] at this
    rw [Nesting.step, bind_eq_none_iff]
    intro length hlen
    rw [Nesting.arena] at this
    rw [Nesting.arena, this length hlen, map_none]
  · intro frame s value code he hh hreads
    exact he.stop hh hreads (Request.overruns_trap (hc.fits l hl) hr)
  · rw [Nesting.step, frameOverruns_trap (hc.fits l hl) hr, map_none]
  · intro frame frameSaves s op save slot objectSlot code hsave hslot hobject hh hcode hr1 hr2 hlen
    have hs := serves_emitFrameBegin hsave hslot hobject hh hcode hr1 hr2
    rw [hlen, frameOverruns_trap (hc.fits l hl) hr] at hs
    exact hs

def nestedOps : List Op :=
  [.request 0 (.reserve 5 1), .frameBegin 0 64, .request 1 (.reserve 8 8), .frameBegin 1 16,
    .request 2 (.reserve 16 1), .frameEnd 1, .request 1 (.reserve 4 4)]

def nestedUses : List Use := nestedOps.map (⟨.named,·⟩)

theorem live_allocations_apart_nested :
    ∃ n, run disciplinedUse (.initial ⟨0x1000,256,0⟩) nestedUses = some n ∧
      n.live.length = 3 ∧ n.live.Pairwise fun a b => Disjoint a.bytes b.bytes := by
  have hlen : (run disciplinedUse (.initial ⟨0x1000,256,0⟩) nestedUses).map (·.live.length) =
      some 3 := rfl
  obtain ⟨n,h,hn⟩ := map_eq_some_iff.mp hlen
  have hf : Arena.Fits ⟨0x1000,256,0⟩ :=
    show (0x1000 : Word).toNat+(256 : Word).toNat ≤ 2^64 by decide
  exact ⟨n,h,hn,(live_allocations_apart hf h).2.1⟩

/-- The arena is asked while a frame opened from it is open; the frame's end
takes the bytes back, and the next request gets them a second time. Two requests
on a field get the same bytes without any frame. -/
theorem overlap_behind_frame :
    (∃ n, run (guarded (fun n u => n.Admitted u.op) Nesting.use) (.initial ⟨0x1000,256,0⟩)
        [⟨.named,.frameBegin 0 16⟩, ⟨.named,.request 0 (.reserve 8 8)⟩, ⟨.named,.frameEnd 0⟩,
          ⟨.named,.request 0 (.reserve 32 8)⟩] = some n ∧ n.depth = 0 ∧
      ∃ a b, n.live = [a, b] ∧ a.level = 0 ∧ b.level = 0 ∧ ¬ Disjoint a.bytes b.bytes) ∧
    ∃ n, run (guarded (fun n u => n.Admitted u.op) Nesting.use) (.initial ⟨0x1000,256,0⟩)
        [⟨.field,.request 0 (.reserve 8 8)⟩, ⟨.field,.request 0 (.reserve 8 8)⟩] = some n ∧
      ∃ a b, n.live = [a, b] ∧ a.level = 0 ∧ b.level = 0 ∧ ¬ Disjoint a.bytes b.bytes := by
  constructor
  · refine ⟨_,rfl,rfl,⟨0,0x1000,32,8⟩,⟨0,0x1010,8,8⟩,rfl,rfl,rfl,?_⟩
    rw [Set.not_disjoint_iff]
    exact ⟨0x1010,show InRange _ _ _ by decide,show InRange _ _ _ by decide⟩
  · refine ⟨_,rfl,⟨0,0x1000,8,8⟩,⟨0,0x1000,8,8⟩,rfl,rfl,rfl,?_⟩
    rw [Set.not_disjoint_iff]
    exact ⟨0x1000,show InRange _ _ _ by decide,show InRange _ _ _ by decide⟩

end

end Wrela.Arenas

import Wrela.Transition

/-!
# Frames on the paths of a method

A with-statement begins a frame and ends it after its body; a return first ends the
frames that are open where it stands. A path of the lowered code is followed up to a
return, to the end of the code or to any point between. The operations of expressions
begin and end no frame.
-/

set_option autoImplicit false

namespace Wrela.FramePaths
variable {ι : Type}

mutual

inductive Stmt (ι : Type) where
  | simple
  | returnStmt
  | loop (body : List (Stmt ι))
  | ifStmt (thenBody elseBody : List (Stmt ι))
  | ifLetStmt (body : List (Stmt ι))
  | matchStmt (arms : List (Arm ι))
  | withStmt (frame : ι) (body : List (Stmt ι))

inductive Arm (ι : Type) where
  | mk (wildcard : Bool) (body : List (Stmt ι))

end

inductive Op (ι : Type) where
  | plain
  | ret
  | frameBegin (frame : ι)
  | frameEnd (frame : ι)
  | ifOp (thenOps elseOps : List (Op ι))
  | loop (body : List (Op ι))

/-- The innermost of the active frames comes first. -/
def lowerReturn (activeFrames : List ι) : List (Op ι) := activeFrames.map .frameEnd++[.ret]

mutual

def lowerStmt (activeFrames : List ι) : Stmt ι → List (Op ι)
  | .simple => [.plain]
  | .returnStmt => .plain::lowerReturn activeFrames
  | .loop body => [.loop (lowerStmtList activeFrames body)]
  | .ifStmt thenBody elseBody =>
    [.ifOp (lowerStmtList activeFrames thenBody) (lowerStmtList activeFrames elseBody)]
  | .ifLetStmt body => [.plain,.ifOp (.plain::lowerStmtList activeFrames body) []]
  | .matchStmt arms => .plain::lowerMatchArms activeFrames arms
  | .withStmt frame body =>
    .plain::.frameBegin frame::lowerStmtList (frame::activeFrames) body++[.frameEnd frame]

def lowerStmtList (activeFrames : List ι) : List (Stmt ι) → List (Op ι)
  | [] => []
  | stmt::stmts => lowerStmt activeFrames stmt++lowerStmtList activeFrames stmts

def lowerMatchArms (activeFrames : List ι) : List (Arm ι) → List (Op ι)
  | [] => []
  | .mk true body::_ => lowerStmtList activeFrames body
  | .mk false body::arms =>
    [.ifOp (.plain::lowerStmtList activeFrames body) (lowerMatchArms activeFrames arms)]

end

inductive Event (ι : Type) where
  | begun (frame : ι)
  | ended (frame : ι)

inductive Outcome where
  | finished | returned | running

inductive Path : List (Op ι) → List (Event ι) → Outcome → Prop where
  | nil : Path [] [] .finished
  | cut {ops} : Path ops [] .running
  | plain {ops es o} (h : Path ops es o) : Path (.plain::ops) es o
  | ret {ops} : Path (.ret::ops) [] .returned
  | frameBegin {f ops es o} (h : Path ops es o) : Path (.frameBegin f::ops) (.begun f::es) o
  | frameEnd {f ops es o} (h : Path ops es o) : Path (.frameEnd f::ops) (.ended f::es) o
  | thenBranch {t e ops es o} (h : Path (t++ops) es o) : Path (.ifOp t e::ops) es o
  | elseBranch {t e ops es o} (h : Path (e++ops) es o) : Path (.ifOp t e::ops) es o
  | turn {b ops es o} (h : Path (b++.loop b::ops) es o) : Path (.loop b::ops) es o
  | leave {b ops es o} (h : Path ops es o) : Path (.loop b::ops) es o

/-- Only the frame begun last may end. -/
def replay [DecidableEq ι] : List ι → Event ι → Option (List ι)
  | open_, .begun f => some (f::open_)
  | f::open_, .ended g => if f = g then some open_ else none
  | [], .ended _ => none

inductive Keeps : List ι → List (Op ι) → List ι → Prop where
  | nil {fs} : Keeps fs [] fs
  | plain {fs gs ops} (h : Keeps fs ops gs) : Keeps fs (.plain::ops) gs
  | ret {gs ops} : Keeps [] (.ret::ops) gs
  | frameBegin {f fs gs ops} (h : Keeps (f::fs) ops gs) : Keeps fs (.frameBegin f::ops) gs
  | frameEnd {f fs gs ops} (h : Keeps fs ops gs) : Keeps (f::fs) (.frameEnd f::ops) gs
  | ifOp {fs gs t e ops} (ht : Keeps fs t fs) (he : Keeps fs e fs) (h : Keeps fs ops gs) :
      Keeps fs (.ifOp t e::ops) gs
  | loop {fs gs b ops} (hb : Keeps fs b fs) (h : Keeps fs ops gs) : Keeps fs (.loop b::ops) gs

section
variable {fs gs hs : List ι} {a b : List (Op ι)}

theorem Keeps.append (h : Keeps fs a gs) (h' : Keeps gs b hs) : Keeps fs (a++b) hs := by
  induction h with
  | nil => exact h'
  | plain _ ih => exact .plain (ih h')
  | ret => exact .ret
  | frameBegin _ ih => exact .frameBegin (ih h')
  | frameEnd _ ih => exact .frameEnd (ih h')
  | ifOp ht he _ _ _ ih => exact .ifOp ht he (ih h')
  | loop hb _ _ ih => exact .loop hb (ih h')

theorem lowerReturn_keeps (fs gs : List ι) : Keeps fs (lowerReturn fs) gs := by
  induction fs with
  | nil => exact .ret
  | cons f fs ih => exact .frameEnd ih

mutual

theorem lowerStmt_keeps (fs : List ι) : ∀ s, Keeps fs (lowerStmt fs s) fs
  | .simple => .plain .nil
  | .returnStmt => .plain (lowerReturn_keeps fs fs)
  | .loop body => .loop (lowerStmtList_keeps fs body) .nil
  | .ifStmt t e => .ifOp (lowerStmtList_keeps fs t) (lowerStmtList_keeps fs e) .nil
  | .ifLetStmt body => .plain (.ifOp (.plain (lowerStmtList_keeps fs body)) .nil .nil)
  | .matchStmt arms => .plain (lowerMatchArms_keeps fs arms)
  | .withStmt f body =>
    .plain (.frameBegin ((lowerStmtList_keeps (f::fs) body).append (.frameEnd .nil)))

theorem lowerStmtList_keeps (fs : List ι) : ∀ ss, Keeps fs (lowerStmtList fs ss) fs
  | [] => .nil
  | s::ss => (lowerStmt_keeps fs s).append (lowerStmtList_keeps fs ss)

theorem lowerMatchArms_keeps (fs : List ι) : ∀ arms, Keeps fs (lowerMatchArms fs arms) fs
  | [] => .nil
  | .mk true body::_ => lowerStmtList_keeps fs body
  | .mk false body::arms =>
    .ifOp (.plain (lowerStmtList_keeps fs body)) (lowerMatchArms_keeps fs arms) .nil

end

end

variable [DecidableEq ι]

theorem path_keeps {ops : List (Op ι)} {es : List (Event ι)} {o : Outcome} (h : Path ops es o)
    {fs gs : List ι} (hk : Keeps fs ops gs) : ∃ rest, Transition.run replay fs es = some rest ∧
      (o = .finished → rest = gs) ∧ (o = .returned → rest = []) := by
  induction h generalizing fs with
  | nil =>
    cases hk
    exact ⟨_,rfl,by simp⟩
  | cut => exact ⟨fs,rfl,by simp⟩
  | plain _ ih =>
    cases hk with
    | plain hk => exact ih hk
  | ret =>
    cases hk
    exact ⟨[],rfl,by simp⟩
  | frameBegin _ ih =>
    cases hk with
    | frameBegin hk => exact ih hk
  | frameEnd _ ih =>
    cases hk with
    | frameEnd hk => simpa [Transition.run, replay] using ih hk
  | thenBranch _ ih =>
    cases hk with
    | ifOp ht _ hk => exact ih (ht.append hk)
  | elseBranch _ ih =>
    cases hk with
    | ifOp _ he hk => exact ih (he.append hk)
  | turn _ ih =>
    cases hk with
    | loop hb hk => exact ih (hb.append (.loop hb hk))
  | leave _ ih =>
    cases hk with
    | loop _ hk => exact ih hk

/-- On every path of a lowered block, frames end in the reverse order of their begins.
A path that leaves the block has ended the frames it began, and one that returns has
ended all frames. -/
theorem frames_balanced (activeFrames : List ι) (body : List (Stmt ι)) (es : List (Event ι))
    (o : Outcome) (h : Path (lowerStmtList activeFrames body) es o) :
    ∃ rest, Transition.run replay activeFrames es = some rest ∧
      (o = .finished → rest = activeFrames) ∧ (o = .returned → rest = []) :=
  path_keeps h (lowerStmtList_keeps activeFrames body)

theorem frames_balanced_return : ∃ rest,
    Transition.run replay [] [.begun 1,.begun 2,.ended 2,.ended 1] = some rest ∧ rest = [] := by
  have h := frames_balanced [] [.withStmt 1 [.withStmt 2 [.ifStmt [.returnStmt] []]]] _ .returned
    (.plain (.frameBegin (.plain (.frameBegin (.thenBranch (.plain
      (.frameEnd (.frameEnd .ret))))))))
  exact h.imp fun _ hr => ⟨hr.1,hr.2.2 rfl⟩

end Wrela.FramePaths

import Mathlib.Data.Int.Notation
import Mathlib.Logic.Function.Iterate
import Wrela.Diag
import Wrela.Transition

/-!
# Lifetimes of frame values

The checker's order on lifetimes, and the operator that combines the lifetimes of the
parts of a value. Frames form a forest, since a frame's parent is a scope that was given
out before it.
-/

set_option autoImplicit false

namespace Wrela.Lifetimes

inductive LifetimeKind where
  | unknown | static | executorRoot | frame | cacheLookup | cacheCopy
  deriving DecidableEq

structure Lifetime where
  kind : LifetimeKind
  scope : ℤ
  deriving DecidableEq

def isScopedLifetime (l : Lifetime) : Bool :=
  l.kind = .frame || l.kind = .cacheLookup || l.kind = .cacheCopy

/-- The last scope given out and `frameLifetimeParents`, where a missing key reads as 0.
Scopes of parameters and receivers are negative and have no entry. -/
structure FrameForest where
  nextFrameScope : ℕ
  parents : ℤ → ℤ
  absent : ∀ s ≤ 0, parents s = 0
  earlier : ∀ s, 0 < s → parents s < s

variable (f : FrameForest)

namespace FrameForest

def empty : FrameForest := ⟨0,fun _ => 0,fun _ _ => rfl,fun _ h => h⟩

/-- The parent is a lifetime that exists, so its scope is not a later one. -/
def pushFrameLifetime (parent : Lifetime) (h : parent.scope ≤ f.nextFrameScope) : FrameForest where
  nextFrameScope := f.nextFrameScope+1
  parents s := if s = f.nextFrameScope+1 then
      if isScopedLifetime parent then parent.scope else 0
    else f.parents s
  absent s hs := by rw [if_neg (by omega), f.absent s hs]
  earlier s hs := by
    split_ifs
    · omega
    · omega
    · exact f.earlier s hs

variable (f : FrameForest)

/-- The loop from a frame to its root, with a bound on its turns. -/
def walk (ancestor : ℤ) : ℕ → ℤ → Option (ℤ ⊕ Unit) :=
  WhileLoop.run (· ≠ 0) fun current =>
    some (if current = ancestor then .inr () else .inl (f.parents current))

def frameIsAncestorOf (ancestor descendant : ℤ) : Bool :=
  if ancestor = 0 ∨ descendant = 0 then false
  else f.walk ancestor (descendant.toNat+2) descendant = some (.inr ())

def lifetimeShorterThan (value target : Lifetime) : Bool :=
  if !isScopedLifetime value then false
  else if target.kind = .frame then
    !(target.scope = value.scope || f.frameIsAncestorOf value.scope target.scope)
  else true

end FrameForest

def stricterSameScopeLifetime (a b : Lifetime) : Lifetime :=
  if a.kind = .cacheCopy ∨ b.kind = .cacheCopy then ⟨.cacheCopy,a.scope⟩
  else if a.kind = .cacheLookup ∨ b.kind = .cacheLookup then ⟨.cacheLookup,a.scope⟩
  else a

def FrameForest.combineLifetime (current next : Lifetime) : Lifetime × List Diagnostic :=
  if !isScopedLifetime next then (current,[])
  else if !isScopedLifetime current then (next,[])
  else if current.scope = next.scope then (stricterSameScopeLifetime current next,[])
  else match !f.lifetimeShorterThan current next, !f.lifetimeShorterThan next current with
    | true, false => (next,[])
    | false, true => (current,[])
    | true, true => (stricterSameScopeLifetime current next,[])
    | false, false => (current,[⟨.SEM0025,"frame value cannot be stored"⟩])

section
variable (f : FrameForest) {a b c d : ℤ}

def Above (a d : ℤ) : Prop := ∃ n, f.parents^[n] d = a

theorem not_above_zero (h : a ≠ 0) : ¬ Above f a 0 := by
  rintro ⟨n,rfl⟩
  exact h (Function.iterate_fixed (f.absent 0 (Int.le_refl 0)) n)

theorem above_parent (h : a ≠ d) : Above f a (f.parents d) ↔ Above f a d := by
  constructor
  · rintro ⟨n,hn⟩
    exact ⟨n+1,hn⟩
  · rintro ⟨_ | n,hn⟩
    · exact absurd hn.symm h
    · exact ⟨n,hn⟩

def height (s : ℤ) : ℕ := if s = 0 then 0 else s.toNat+1

theorem height_parent (h : d ≠ 0) : height (f.parents d) < height d := by
  simp only [height, if_neg h]
  by_cases hd : 0 < d
  · have := f.earlier d hd
    split_ifs <;> omega
  · rw [f.absent d (by omega)]
    simp

theorem walk_spec (a d : ℤ) : ∃ r, f.walk a (d.toNat+2) d = some r ∧
    (r = .inr () ↔ a ≠ 0 ∧ Above f a d) := by
  refine WhileLoop.run_total (P := fun s => Above f a s ↔ Above f a d)
    (Q := fun r => r = .inr () ↔ a ≠ 0 ∧ Above f a d) _ _ height _ ?_ ?_ Iff.rfl ?_
  · intro s hs hc
    have hs0 : s ≠ 0 := by simpa using hc
    by_cases h : s = a
    · exact ⟨_,rfl,by simp [h, ← hs, h ▸ hs0, show Above f a a from ⟨0,rfl⟩]⟩
    · exact ⟨_,rfl,by simp [h, above_parent f (Ne.symm h), hs, height_parent f hs0]⟩
  · intro s hs hc
    have hs0 : s = 0 := by simpa using hc
    simpa [← hs, hs0] using not_above_zero f
  · unfold height
    split_ifs <;> omega

theorem frameIsAncestorOf_iff : f.frameIsAncestorOf a d ↔ a ≠ 0 ∧ Above f a d := by
  obtain ⟨r,hr,h⟩ := walk_spec f a d
  unfold FrameForest.frameIsAncestorOf
  by_cases ha : a = 0
  · simp [ha]
  by_cases hd : d = 0
  · simp [hd, not_above_zero f ha]
  · simp [ha, hd, hr, h]

def Within (a d : ℤ) : Prop := a = d ∨ f.frameIsAncestorOf a d

variable {f}

theorem Within.trans (h : Within f a b) (h' : Within f b c) : Within f a c := by
  obtain rfl | h := h
  · exact h'
  obtain rfl | h' := h'
  · exact .inr h
  obtain ⟨ha,n,rfl⟩ := (frameIsAncestorOf_iff f).mp h
  obtain ⟨-,m,rfl⟩ := (frameIsAncestorOf_iff f).mp h'
  exact .inr ((frameIsAncestorOf_iff f).mpr ⟨ha,n+m,Function.iterate_add_apply ..⟩)

end

/-- The value may be kept where the target lives. -/
def Flows (value target : Lifetime) : Prop :=
  f.lifetimeShorterThan value target = false

section
variable {f : FrameForest} {cur next r t : Lifetime}

theorem flows_iff : Flows f cur t ↔
    (isScopedLifetime cur → t.kind = .frame ∧ Within f cur.scope t.scope) := by
  unfold Flows FrameForest.lifetimeShorterThan Within
  rw [@eq_comm _ cur.scope]
  cases isScopedLifetime cur <;> by_cases ht : t.kind = .frame <;>
    simp [ht, or_iff_not_imp_left]

theorem flows_trans (h : Flows f cur next) (h' : Flows f next t) : Flows f cur t := by
  rw [flows_iff] at *
  intro hs
  obtain ⟨hk,hw⟩ := h hs
  obtain ⟨hk',hw'⟩ := h' (by simp [isScopedLifetime, hk])
  exact ⟨hk',hw.trans hw'⟩

theorem flows_unscoped (h : (!isScopedLifetime cur)) : Flows f cur t :=
  flows_iff.mpr fun hs => by simp [hs] at h

theorem flows_stricter_iff (h : isScopedLifetime cur) :
    Flows f (stricterSameScopeLifetime cur next) t ↔ Flows f cur t := by
  rw [flows_iff, flows_iff, h]
  unfold stricterSameScopeLifetime
  split_ifs
  · rfl
  · rfl
  · rw [h]

theorem combine_flows (h : f.combineLifetime cur next = (r,[])) (hr : Flows f r t) :
    Flows f cur t ∧ Flows f next t := by
  unfold FrameForest.combineLifetime at h
  split_ifs at h with hn hc hscope
  · cases h
    exact ⟨hr,flows_unscoped hn⟩
  · cases h
    exact ⟨flows_unscoped hc,hr⟩
  all_goals rw [Bool.not_eq_true', Bool.not_eq_false] at hc hn
  · cases h
    rw [flows_stricter_iff hc] at hr
    refine ⟨hr,flows_iff.mpr fun _ => ?_⟩
    rw [← hscope]
    exact flows_iff.mp hr hc
  split at h <;> rename_i hx hy
  all_goals rw [Bool.not_eq_eq_eq_not] at hx hy
  · cases h
    exact ⟨flows_trans hx hr,hr⟩
  · cases h
    exact ⟨hr,flows_trans hy hr⟩
  · cases h
    rw [flows_stricter_iff hc] at hr
    exact ⟨hr,flows_trans hy hr⟩
  · simp at h

theorem flows_combine (h : f.combineLifetime cur next = (r,[])) (hcur : Flows f cur t)
    (hnext : Flows f next t) : Flows f r t := by
  unfold FrameForest.combineLifetime at h
  split_ifs at h with _ hc
  · cases h
    exact hcur
  · cases h
    exact hnext
  all_goals rw [Bool.not_eq_true', Bool.not_eq_false] at hc
  · cases h
    exact (flows_stricter_iff hc).mpr hcur
  split at h <;> cases h
  · exact hnext
  · exact hcur
  · exact (flows_stricter_iff hc).mpr hcur

end

/-- A combination flows only where both of its parts flow; flowing is a preorder on
frame lifetimes, and the walk to the root of the forest ends. -/
theorem combined_lifetime_lower_bound (f : FrameForest) :
    (∀ current next r t, f.combineLifetime current next = (r,[]) → Flows f r t →
      Flows f current t ∧ Flows f next t) ∧
    (∀ l, l.kind = .frame → Flows f l l) ∧
    (∀ a b c, Flows f a b → Flows f b c → Flows f a c) ∧
    ∀ ancestor descendant, (f.walk ancestor (descendant.toNat+2) descendant).isSome := by
  refine ⟨fun _ _ _ _ => combine_flows,fun l hl => ?_,fun _ _ _ => flows_trans,fun a d => ?_⟩
  · exact flows_iff.mpr fun _ => ⟨hl,.inl rfl⟩
  · obtain ⟨r,hr,-⟩ := walk_spec f a d
    rw [hr]
    rfl

/-! ### Constructors -/

def methodReceiverLifetimeScope : ℤ := -1 <<< 30

def isMethodReceiverLifetime (l : Lifetime) : Bool :=
  isScopedLifetime l && l.scope = methodReceiverLifetimeScope

def isAbstractParamLifetime (l : Lifetime) : Bool :=
  isScopedLifetime l && l.scope < 0 && l.scope ≠ methodReceiverLifetimeScope

/-- The lifetime of the value so far and, in a method, the lifetimes of its receiver and
parameters that its summary requires to last as long as the root. -/
structure Construction where
  lifetime : Lifetime
  rootRequirements : Option (List Lifetime)
  diags : List Diagnostic

def executorRootLifetime : Lifetime := ⟨.executorRoot,0⟩

def recordLifetimeRequirement (value : Lifetime) (requirements : Option (List Lifetime)) :
    Option (List Lifetime) :=
  requirements.bind fun rs =>
    if isMethodReceiverLifetime value || isAbstractParamLifetime value then
      some (if value ∈ rs then rs else rs++[value])
    else none

/-- An argument that has to last as long as the root. -/
def FrameForest.rootArgument (c : Construction) (arg : Lifetime) : Construction :=
  if !f.lifetimeShorterThan arg executorRootLifetime then c
  else if arg.kind = .cacheLookup ∨ arg.kind = .cacheCopy then
    {c with diags := c.diags++[⟨.SEM0031,"cache lookup result cannot escape destination frame"⟩]}
  else match recordLifetimeRequirement arg c.rootRequirements with
    | some rs => {c with rootRequirements := some rs}
    | none => {c with diags := c.diags++[⟨.SEM0025,"frame value cannot be stored"⟩]}

def FrameForest.combinedArgument (c : Construction) (arg : Lifetime) : Construction :=
  {c with
    lifetime := (f.combineLifetime c.lifetime arg).1
    diags := c.diags++(f.combineLifetime c.lifetime arg).2}

/-- The loop over the arguments of a constructor. The lifetimes of data are `combined`, but
for buffers of devices, and so are those of a class that is placed in an arena. -/
def FrameForest.constructorLifetime (combined : Bool) :
    Construction → List Lifetime → Construction :=
  List.foldl (if combined then f.combinedArgument else f.rootArgument)

/-- The callers of the method have to keep the argument as long as the root. -/
def Construction.Requires (c : Construction) (arg : Lifetime) : Prop :=
  ∃ rs, c.rootRequirements = some rs ∧ arg ∈ rs

section
variable {f : FrameForest} {combined : Bool} {c : Construction} {arg : Lifetime}
  {args : List Lifetime}

theorem flows_combined (h : (f.constructorLifetime true c args).diags = []) (t : Lifetime) :
    c.diags = [] ∧ (Flows f (f.constructorLifetime true c args).lifetime t ↔
      Flows f c.lifetime t ∧ ∀ arg ∈ args, Flows f arg t) := by
  induction args generalizing c with
  | nil => exact ⟨h,(and_iff_left (by simp)).symm⟩
  | cons arg args ih =>
    obtain ⟨hdiags,hflows⟩ := ih h
    obtain ⟨hc,hcombine⟩ := List.append_eq_nil_iff.mp hdiags
    have hcombine : f.combineLifetime c.lifetime arg = (_,[]) := Prod.ext rfl hcombine
    refine ⟨hc,hflows.trans ?_⟩
    rw [List.forall_mem_cons, ← and_assoc]
    exact and_congr_left' ⟨combine_flows hcombine,fun h => flows_combine hcombine h.1 h.2⟩

theorem recordLifetimeRequirement_mem {rs : List Lifetime}
    (h : recordLifetimeRequirement arg c.rootRequirements = some rs) :
    arg ∈ rs ∧ ∀ old, c.rootRequirements = some old → old ⊆ rs := by
  obtain ⟨old,hold,h⟩ := Option.bind_eq_some_iff.mp h
  simp only [Option.ite_none_right_eq_some, Option.some.injEq] at h
  rw [hold, ← h.2]
  split_ifs with hmem <;> simp [hmem]

/-- An accepted argument is unscoped, or is required from now on. -/
theorem rootArgument_spec (h : (f.rootArgument c arg).diags = []) :
    c.diags = [] ∧ (f.rootArgument c arg).lifetime = c.lifetime ∧
      (Flows f arg executorRootLifetime ∨ (f.rootArgument c arg).Requires arg) ∧
      ∀ other, c.Requires other → (f.rootArgument c arg).Requires other := by
  unfold FrameForest.rootArgument at h ⊢
  split_ifs at h ⊢ with hshort hcache
  · exact ⟨h,rfl,.inl (by simpa [Flows] using hshort),fun _ => id⟩
  · simp at h
  · cases hrs : recordLifetimeRequirement arg c.rootRequirements with
    | none => simp [hrs] at h
    | some rs =>
      rw [hrs] at h
      obtain ⟨hmem,hold⟩ := recordLifetimeRequirement_mem hrs
      exact ⟨h,rfl,.inr ⟨rs,rfl,hmem⟩,fun _ ⟨old,ho,hm⟩ => ⟨rs,rfl,hold old ho hm⟩⟩

theorem accepted_root (h : (f.constructorLifetime false c args).diags = []) :
    c.diags = [] ∧ (f.constructorLifetime false c args).lifetime = c.lifetime ∧
      (∀ arg ∈ args, Flows f arg executorRootLifetime ∨
        (f.constructorLifetime false c args).Requires arg) ∧
      ∀ other, c.Requires other → (f.constructorLifetime false c args).Requires other := by
  induction args generalizing c with
  | nil => exact ⟨h,rfl,by simp,fun _ => id⟩
  | cons arg args ih =>
    obtain ⟨hdiags,hlifetime,hargs,hkeep⟩ := ih h
    obtain ⟨hc,hfirst,harg,hkept⟩ := rootArgument_spec hdiags
    refine ⟨hc,hlifetime.trans hfirst,List.forall_mem_cons.mpr ⟨?_,hargs⟩,fun other hother => ?_⟩
    · exact harg.imp_right (hkeep arg)
    · exact hkeep other (hkept other hother)

theorem flows_of_root (h : Flows f arg executorRootLifetime) (t : Lifetime) : Flows f arg t := by
  rw [flows_iff] at h ⊢
  intro hs
  cases (h hs).1

end

def nestedFrames : FrameForest :=
  (FrameForest.empty.pushFrameLifetime executorRootLifetime (by decide)).pushFrameLifetime
    ⟨.frame,1⟩ (by decide)

end Wrela.Lifetimes

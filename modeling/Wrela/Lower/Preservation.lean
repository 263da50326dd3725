import Wrela.Lower.Bindings

/-!
# What lowering keeps of local variables

The lowered code of a method body follows the source statement by statement: it
reads what the source reads and ends as it does, if no name stands for a value
that another name assigns and every value that is stored has the width of its place.
-/

set_option autoImplicit false

namespace Wrela.Locals
open X86 Traced List Nat
open Option (bind_eq_some_iff map_some)

variable {β : Type} {sig : Signature β} {spill : Op β → Slots → Run Slots} {fuel : ℕ}
  {assigned : List String} {enumScope : List (String × ℕ)} {enums : List (String × EnumValue)}
  {scope' : Scope} {k k' : ℕ} {ops : List (Op β)} {body : List (Stmt β)} {e : Expr β}
  {arms : List (Arm β)} {n : String} {cond : Expr β} {bindings : List (String × String)}

/-! ### What lowering a statement gives -/

section
variable {scope scope' : Scope} {value : ℕ}

/-- A name that is assigned somewhere gets a number of its own; another one stands for
the value that it is bound to. -/
theorem lowerStmt_let
    (h : lowerStmt sig enumScope assigned (.letStmt n e) scope k = some (scope', ops, k')) :
    ∃ a valueOps k₁, lowerExpr sig scope e k = some (a, valueOps, k₁) ∧
      (n ∈ assigned ∧ scope' = (n, k₁, e.type sig scope.types)::scope ∧ k' = k₁+1 ∧
          ops = valueOps++[.copy k₁ a (e.type sig scope.types) (e.type sig scope.types)] ∨
        n ∉ assigned ∧ scope' = (n, a, e.type sig scope.types)::scope ∧ k' = k₁ ∧
          ops = valueOps) := by
  obtain ⟨⟨a,valueOps,k₁⟩,hread,h⟩ := bind_eq_some_iff.mp h
  refine ⟨a,valueOps,k₁,hread,?_⟩
  dsimp only at h
  split at h
  next hn =>
    cases h
    exact .inl ⟨hn,rfl,rfl,rfl⟩
  next hn =>
    cases h
    exact .inr ⟨hn,rfl,rfl,rfl⟩

theorem lowerStmt_assign
    (h : lowerStmt sig enumScope assigned (.assign n e) scope k = some (scope', ops, k')) :
    ∃ target type a valueOps, scope.lookup n = some (target, type) ∧
      lowerExpr sig scope e k = some (a, valueOps, k') ∧ scope' = scope ∧
      ops = valueOps++[.copy target a type (e.type sig scope.types)] := by
  obtain ⟨⟨target,type⟩,htarget,h⟩ := bind_eq_some_iff.mp h
  obtain ⟨⟨a,valueOps,k₁⟩,hread,h⟩ := bind_eq_some_iff.mp h
  cases h
  exact ⟨_,_,_,_,htarget,hread,rfl,rfl⟩

theorem lowerStmt_if {thenBody elseBody : List (Stmt β)}
    (h : lowerStmt sig enumScope assigned (.ifStmt cond thenBody elseBody) scope k =
      some (scope', ops, k')) :
    ∃ a conditionOps k₁ scope₁ thenOps k₂ scope₂ elseOps,
      lowerExpr sig scope cond k = some (a, conditionOps, k₁) ∧
      lowerStmtList sig enumScope assigned thenBody scope k₁ = some (scope₁, thenOps, k₂) ∧
      lowerStmtList sig enumScope assigned elseBody scope k₂ = some (scope₂, elseOps, k') ∧
      scope' = scope ∧ ops = [.ifOp conditionOps a thenOps elseOps] := by
  obtain ⟨⟨a,conditionOps,k₁⟩,hread,h⟩ := bind_eq_some_iff.mp h
  obtain ⟨⟨scope₁,thenOps,k₂⟩,hthen,h⟩ := bind_eq_some_iff.mp h
  obtain ⟨⟨scope₂,elseOps,k₃⟩,helse,h⟩ := bind_eq_some_iff.mp h
  cases h
  exact ⟨_,_,_,_,_,_,_,_,hread,hthen,helse,rfl,rfl⟩

theorem lowerStmt_while
    (h : lowerStmt sig enumScope assigned (.whileStmt cond body) scope k =
      some (scope', ops, k')) :
    ∃ a conditionOps k₁ scope₁ bodyOps,
      lowerExpr sig scope cond k = some (a, conditionOps, k₁) ∧
      lowerStmtList sig enumScope assigned body scope k₁ = some (scope₁, bodyOps, k') ∧
      scope' = scope ∧ ops = [.whileOp conditionOps a bodyOps] := by
  obtain ⟨⟨a,conditionOps,k₁⟩,hread,h⟩ := bind_eq_some_iff.mp h
  obtain ⟨⟨scope₁,bodyOps,k₂⟩,hbody,h⟩ := bind_eq_some_iff.mp h
  cases h
  exact ⟨_,_,_,_,_,hread,hbody,rfl,rfl⟩

theorem lowerStmt_match {value : Scrutinee β}
    (h : lowerStmt sig enumScope assigned (.matchStmt value arms) scope k =
      some (scope', ops, k')) :
    ∃ a valueOps k₁ armOps,
      lowerScrutinee sig enumScope scope value k = some (a, valueOps, k₁) ∧
      lowerMatchArms sig enumScope assigned a arms scope k₁ = some (armOps, k') ∧
      scope' = scope ∧ ops = valueOps++armOps := by
  obtain ⟨⟨a,valueOps,k₁⟩,hvalue,h⟩ := bind_eq_some_iff.mp h
  obtain ⟨⟨armOps,k₂⟩,harms,h⟩ := bind_eq_some_iff.mp h
  cases h
  exact ⟨_,_,_,_,hvalue,harms,rfl,rfl⟩

theorem lowerStmt_return (h : lowerStmt sig enumScope assigned (.returnStmt (some e)) scope k =
      some (scope', ops, k')) :
    ∃ a valueOps, lowerExpr sig scope e k = some (a, valueOps, k') ∧ scope' = scope ∧
      ops = valueOps++[.returnOp (some a)] := by
  obtain ⟨⟨a,valueOps,k₁⟩,hread,h⟩ := bind_eq_some_iff.mp h
  cases h
  exact ⟨_,_,hread,rfl,rfl⟩

theorem lowerStmtList_cons {st : Stmt β}
    (h : lowerStmtList sig enumScope assigned (st::body) scope k = some (scope', ops, k')) :
    ∃ scope₁ stOps k₁ restOps,
      lowerStmt sig enumScope assigned st scope k = some (scope₁, stOps, k₁) ∧
      lowerStmtList sig enumScope assigned body scope₁ k₁ = some (scope', restOps, k') ∧
      ops = stOps++restOps := by
  obtain ⟨⟨scope₁,stOps,k₁⟩,hst,h⟩ := bind_eq_some_iff.mp h
  obtain ⟨⟨scope₂,restOps,k₂⟩,hrest,h⟩ := bind_eq_some_iff.mp h
  cases h
  exact ⟨_,_,_,_,hst,hrest,rfl⟩

theorem lowerMatchArms_wildcard
    (h : lowerMatchArms sig enumScope assigned value (.mk .wildcard body::arms) scope k =
      some (ops, k')) :
    ∃ scope₁, lowerStmtList sig enumScope assigned body scope k = some (scope₁, ops, k') := by
  obtain ⟨⟨scope₁,bodyOps,k₁⟩,hbody,h⟩ := bind_eq_some_iff.mp h
  cases h
  exact ⟨scope₁,hbody⟩

theorem lowerMatchArms_variant {variant : String}
    (h : lowerMatchArms sig enumScope assigned value (.mk (.variant variant bindings) body::arms)
      scope k = some (ops, k')) :
    ∃ armScope extracts k₁ scope₁ bodyOps k₂ elseOps,
      lowerPatternBindings sig value variant bindings scope (k+1) = (armScope, extracts, k₁) ∧
      lowerStmtList sig enumScope assigned body armScope k₁ = some (scope₁, bodyOps, k₂) ∧
      lowerMatchArms sig enumScope assigned value arms scope k₂ = some (elseOps, k') ∧
      ops = [.ifOp [.enumVariantTest k value variant] k (extracts++bodyOps) elseOps] := by
  obtain ⟨⟨scope₁,bodyOps,k₂⟩,hbody,h⟩ := bind_eq_some_iff.mp h
  obtain ⟨⟨elseOps,k₃⟩,hrest,h⟩ := bind_eq_some_iff.mp h
  cases h
  exact ⟨_,_,_,scope₁,bodyOps,k₂,elseOps,rfl,hbody,hrest,rfl⟩

theorem lowerPatternBindings_le {variant : String}
    (h : lowerPatternBindings sig value variant bindings scope k = (scope', ops, k')) : k ≤ k' := by
  induction bindings generalizing scope k ops with
  | nil =>
    cases h
    exact le_refl _
  | cons binding bindings ih =>
    cases h
    exact le_trans (le_succ _) (ih rfl)

end

mutual

theorem lowerStmt_le (st : Stmt β) {scope scope' : Scope} {k k' : ℕ} {ops : List (Op β)}
    (h : lowerStmt sig enumScope assigned st scope k = some (scope', ops, k')) : k ≤ k' := by
  cases st with
  | letStmt n e =>
    obtain ⟨a,valueOps,k₁,hread,⟨-,-,rfl,-⟩ | ⟨-,-,rfl,-⟩⟩ := lowerStmt_let h
    · exact le_succ_of_le (lowerExpr_le _ hread)
    · exact lowerExpr_le _ hread
  | assign n e =>
    obtain ⟨target,type,a,valueOps,-,hread,-,-⟩ := lowerStmt_assign h
    exact lowerExpr_le _ hread
  | ifStmt cond thenBody elseBody =>
    obtain ⟨a,conditionOps,k₁,_,thenOps,k₂,_,elseOps,hread,hthen,helse,-,-⟩ := lowerStmt_if h
    have hk₁ := lowerExpr_le _ hread
    have hk₂ := lowerStmtList_le thenBody hthen
    have hk₃ := lowerStmtList_le elseBody helse
    omega
  | whileStmt cond body =>
    obtain ⟨a,conditionOps,k₁,_,bodyOps,hread,hbody,-,-⟩ := lowerStmt_while h
    exact le_trans (lowerExpr_le _ hread) (lowerStmtList_le body hbody)
  | matchStmt value arms =>
    obtain ⟨a,valueOps,k₁,armOps,hvalue,harms,-,-⟩ := lowerStmt_match h
    exact le_trans (lowerScrutinee_le hvalue) (lowerMatchArms_le arms harms)
  | returnStmt value =>
    cases value with
    | none =>
      cases h
      exact le_refl _
    | some e =>
      obtain ⟨a,valueOps,hread,-,-⟩ := lowerStmt_return h
      exact lowerExpr_le _ hread

theorem lowerStmtList_le (body : List (Stmt β)) {scope scope' : Scope} {k k' : ℕ}
    {ops : List (Op β)}
    (h : lowerStmtList sig enumScope assigned body scope k = some (scope', ops, k')) :
    k ≤ k' := by
  cases body with
  | nil =>
    cases h
    exact le_refl _
  | cons st body =>
    obtain ⟨scope₁,stOps,k₁,restOps,hst,hrest,-⟩ := lowerStmtList_cons h
    exact le_trans (lowerStmt_le st hst) (lowerStmtList_le body hrest)

theorem lowerMatchArms_le (arms : List (Arm β)) {value : ℕ} {scope : Scope} {k k' : ℕ}
    {ops : List (Op β)}
    (h : lowerMatchArms sig enumScope assigned value arms scope k = some (ops, k')) : k ≤ k' := by
  cases arms with
  | nil =>
    cases h
    exact le_refl _
  | cons arm arms =>
    obtain ⟨pattern,body⟩ := arm
    cases pattern with
    | wildcard =>
      obtain ⟨_,hbody⟩ := lowerMatchArms_wildcard h
      exact lowerStmtList_le body hbody
    | variant variant bindings =>
      obtain ⟨armScope,extracts,k₁,_,bodyOps,k₂,elseOps,hpattern,hbody,hrest,-⟩ :=
        lowerMatchArms_variant h
      have hk₁ := lowerPatternBindings_le hpattern
      have hk₂ := lowerStmtList_le body hbody
      have hk₃ := lowerMatchArms_le arms hrest
      omega

end

/-! ### Statements -/

theorem lowerStmt_types {scope : Scope} (st : Stmt β)
    (h : lowerStmt sig enumScope assigned st scope k = some (scope', ops, k')) :
    scope'.types = typesAfter sig scope.types st := by
  cases st with
  | letStmt n e =>
    obtain ⟨a,valueOps,k₁,-,⟨-,rfl,-,-⟩ | ⟨-,rfl,-,-⟩⟩ := lowerStmt_let h
    · exact types_cons scope n k₁ _
    · exact types_cons scope n a _
  | assign n e =>
    obtain ⟨target,type,a,valueOps,-,-,rfl,-⟩ := lowerStmt_assign h
    rfl
  | ifStmt cond thenBody elseBody =>
    obtain ⟨_,_,_,_,_,_,_,_,-,-,-,rfl,-⟩ := lowerStmt_if h
    rfl
  | whileStmt cond body =>
    obtain ⟨_,_,_,_,_,-,-,rfl,-⟩ := lowerStmt_while h
    rfl
  | matchStmt value arms =>
    obtain ⟨_,_,_,_,-,-,rfl,-⟩ := lowerStmt_match h
    rfl
  | returnStmt value =>
    cases value with
    | none =>
      cases h
      rfl
    | some e =>
      obtain ⟨_,_,-,rfl,-⟩ := lowerStmt_return h
      rfl

section
variable {bs : List Binding} {vars : Vars} {s : Slots}

/-- After a statement the scope has the bindings it had, behind those the statement has
added. -/
def Follows (assigned : List String) (enumScope : List (String × ℕ))
    (enums : List (String × EnumValue)) (bs : List Binding) (scope' : Scope) (k' : ℕ)
    (vars : Vars) (s : Slots) : Prop :=
  ∃ added, scope' = scopeOf (added++bs) ∧ Below enumScope (added++bs) k' ∧
    Holds assigned enumScope enums (added++bs) vars s

theorem Follows.none_added (hb : Below enumScope bs k')
    (h : Holds assigned enumScope enums bs vars s) :
    Follows assigned enumScope enums bs (scopeOf bs) k' vars s :=
  ⟨[],rfl,hb,h⟩

/-- What is shown of a statement: the lowered code follows it from every scope. -/
def StmtAgrees (sig : Signature β) (spill : Op β → Slots → Run Slots) (fuel : ℕ)
    (assigned : List String) (enumScope : List (String × ℕ)) (enums : List (String × EnumValue))
    (st : Stmt β) : Prop :=
  ∀ ⦃bs : List Binding⦄ ⦃k k' : ℕ⦄ ⦃scope' : Scope⦄ ⦃ops : List (Op β)⦄ ⦃vars : Vars⦄ ⦃s : Slots⦄,
    lowerStmt sig enumScope assigned st (scopeOf bs) k = some (scope', ops, k') →
    keepsStmt sig assigned (scopeOf bs).types st → Below enumScope bs k →
    Holds assigned enumScope enums bs vars s →
    Agrees (Follows assigned enumScope enums bs scope' k') (execStmt sig enums fuel st vars)
      (execOps sig spill fuel ops s)

theorem let_agrees : StmtAgrees sig spill fuel assigned enumScope enums (.letStmt n e) := by
  intro bs k k' scope' ops vars s hl hkeeps hb h
  obtain ⟨a,valueOps,k₁,hread,hl⟩ := lowerStmt_let hl
  have hk := lowerExpr_le _ hread
  obtain ⟨ha,hvalue⟩ := lowerExpr_number e hread hb
  rw [execStmt, h.types_eq]
  obtain ⟨hn,rfl,rfl,rfl⟩ | ⟨hn,rfl,rfl,rfl⟩ := hl
  · -- an assigned name gets a copy
    rw [execOps_append]
    refine (evaluate_agrees h hb hread).bind ?_
    rintro v t ⟨hkept,hv⟩
    rw [execOps_singleton, execOp, if_pos rfl, hv]
    have hcopy := hkept.trans (.setWord k₁ t v) hk
    refine .pure ⟨[⟨n,vars.next,k₁,_⟩],rfl,(hb.mono (by omega)).push (lt_succ_self _),?_⟩
    refine (h.kept hb hcopy).introduce_fresh (fun b hmem => ?_) (setWord_words_self t k₁ v)
    exact Nat.lt_of_lt_of_le (hb.word b hmem) hk
  · rw [← bind_pure_right (execOps sig spill fuel ops s)]
    refine (evaluate_agrees h hb hread).bind ?_
    rintro v t ⟨hkept,hv⟩
    have ht := h.kept hb hkept
    refine .pure ⟨[⟨n,vars.next,a,_⟩],rfl,(hb.mono hk).push ha,?_⟩
    obtain ⟨b,rfl,hfind,rfl⟩ | ⟨-,hfresh⟩ := hvalue
    · -- another name, which is not assigned: its value stands for both
      have hname : b.name ∉ assigned := by simpa [keepsStmt, hn] using hkeeps
      obtain ⟨hmem,-⟩ := find_mem hfind
      rw [← hv, ht.word b hmem]
      exact ht.introduce_alias hmem hn hname
    · exact ht.introduce_fresh (fun b hmem => Nat.lt_of_lt_of_le (hb.word b hmem) hfresh) hv

theorem assign_agrees (hn : n ∈ assigned) :
    StmtAgrees sig spill fuel assigned enumScope enums (.assign n e) := by
  intro bs k k' scope' ops vars s hl hkeeps hb h
  obtain ⟨target,type,a,valueOps,htarget,hread,rfl,rfl⟩ := lowerStmt_assign hl
  -- the copy has the width of the variable, so it takes the whole word
  have hsame : e.type sig (scopeOf bs).types = type := by
    have hkeeps : e.type sig (scopeOf bs).types = (scopeOf bs).types n := of_decide_eq_true hkeeps
    rw [hkeeps, Scope.types, htarget]
    rfl
  obtain ⟨b,hfind,rfl,rfl⟩ := lookup_scopeOf_some htarget
  obtain ⟨hmem,rfl⟩ := find_mem hfind
  have hvar : vars.names.lookup b.name = some (b.var, b.type) := by
    rw [h.lookup_var, hfind, map_some]
  rw [execOps_append]
  simp only [execStmt, hvar]
  refine (evaluate_agrees h hb hread).bind ?_
  rintro v t ⟨hkept,hv⟩
  rw [execOps_singleton, execOp, if_pos hsame, hv]
  refine .pure (Follows.none_added (hb.mono (lowerExpr_le _ hread)) ?_)
  exact (h.kept hb hkept).assign hmem hn v

def BodyAgrees (sig : Signature β) (spill : Op β → Slots → Run Slots) (fuel : ℕ)
    (assigned : List String) (enumScope : List (String × ℕ)) (enums : List (String × EnumValue))
    (body : List (Stmt β)) : Prop :=
  ∀ ⦃bs : List Binding⦄ ⦃k k' : ℕ⦄ ⦃scope' : Scope⦄ ⦃ops : List (Op β)⦄ ⦃vars : Vars⦄ ⦃s : Slots⦄,
    lowerStmtList sig enumScope assigned body (scopeOf bs) k = some (scope', ops, k') →
    keeps sig assigned (scopeOf bs).types body → Below enumScope bs k →
    Holds assigned enumScope enums bs vars s →
    Agrees (Follows assigned enumScope enums bs scope' k') (execStmts sig enums fuel body vars)
      (execOps sig spill fuel ops s)

/-- Behind a body the source forgets the names that it has introduced. Their numbers are
written in the lowered code, but no binding that is left has one of them. -/
theorem BodyAgrees.leave (hbody : BodyAgrees sig spill fuel assigned enumScope enums body)
    (added : List Binding) {outer : Vars}
    (hl : lowerStmtList sig enumScope assigned body (scopeOf (added++bs)) k =
      some (scope', ops, k')) (hkeeps : keeps sig assigned (scopeOf (added++bs)).types body)
    (hb : Below enumScope (added++bs) k) (h : Holds assigned enumScope enums (added++bs) vars s)
    (houter : outer.names = namesOf bs) :
    Agrees (Holds assigned enumScope enums bs)
      ((execStmts sig enums fuel body vars).bind fun t => .pure (t.leave outer))
      (execOps sig spill fuel ops s) := by
  rw [← bind_pure_right (execOps sig spill fuel ops s)]
  refine (hbody hl hkeeps hb h).bind ?_
  rintro t u ⟨more,_,_,hholds⟩
  rw [← append_assoc] at hholds
  exact .pure (hholds.leave houter)

theorem if_agrees {thenBody elseBody : List (Stmt β)}
    (hthen : BodyAgrees sig spill fuel assigned enumScope enums thenBody)
    (helse : BodyAgrees sig spill fuel assigned enumScope enums elseBody) :
    StmtAgrees sig spill fuel assigned enumScope enums (.ifStmt cond thenBody elseBody) := by
  intro bs k k' scope' ops vars s hl hkeeps hb h
  obtain ⟨a,conditionOps,k₁,_,thenOps,k₂,_,elseOps,hread,hlthen,hlelse,rfl,rfl⟩ := lowerStmt_if hl
  obtain ⟨hkthen,hkelse⟩ := Bool.and_eq_true_iff.mp hkeeps
  have hb₁ := hb.mono (lowerExpr_le _ hread)
  have hb₂ := hb₁.mono (lowerStmtList_le thenBody hlthen)
  have hb₃ := hb₂.mono (lowerStmtList_le elseBody hlelse)
  rw [execOps_singleton, execOp, execStmt]
  refine (evaluate_agrees h hb hread).bind ?_
  rintro v t ⟨hkept,hv⟩
  rw [hv]
  -- both sides record the condition before they branch on it
  refine (Agrees.record (R := fun v' t' => v' = v ∧ t' = t) [v] ⟨rfl,rfl⟩).bind ?_
  rintro _ _ ⟨rfl,rfl⟩
  have ht := h.kept hb hkept
  have hleave {t : Vars} {u : Slots} (hu : Holds assigned enumScope enums bs t u) :
      Follows assigned enumScope enums bs (scopeOf bs) k' t u := .none_added hb₃ hu
  rw [hv]
  split
  · exact (hthen.leave [] hlthen hkthen hb₁ ht h.names).mono fun _ _ => hleave
  · exact (helse.leave [] hlelse hkelse hb₂ ht h.names).mono fun _ _ => hleave

theorem while_agrees (hbody : BodyAgrees sig spill fuel assigned enumScope enums body) :
    StmtAgrees sig spill fuel assigned enumScope enums (.whileStmt cond body) := by
  intro bs k k' scope' ops vars s hl hkeeps hb h
  obtain ⟨a,conditionOps,k₁,_,bodyOps,hread,hlbody,rfl,rfl⟩ := lowerStmt_while hl
  have hb₁ := hb.mono (lowerExpr_le _ hread)
  have hb₂ := hb₁.mono (lowerStmtList_le body hlbody)
  rw [execOps_singleton, execOp, execStmt]
  refine Agrees.mono (R := Holds assigned enumScope enums bs) ?_ fun _ _ hu => .none_added hb₂ hu
  -- the bindings around the loop are as before it after every turn
  refine Agrees.iterate Stop.exhausted (fun vars s h => ?_) fuel h
  refine (evaluate_agrees h hb hread).bind ?_
  rintro v t ⟨hkept,hv⟩
  rw [hv]
  refine (Agrees.record (R := fun v' t' => v' = v ∧ t' = t) [v] ⟨rfl,rfl⟩).bind ?_
  rintro _ _ ⟨rfl,rfl⟩
  have ht := h.kept hb hkept
  rw [hv]
  split
  · refine (hbody hlbody hkeeps hb₁ ht).bind ?_
    rintro t u ⟨more,_,_,hholds⟩
    exact .pure (.inr (hholds.leave h.names))
  · exact .pure (.inl ht)

theorem lowerPatternBindings_types {variant : String} {value : ℕ} {scope : Scope}
    (h : lowerPatternBindings sig value variant bindings scope k = (scope', ops, k')) :
    scope'.types = patternTypes sig variant bindings scope.types := by
  induction bindings generalizing scope k ops with
  | nil =>
    cases h
    rfl
  | cons binding bindings ih =>
    cases h
    rw [patternTypes, ← types_cons scope _ k]
    exact ih rfl

variable (sig spill fuel) in
/-- The bindings of a pattern are extracted into fresh numbers one by one, and nothing is
recorded for them. -/
theorem bindPattern_agrees {variant : String} {value : ℕ} (bindings : List (String × String))
    {armScope : Scope}
    (hl : lowerPatternBindings sig value variant bindings (scopeOf bs) k = (armScope, ops, k'))
    (hb : Below enumScope bs k) (h : Holds assigned enumScope enums bs vars s) :
    ∃ added t, execOps sig spill fuel ops s = .pure t ∧ armScope = scopeOf (added++bs) ∧
      Below enumScope (added++bs) k' ∧ Holds assigned enumScope enums (added++bs)
        (vars.bindPattern sig (s.enums value) variant bindings) t := by
  induction bindings generalizing bs k ops vars s with
  | nil =>
    cases hl
    exact ⟨[],s,rfl,rfl,hb,h⟩
  | cons binding bindings ih =>
    obtain ⟨field,n⟩ := binding
    cases hl
    let b : Binding := ⟨n,vars.next,k,sig.fieldType variant field⟩
    have hholds := (h.kept hb (.setWord k s ((s.enums value).field field))).introduce_fresh
      (n := n) (w := sig.fieldType variant field) hb.word (setWord_words_self s k _)
    have hrest : lowerPatternBindings sig value variant bindings (scopeOf (b::bs)) (k+1) = _ := rfl
    obtain ⟨added,t,hrun,hscope,hbelow,ht⟩ :=
      ih hrest ((hb.mono (le_succ k)).push (lt_succ_self k)) hholds
    have hadded : added++[b]++bs = added++b::bs := by rw [append_assoc, singleton_append]
    refine ⟨added++[b],t,?_,?_,?_,?_⟩
    · rw [execOps, execOp, bind_pure_left]
      exact hrun
    · rw [hadded]
      exact hscope
    · rw [hadded]
      exact hbelow
    · rw [hadded]
      exact ht

def ArmsAgree (sig : Signature β) (spill : Op β → Slots → Run Slots) (fuel : ℕ)
    (assigned : List String) (enumScope : List (String × ℕ)) (enums : List (String × EnumValue))
    (arms : List (Arm β)) : Prop :=
  ∀ ⦃bs : List Binding⦄ ⦃k k' value : ℕ⦄ ⦃ops : List (Op β)⦄ ⦃vars : Vars⦄ ⦃s : Slots⦄,
    lowerMatchArms sig enumScope assigned value arms (scopeOf bs) k = some (ops, k') →
    keepsArms sig assigned (scopeOf bs).types arms → Below enumScope bs k →
    Holds assigned enumScope enums bs vars s →
    Agrees (Holds assigned enumScope enums bs)
      (execArms sig enums fuel (s.enums value) arms vars) (execOps sig spill fuel ops s)

theorem ArmsAgree.nil : ArmsAgree sig spill fuel assigned enumScope enums ([] : List (Arm β)) := by
  intro bs k k' value ops vars s hl hkeeps hb h
  cases hl
  exact .pure h

section
variable (hbody : BodyAgrees sig spill fuel assigned enumScope enums body)
include hbody

theorem ArmsAgree.wildcard :
    ArmsAgree sig spill fuel assigned enumScope enums (.mk .wildcard body::arms) := by
  intro bs k k' value ops vars s hl hkeeps hb h
  obtain ⟨_,hl⟩ := lowerMatchArms_wildcard hl
  exact hbody.leave [] hl hkeeps hb h h.names

theorem ArmsAgree.variant {variant : String}
    (harms : ArmsAgree sig spill fuel assigned enumScope enums arms) :
    ArmsAgree sig spill fuel assigned enumScope enums
      (.mk (.variant variant bindings) body::arms) := by
  intro bs k k' value ops vars s hl hkeeps hb h
  obtain ⟨armScope,extracts,k₁,_,bodyOps,k₂,elseOps,hpattern,hlbody,hlrest,rfl⟩ :=
    lowerMatchArms_variant hl
  obtain ⟨hkbody,hkarms⟩ := Bool.and_eq_true_iff.mp hkeeps
  rw [← lowerPatternBindings_types hpattern] at hkbody
  have hb₁ := hb.mono (le_succ k)
  have hb₂ := hb₁.mono (le_trans (lowerPatternBindings_le hpattern) (lowerStmtList_le body hlbody))
  rw [execArms, execOps_singleton, execOp, execOps_singleton, execOp, bind_pure_left,
    setWord_words_self]
  -- the test writes a fresh number
  have ht := h.kept hb (.setWord k s (boolWord ((s.enums value).variant = variant)))
  refine (Agrees.record (R := fun t u => t = vars ∧ u = s.setWord k _) _ ⟨rfl,rfl⟩).bind ?_
  rintro _ _ ⟨rfl,rfl⟩
  rw [setWord_words_self]
  by_cases hv : (s.enums value).variant = variant
  · -- the arm is taken: its bindings come first, then its body
    simp only [hv, decide_true] at ht ⊢
    rw [if_pos trivial, if_pos (by decide), execOps_append]
    obtain ⟨added,t,hrun,rfl,hbelow,hholds⟩ := bindPattern_agrees sig spill fuel bindings hpattern
      hb₁ ht
    rw [hrun, bind_pure_left]
    exact hbody.leave added hlbody hkbody hbelow hholds h.names
  · -- the other arms are lowered from the scope of the match
    simp only [hv, decide_false] at ht ⊢
    rw [if_neg not_false, if_neg (by decide)]
    exact harms hlrest hkarms hb₂ ht

end

theorem match_agrees {value : Scrutinee β}
    (harms : ArmsAgree sig spill fuel assigned enumScope enums arms) :
    StmtAgrees sig spill fuel assigned enumScope enums (.matchStmt value arms) := by
  intro bs k k' scope' ops vars s hl hkeeps hb h
  obtain ⟨a,valueOps,k₁,armOps,hvalue,hlarms,rfl,rfl⟩ := lowerStmt_match hl
  obtain ⟨hfits,hkarms⟩ := Bool.and_eq_true_iff.mp hkeeps
  have hb₁ := hb.mono (lowerScrutinee_le hvalue)
  have hb₂ := hb₁.mono (lowerMatchArms_le arms hlarms)
  rw [execOps_append, execStmt]
  refine (scrutinize_agrees h hb hfits hvalue).bind ?_
  rintro v t ⟨hkept,hv⟩
  subst hv
  refine (harms hlarms hkarms hb₁ (h.kept hb hkept)).mono fun _ _ hu => ?_
  exact .none_added hb₂ hu

theorem return_agrees {value : Option (Expr β)} :
    StmtAgrees sig spill fuel assigned enumScope enums (.returnStmt value) := by
  intro bs k k' scope' ops vars s hl hkeeps hb h
  cases value with
  | none =>
    cases hl
    exact .stop _
  | some e =>
    obtain ⟨a,valueOps,hread,rfl,rfl⟩ := lowerStmt_return hl
    rw [execOps_append, execStmt]
    refine (evaluate_agrees h hb hread).bind ?_
    rintro v t ⟨_,hv⟩
    subst hv
    exact .stop _

end

-- by induction over the statements; a loop needs its body once, its turns are counted by
-- the fuel
mutual

theorem execStmt_agrees (st : Stmt β) (hassigned : ∀ n ∈ assignedInStmt st, n ∈ assigned) :
    StmtAgrees sig spill fuel assigned enumScope enums st := by
  cases st with
  | letStmt n e => exact let_agrees
  | assign n e => exact assign_agrees (hassigned n (mem_singleton_self n))
  | ifStmt cond thenBody elseBody =>
    have hthen := execStmts_agree thenBody fun n hn => hassigned n (mem_append_left _ hn)
    have helse := execStmts_agree elseBody fun n hn => hassigned n (mem_append_right _ hn)
    exact if_agrees hthen helse
  | whileStmt cond body => exact while_agrees (execStmts_agree body hassigned)
  | matchStmt value arms => exact match_agrees (execArms_agree arms hassigned)
  | returnStmt value => exact return_agrees

theorem execStmts_agree (body : List (Stmt β)) (hassigned : ∀ n ∈ assignedNames body, n ∈ assigned) :
    BodyAgrees sig spill fuel assigned enumScope enums body := by
  cases body with
  | nil =>
    intro bs k k' scope' ops vars s hl hkeeps hb h
    cases hl
    exact .pure (.none_added hb h)
  | cons st body =>
    intro bs k k' scope' ops vars s hl hkeeps hb h
    obtain ⟨scope₁,stOps,k₁,restOps,hst,hrest,rfl⟩ := lowerStmtList_cons hl
    obtain ⟨hkst,hkbody⟩ := Bool.and_eq_true_iff.mp hkeeps
    rw [← lowerStmt_types st hst] at hkbody
    rw [execOps_append, execStmts]
    refine (execStmt_agrees st (fun n hn => hassigned n (mem_append_left _ hn)) hst hkst hb h).bind
      fun t u ht => ?_
    -- the rest is lowered in the scope with what the statement has added
    obtain ⟨added,rfl,hbelow,hholds⟩ := ht
    refine (execStmts_agree body (fun n hn => hassigned n (mem_append_right _ hn)) hrest hkbody
      hbelow hholds).mono fun t' u' ht => ?_
    obtain ⟨more,hscope,hbelow,hholds⟩ := ht
    rw [← append_assoc] at hscope hbelow hholds
    exact ⟨more++added,hscope,hbelow,hholds⟩

theorem execArms_agree (arms : List (Arm β)) (hassigned : ∀ n ∈ assignedInArms arms, n ∈ assigned) :
    ArmsAgree sig spill fuel assigned enumScope enums arms := by
  cases arms with
  | nil => exact .nil
  | cons arm arms =>
    obtain ⟨pattern,body⟩ := arm
    have hbody := execStmts_agree body fun n hn => hassigned n (mem_append_left _ hn)
    cases pattern with
    | wildcard => exact .wildcard hbody
    | variant variant bindings =>
      exact .variant hbody (execArms_agree arms fun n hn => hassigned n (mem_append_right _ hn))

end

/-! ### Calls -/

/-- Parameters are the first bindings, numbered in their order. -/
theorem enterParams_holds (params : List (String × Width × Word)) {bs : List Binding} {k : ℕ}
    {vars : Vars} {s : Slots} (hb : ∀ b ∈ bs, b.id < k)
    (h : Holds assigned enumScope enums bs vars s)
    (hs : ∀ i p, params[i]? = some p → s.words (k+i) = p.2.2) :
    ∃ added, paramScope (params.map fun p => (p.1, p.2.1)) (scopeOf bs) k = scopeOf (added++bs) ∧
      (∀ b ∈ added++bs, b.id < k+params.length) ∧
      Holds assigned enumScope enums (added++bs) (enterParams params vars) s := by
  induction params generalizing bs k vars with
  | nil => exact ⟨[],rfl,hb,h⟩
  | cons param params ih =>
    obtain ⟨n,type,v⟩ := param
    let b : Binding := ⟨n,vars.next,k,type⟩
    have hholds := h.introduce_fresh (n := n) (w := type) hb (hs 0 (n, type, v) rfl)
    have hbelow : ∀ c ∈ b::bs, c.id < k+1 := by
      rw [forall_mem_cons]
      exact ⟨lt_succ_self k,fun c hmem => lt_succ_of_lt (hb c hmem)⟩
    obtain ⟨added,hscope,hadded,ht⟩ := ih hbelow hholds fun i p hp => by
      rw [add_assoc, add_comm 1 i]
      exact hs (i+1) p hp
    have hassoc : added++[b]++bs = added++b::bs := by rw [append_assoc, singleton_append]
    refine ⟨added++[b],?_,?_,?_⟩
    · rw [hassoc]
      exact hscope
    · rw [hassoc, length_cons, add_comm params.length, ← add_assoc]
      exact hadded
    · rw [hassoc]
      exact ht

theorem lookup_zipIdx {enums : List (String × EnumValue)} {k i : ℕ}
    (h : ((enums.map (·.1)).zipIdx k).lookup n = some i) :
    ∃ p, enums[i-k]? = some p ∧ k ≤ i ∧ enums.lookup n = some p.2 := by
  induction enums generalizing k with
  | nil => cases h
  | cons e enums ih =>
    obtain ⟨m,value⟩ := e
    rw [map_cons, zipIdx_cons, lookup_cons] at h
    rw [lookup_cons]
    cases hm : n == m with
    | true =>
      rw [hm] at h
      cases h
      exact ⟨(m, value),by rw [Nat.sub_self]; rfl,le_refl _,rfl⟩
    | false =>
      rw [hm] at h
      obtain ⟨p,hp,hk,hlookup⟩ := ih h
      refine ⟨p,?_,by omega,hlookup⟩
      rw [show i-k = i-(k+1)+1 by omega, getElem?_cons_succ]
      exact hp

variable (assigned enums) in
/-- A call starts with its parameters and enum values in place, whatever else the frame
held before. -/
theorem callSlots_holds (params : List (String × Width × Word)) (stale : Slots) :
    ∃ bs, paramScope (params.map fun p => (p.1, p.2.1)) [] 0 = scopeOf bs ∧
      Below ((enums.map (·.1)).zipIdx params.length) bs (params.length+enums.length) ∧
      Holds assigned ((enums.map (·.1)).zipIdx params.length) enums bs
        (enterParams params ⟨[],fun _ => 0,0⟩) (callSlots params enums stale) := by
  have hempty : Holds assigned ((enums.map (·.1)).zipIdx params.length) enums []
      ⟨[],fun _ => 0,0⟩ (callSlots params enums stale) := by
    refine ⟨rfl,by simp,by simp,by simp,by simp,fun n i hn => ?_⟩
    obtain ⟨p,hp,hk,hlookup⟩ := lookup_zipIdx hn
    rw [hlookup, callSlots]
    simp only [if_neg (not_lt.mpr hk), hp, map_some, Option.getD_some]
  obtain ⟨bs,hscope,hbelow,hholds⟩ := enterParams_holds (k := 0) params
    (fun b hb => absurd hb not_mem_nil) hempty fun i p hp => by
      rw [zero_add, callSlots]
      simp only [hp, map_some, Option.getD_some]
  rw [append_nil] at hscope hbelow hholds
  refine ⟨bs,hscope,⟨fun b hb => ?_,fun n i hn => ?_⟩,hholds⟩
  · have := hbelow b hb
    omega
  · obtain ⟨p,hp,hk,-⟩ := lookup_zipIdx hn
    have := (List.getElem?_eq_some_iff.mp hp).1
    omega

/-- Two runs of a method read the same, and end by the same return value, the same
trap or both at the end of the body. -/
def SameRun {σ σ' : Type} : Run σ → Run σ' → Prop := Agrees fun _ _ => True

/-- Addition and a comparison of 64-bit values. -/
def counting : Signature Bool where
  eval op a b := some (if op then a+b else boolWord (a.ult b))
  isComparison op := !op
  fieldType _ _ := .w64

/-- `let i = 0; let limit = n; while i < limit do i = i+1; return i`. -/
def countBody : List (Stmt Bool) :=
  [.letStmt "i" (.intLiteral 0), .letStmt "limit" (.name "n"),
    .whileStmt (.binary false (.name "i") (.name "limit"))
      [.assign "i" (.binary true (.name "i") (.intLiteral 1))],
    .returnStmt (some (.name "i"))]

/-- The name stands for a variable that is assigned later:
`let y = 1; let x = y; y = 2; return x`. -/
def assignedBody : List (Stmt Bool) :=
  [.letStmt "y" (.intLiteral 1), .letStmt "x" (.name "y"), .assign "y" (.intLiteral 2),
    .returnStmt (some (.name "x"))]

/-- An 8-bit value is assigned to a 64-bit variable: `let x = a; x = b; return x`. -/
def narrowBody : List (Stmt Bool) :=
  [.letStmt "x" (.name "a"), .assign "x" (.name "b"), .returnStmt (some (.name "x"))]

end Wrela.Locals

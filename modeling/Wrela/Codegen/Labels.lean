import Wrela.Codegen.Structured

/-!
# Labels of nested constructs

Labels are numbered by the labels bound so far, and an `If` binds its first one
only behind its then branch. An `If` that is emitted there before anything is
bound gets the same names, and the outer binding wins. Elsewhere names are
fresh, and the emitted code is the one with every jump going to its own
construct.
-/

set_option autoImplicit false

namespace Wrela.Codegen
open X86 Ir

theorem stmts_induction {P : List Stmt → Prop} (nil : P [])
    (plain : ∀ is rest, P rest → P (.plain is::rest))
    (skip : ∀ load set rest, P rest → P (.skip load set::rest))
    (branch : ∀ condition test thenOps elseOps rest, P condition → P thenOps → P elseOps →
      P rest → P (.branch condition test thenOps elseOps::rest))
    (loop : ∀ kind condition test body rest, P condition → P body → P rest →
      P (.loop kind condition test body::rest)) : (ss : List Stmt) → P ss
  | [] => nil
  | .plain is::rest => plain is rest (stmts_induction nil plain skip branch loop rest)
  | .skip load set::rest => skip load set rest (stmts_induction nil plain skip branch loop rest)
  | .branch condition test thenOps elseOps::rest =>
    branch condition test thenOps elseOps rest
      (stmts_induction nil plain skip branch loop condition)
      (stmts_induction nil plain skip branch loop thenOps)
      (stmts_induction nil plain skip branch loop elseOps)
      (stmts_induction nil plain skip branch loop rest)
  | .loop kind condition test body::rest =>
    loop kind condition test body rest
      (stmts_induction nil plain skip branch loop condition)
      (stmts_induction nil plain skip branch loop body)
      (stmts_induction nil plain skip branch loop rest)

def shape {τ : Type} : Item τ → Item Unit
  | .instr i => .instr i
  | .jmp _ => .jmp ()
  | .jcc cond _ => .jcc cond ()

section
variable (enc : Encoding) {τ : Type}

theorem itemSize_shape (i : Item τ) : enc.itemSize (shape i) = enc.itemSize i := by
  cases i <;> rfl

theorem size_shape (is : List (Item τ)) : enc.size (is.map shape) = enc.size is := by
  induction is with
  | nil => rfl
  | cons i is ih => rw [List.map_cons, Encoding.size_cons, Encoding.size_cons, itemSize_shape, ih]

theorem size_instr {σ : Type} (is : List Instr) :
    enc.size (is.map (Item.instr (τ := τ))) = enc.size (is.map (Item.instr (τ := σ))) := by
  rw [← size_shape, ← size_shape enc (is.map (Item.instr (τ := σ))), List.map_map, List.map_map]
  rfl

theorem shape_jumpFalse {σ : Type} (test : Test) (x : τ) (y : σ) :
    (test.jumpFalse x).map shape = (test.jumpFalse y).map shape := by
  cases test with
  | const v =>
    rw [Test.jumpFalse, Test.jumpFalse]
    split_ifs <;> rfl
  | stored slot type => rfl
  | bytes iterable index => rfl

variable (ss : List Stmt) (e : Emitter)

theorem emitStmts_shape :
    (emitStmts enc ss e).code.map shape = e.code.map shape++(asmStmts enc ss).map shape := by
  induction ss using stmts_induction generalizing e with
  | nil => simp [emitStmts, asmStmts]
  | plain is rest ih =>
    rw [emitStmts, ih, emitStmt, asmStmts, asmStmt]
    simp [shape]
  | skip load set rest ih =>
    rw [emitStmts, ih, emitStmt, asmStmts, asmStmt]
    simp [shape]
    rfl
  | branch condition test thenOps elseOps rest hc ht he ih =>
    rw [emitStmts, ih, emitStmt, asmStmts, asmStmt]
    simp [he, ht, hc, shape, shape_jumpFalse test _ ()]
  | loop kind condition test body rest hc hb ih =>
    rw [emitStmts, ih, emitStmt, asmStmts, asmStmt]
    simp [hb, hc, shape, shape_jumpFalse test _ ()]

theorem emitStmts_size :
    enc.size (emitStmts enc ss e).code = enc.size e.code+enc.size (asmStmts enc ss) := by
  rw [← size_shape, emitStmts_shape, Encoding.size_append, size_shape, size_shape]

theorem emitStmts_length :
    (emitStmts enc ss e).code.length = e.code.length+(asmStmts enc ss).length := by
  simpa using congrArg List.length (emitStmts_shape enc ss e)

theorem emitStmts_code : e.code <+: (emitStmts enc ss e).code := by
  induction ss using stmts_induction generalizing e with
  | nil => exact List.prefix_rfl
  | plain is rest ih => exact List.IsPrefix.trans (List.prefix_append _ _) (ih (e.emitCode is))
  | skip load set rest ih =>
    refine List.IsPrefix.trans ?_ (ih _)
    rw [emitStmt]
    simp only [Emitter.bindLabel_code, Emitter.emitCode_code, Emitter.emit_code, List.append_assoc]
    exact List.prefix_append _ _
  | branch condition test thenOps elseOps rest hc ht he ih =>
    refine List.IsPrefix.trans ?_ (ih _)
    refine (hc e).trans (List.IsPrefix.trans ?_ (he _))
    refine List.IsPrefix.trans ?_ (List.prefix_append _ _)
    refine List.IsPrefix.trans ?_ (ht _)
    rw [Emitter.emitTest_code, List.append_assoc]
    exact List.prefix_append _ _
  | loop kind condition test body rest hc hb ih =>
    refine List.IsPrefix.trans ?_ (ih _)
    refine (hc (e.bindLabel enc (e.newLabel kind.start))).trans ?_
    refine List.IsPrefix.trans ?_ (List.prefix_append _ _)
    refine List.IsPrefix.trans ?_ (hb _)
    rw [Emitter.emitTest_code, List.append_assoc]
    exact List.prefix_append _ _

end

variable {ss : List Stmt}

section
variable {enc : Encoding} {labels : Label → Option ℕ} {r : List (Item ℤ)} {e : Emitter} {pos : ℕ}
  {is items : List (Item Label)}

theorem resolveJumps_append {js : List (Item Label)} :
    resolveJumps enc labels pos (is++js) = .ok r ↔
      ∃ x y, resolveJumps enc labels pos is = .ok x ∧
        resolveJumps enc labels (pos+enc.size is) js = .ok y ∧ r = x++y := by
  induction is generalizing pos r with
  | nil => simp [resolveJumps]
  | cons i is ih =>
    rw [List.cons_append, Encoding.size_cons, ← add_assoc]
    simp only [resolveJumps, bind_eq_ok_iff, ih]
    constructor
    · rintro ⟨a,ha,_,⟨x,y,hx,hy,rfl⟩,⟨⟩⟩
      exact ⟨a::x,y,⟨a,ha,x,hx,rfl⟩,hy,rfl⟩
    · rintro ⟨_,y,⟨a,ha,x,hx,⟨⟩⟩,hy,rfl⟩
      exact ⟨a,ha,x++y,⟨x,y,hx,hy,rfl⟩,rfl⟩

theorem resolveJumps_length
    (h : resolveJumps enc labels pos is = .ok r) : r.length = is.length := by
  induction is generalizing pos r with
  | nil =>
    cases h
    rfl
  | cons i is ih =>
    simp only [resolveJumps, bind_eq_ok_iff] at h
    obtain ⟨a,-,x,hx,⟨⟩⟩ := h
    rw [List.length_cons, List.length_cons, ih hx]

theorem resolveJumps_instr (pos : ℕ) (is : List Instr) :
    resolveJumps enc labels pos (is.map .instr) = .ok (is.map .instr) := by
  induction is generalizing pos with
  | nil => rfl
  | cons i is ih =>
    rw [List.map_cons, resolveJumps, ih]
    rfl

def Resolves (enc : Encoding) (labels : Label → Option ℕ) (e : Emitter) (r : List (Item ℤ)) :
    Prop :=
  resolveJumps enc labels 0 e.code = .ok r

theorem Resolves.length (h : Resolves enc labels e r) :
    r.length = e.code.length := resolveJumps_length h

theorem resolves_bind {l : Label} :
    Resolves enc labels (e.bindLabel enc l) r ↔ Resolves enc labels e r := Iff.rfl

theorem resolves_emit :
    Resolves enc labels (e.emit items) r ↔
      ∃ x y, Resolves enc labels e x ∧
        resolveJumps enc labels (enc.size e.code) items = .ok y ∧ r = x++y := by
  rw [Resolves, Emitter.emit_code, resolveJumps_append, zero_add]
  rfl

theorem Resolves.before {x y : List (Item ℤ)}
    (h : Resolves enc labels (emitStmts enc ss e) (x++y)) (hy : y.length = (asmStmts enc ss).length) :
    Resolves enc labels e x := by
  obtain ⟨f,hf⟩ := emitStmts_code enc ss e
  have hlen := h.length
  rw [emitStmts_length, List.length_append] at hlen
  rw [Resolves, ← hf, resolveJumps_append] at h
  obtain ⟨x',y',hx,-,heq⟩ := h
  obtain ⟨rfl,-⟩ := List.append_inj heq (by rw [resolveJumps_length hx]; omega)
  exact hx

theorem Resolves.emitted {x y : List (Item ℤ)}
    (h : Resolves enc labels (e.emit items) (x++y)) (hy : y.length = items.length) :
    Resolves enc labels e x ∧ resolveJumps enc labels (enc.size e.code) items = .ok y := by
  obtain ⟨x',y',hx,hy',heq⟩ := resolves_emit.mp h
  obtain ⟨rfl,rfl⟩ := List.append_inj' heq (by rw [resolveJumps_length hy', hy])
  exact ⟨hx,hy'⟩

end

/-- An `If` comes before any statement that binds a label. -/
def meetsIf : List Stmt → Bool
  | [] => false
  | .plain _::rest => meetsIf rest
  | .branch _ _ _ _::_ => true
  | .skip _ _::_ => false
  | .loop _ _ _ _::_ => false

mutual

def noCapture : Stmt → Bool
  | .plain _ => true
  | .skip _ _ => true
  | .branch condition _ thenOps elseOps =>
    !meetsIf (condition++thenOps) && noCaptures condition && noCaptures thenOps &&
      noCaptures elseOps
  | .loop _ condition _ body => noCaptures condition && noCaptures body

/-- No `If` has in its condition and then branch another one that is emitted
before any label is bound. -/
def noCaptures : List Stmt → Bool
  | [] => true
  | s::ss => noCapture s && noCaptures ss

end

def allPlain : List Stmt → Bool
  | [] => true
  | .plain _::rest => allPlain rest
  | _::_ => false

theorem meetsIf_append (ss rest : List Stmt) :
    meetsIf (ss++rest) = (meetsIf ss || allPlain ss && meetsIf rest) := by
  induction ss using stmts_induction with
  | nil | skip load set ss ih | branch condition test thenOps elseOps ss
  | loop kind condition test body ss => rfl
  | plain is ss ih => exact ih

variable (enc : Encoding)

theorem labels_of_allPlain (h : allPlain ss) (e : Emitter) :
    (emitStmts enc ss e).labels = e.labels := by
  induction ss using stmts_induction generalizing e with
  | nil => rfl
  | plain is ss ih =>
    rw [emitStmts, ih h]
    rfl
  | skip load set ss ih | branch condition test thenOps elseOps ss
  | loop kind condition test body ss => cases h

theorem emitStmt_branch (condition : List Stmt) (test : Test)
    (thenOps elseOps : List Stmt) (e : Emitter) :
    ∃ e₁ e₂ e₃ e₄ e₅, e₁ = emitStmts enc condition e ∧
      e₂ = e₁.emitTest test (e.newLabel .ifElse) ∧ e₃ = emitStmts enc thenOps e₂ ∧
      e₄ = (e₃.emit [.jmp (e.newLabel .ifDone)]).bindLabel enc (e.newLabel .ifElse) ∧
      e₅ = emitStmts enc elseOps e₄ ∧
      emitStmt enc (.branch condition test thenOps elseOps) e =
        e₅.bindLabel enc (e.newLabel .ifDone) :=
  ⟨_,_,_,_,_,rfl,rfl,rfl,rfl,rfl,rfl⟩

theorem emitStmt_loop (kind : LoopKind) (condition : List Stmt) (test : Test)
    (body : List Stmt) (e : Emitter) :
    ∃ e₁ e₂ e₃ e₄, e₁ = e.bindLabel enc (e.newLabel kind.start) ∧
      e₂ = emitStmts enc condition e₁ ∧ e₃ = e₂.emitTest test (e.newLabel kind.done) ∧
      e₄ = emitStmts enc body e₃ ∧
      emitStmt enc (.loop kind condition test body) e =
        (e₄.emit [.jmp (e.newLabel kind.start)]).bindLabel enc (e.newLabel kind.done) :=
  ⟨_,_,_,_,rfl,rfl,rfl,rfl,rfl⟩

namespace Emitter
variable (enc : Encoding) {e e' e'' : Emitter} {l l' : Label}

def Numbered (e : Emitter) : Prop := ∀ l p, e.lookup l = some p → l.index < e.labels.length

theorem lookup_bindLabel (e : Emitter) (l l' : Label) :
    (e.bindLabel enc l).lookup l' = if l' = l then some (enc.size e.code) else e.lookup l' := by
  by_cases h : l' = l
  · subst h
    simp [lookup, bindLabel]
  · have hp : (fun x : Label × ℕ => decide (decide (x.1 ≠ l) = true ∧ decide (x.1 = l') = true)) =
        fun x => decide (x.1 = l') := by
      funext x
      by_cases hx : x.1 = l'
      · simp [hx, h]
      · simp [hx]
    rw [if_neg h, lookup, bindLabel, List.find?_cons_of_neg (by simpa using Ne.symm h),
      List.find?_filter, hp]
    rfl

theorem length_bindLabel (h : e.lookup l = none) :
    (e.bindLabel enc l).labels.length = e.labels.length+1 := by
  rw [lookup, Option.map_eq_none_iff, List.find?_eq_none] at h
  rw [bindLabel, List.length_cons, List.filter_eq_self.mpr]
  intro x hx
  simpa using h x hx

/-- Up to its second emitter the label table has only grown, and labels below
`n` are as they were. -/
def Grows (n : ℕ) (e e' : Emitter) : Prop :=
  e'.Numbered ∧ e.labels.length ≤ e'.labels.length ∧
    (∀ l p, e.lookup l = some p → e'.lookup l = some p) ∧
    ∀ l, l.index < n → e'.lookup l = e.lookup l

variable {n : ℕ}

theorem Grows.numbered (h : Grows n e e') : e'.Numbered := h.1

theorem Grows.count (h : Grows n e e') : e.labels.length ≤ e'.labels.length := h.2.1

theorem Grows.keep {n p : ℕ} (h : Grows n e e') (hl : e.lookup l = some p) :
    e'.lookup l = some p := h.2.2.1 l p hl

theorem Grows.old (h : Grows n e e') (hl : l.index < n) : e'.lookup l = e.lookup l :=
  h.2.2.2 l hl

theorem Grows.refl (h : e.Numbered) : Grows n e e :=
  ⟨h,le_refl _,fun _ _ h => h,fun _ _ => rfl⟩

theorem Grows.trans {n m : ℕ} (h : Grows n e e') (h' : Grows m e' e'') (hm : n ≤ m) :
    Grows n e e'' :=
  ⟨h'.numbered,h.count.trans h'.count,fun _ _ hl => h'.keep (h.keep hl),
    fun _ hl => (h'.old (by omega)).trans (h.old hl)⟩

theorem Grows.bind (hn : e.Numbered) (hl : e.lookup l = none) (hi : l.index ≤ e.labels.length)
    (hnl : n ≤ l.index) : Grows n e (e.bindLabel enc l) := by
  have hlen := length_bindLabel enc hl
  refine ⟨?_,by omega,?_,?_⟩
  · intro l' p h
    rw [lookup_bindLabel] at h
    split_ifs at h with heq
    · rw [heq, hlen]
      omega
    · have := hn l' p h
      omega
  · intro l' p h
    have hne : l' ≠ l := by
      rintro rfl
      rw [hl] at h
      cases h
    rw [lookup_bindLabel, if_neg hne, h]
  · intro l' h
    have hne : l' ≠ l := by
      rintro rfl
      omega
    rw [lookup_bindLabel, if_neg hne]

theorem Numbered.newLabel (h : e.Numbered) (kind : LabelKind) : e.lookup (e.newLabel kind) = none := by
  cases hl : e.lookup (e.newLabel kind) with
  | none => rfl
  | some p => exact absurd (h _ p hl) (lt_irrefl _)

end Emitter

open Emitter

def LabelKind.isIf : LabelKind → Bool
  | .ifDone => true
  | .ifElse => true
  | _ => false

/-- Emitting the statements binds new labels only, none of them an `If` label of
the current number unless an `If` comes first. -/
structure BindsFresh (enc : Encoding) (ss : List Stmt) (e : Emitter) : Prop where
  grows : Grows e.labels.length e (emitStmts enc ss e)
  ifFree : meetsIf ss = false → ∀ kind : LabelKind, kind.isIf →
    (emitStmts enc ss e).lookup (e.newLabel kind) = e.lookup (e.newLabel kind)
  binds : allPlain ss = false → e.labels.length < (emitStmts enc ss e).labels.length

section
variable {enc : Encoding} {test : Test} {e : Emitter}

/-- Between the parts of a branch that captures nothing: the table grows, and
each of its labels is new when it is bound. -/
theorem branch_fresh {condition thenOps elseOps : List Stmt} {e₁ e₂ e₃ e₄ e₅ : Emitter}
    (hn : e.Numbered) (hm : meetsIf (condition++thenOps) = false)
    (hc : ∀ e, e.Numbered → BindsFresh enc condition e)
    (ht : ∀ e, e.Numbered → BindsFresh enc thenOps e)
    (he : ∀ e, e.Numbered → BindsFresh enc elseOps e) (h₁ : e₁ = emitStmts enc condition e)
    (h₂ : e₂ = e₁.emitTest test (e.newLabel .ifElse)) (h₃ : e₃ = emitStmts enc thenOps e₂)
    (h₄ : e₄ = (e₃.emit [.jmp (e.newLabel .ifDone)]).bindLabel enc (e.newLabel .ifElse))
    (h₅ : e₅ = emitStmts enc elseOps e₄) :
    Grows e.labels.length e e₁ ∧ Grows e₂.labels.length e₂ e₃ ∧
      Grows e.labels.length e₃ e₄ ∧ e.labels.length < e₄.labels.length ∧
      Grows e₄.labels.length e₄ e₅ ∧
      Grows e.labels.length e₅ (e₅.bindLabel enc (e.newLabel .ifDone)) := by
  rw [meetsIf_append, Bool.or_eq_false_iff] at hm
  have hf₁ := hc e hn
  have hl₂ : e₂.labels = (emitStmts enc condition e).labels := by
    rw [h₂, h₁]
    rfl
  have hlook₂ : ∀ l, e₂.lookup l = (emitStmts enc condition e).lookup l := by
    intro l
    rw [lookup, lookup, hl₂]
  have hn₂ : e₂.Numbered := by
    rw [h₂, h₁]
    exact hf₁.grows.numbered
  have hf₃ := ht e₂ hn₂
  have hfree : ∀ kind : LabelKind, kind.isIf → e₃.lookup (e.newLabel kind) = none := by
    intro kind hk
    have h₂' : e₂.lookup (e.newLabel kind) = none := by
      rw [hlook₂, hf₁.ifFree hm.1 kind hk, hn.newLabel]
    rw [h₃]
    cases hp : allPlain condition with
    | true =>
      -- nothing is bound yet: the then branch starts at the same number
      have hlabel : e₂.newLabel kind = e.newLabel kind := by
        rw [newLabel, newLabel, hl₂, labels_of_allPlain enc hp]
      rw [hp, Bool.true_and] at hm
      rw [← hlabel, hf₃.ifFree hm.2 kind hk, hlabel, h₂']
    | false =>
      have hlt := hf₁.binds hp
      rw [← hl₂] at hlt
      rw [hf₃.grows.old hlt, h₂']
  have hcount : e.labels.length ≤ e₃.labels.length := by
    have h₂₃ := hf₃.grows.count
    have h₀₁ := hf₁.grows.count
    rw [← hl₂] at h₀₁
    rw [h₃]
    omega
  have hn₃ : e₃.Numbered := h₃ ▸ hf₃.grows.numbered
  have hg₄ : Grows e.labels.length e₃ e₄ := by
    rw [h₄]
    exact Grows.bind enc (e := e₃.emit _) hn₃ (hfree .ifElse rfl) hcount (le_refl _)
  have hlt₄ : e.labels.length < e₄.labels.length := by
    have hlen : e₄.labels.length = e₃.labels.length+1 := by
      rw [h₄]
      exact length_bindLabel enc (hfree .ifElse rfl)
    omega
  have hf₅ := he e₄ hg₄.numbered
  have hdone : e₅.lookup (e.newLabel .ifDone) = none := by
    rw [h₅, hf₅.grows.old hlt₄, h₄, lookup_bindLabel, if_neg (by simp [newLabel])]
    exact hfree .ifDone rfl
  have hle₅ := hf₅.grows.count
  rw [← h₅] at hle₅
  refine ⟨h₁ ▸ hf₁.grows,h₃ ▸ hf₃.grows,hg₄,hlt₄,h₅ ▸ hf₅.grows,?_⟩
  exact Grows.bind enc (h₅ ▸ hf₅.grows.numbered) hdone (by simp [newLabel]; omega) (le_refl _)

theorem loop_fresh {kind : LoopKind} {condition body : List Stmt}
    {e₁ e₂ e₃ e₄ : Emitter} (hn : e.Numbered) (hc : ∀ e, e.Numbered → BindsFresh enc condition e)
    (hb : ∀ e, e.Numbered → BindsFresh enc body e)
    (h₁ : e₁ = e.bindLabel enc (e.newLabel kind.start)) (h₂ : e₂ = emitStmts enc condition e₁)
    (h₃ : e₃ = e₂.emitTest test (e.newLabel kind.done)) (h₄ : e₄ = emitStmts enc body e₃) :
    Grows e.labels.length e e₁ ∧ e.labels.length < e₁.labels.length ∧
      Grows e₁.labels.length e₁ e₂ ∧ Grows e₃.labels.length e₃ e₄ ∧
      Grows e.labels.length e₄
        ((e₄.emit [.jmp (e.newLabel kind.start)]).bindLabel enc (e.newLabel kind.done)) := by
  have hstart := hn.newLabel kind.start
  have hg₁ : Grows e.labels.length e e₁ := by
    rw [h₁]
    exact Grows.bind enc hn hstart (le_refl _) (le_refl _)
  have hlt₁ : e.labels.length < e₁.labels.length := by
    rw [h₁, length_bindLabel enc hstart]
    omega
  have hg₂ := (hc e₁ hg₁.numbered).grows
  rw [← h₂] at hg₂
  have hn₃ : e₃.Numbered := by
    rw [h₃]
    exact hg₂.numbered
  have hg₄ := (hb e₃ hn₃).grows
  rw [← h₄] at hg₄
  have hlt₃ : e₁.labels.length ≤ e₃.labels.length := by
    rw [h₃]
    exact hg₂.count
  have hdone : e₄.lookup (e.newLabel kind.done) = none := by
    rw [hg₄.old (by simp [newLabel]; omega), h₃]
    change e₂.lookup _ = none
    rw [hg₂.old hlt₁, h₁, lookup_bindLabel, if_neg, hn.newLabel]
    cases kind <;> simp [newLabel, LoopKind.start, LoopKind.done]
  refine ⟨hg₁,hlt₁,hg₂,hg₄,?_⟩
  have hle₄ := hg₄.count
  exact Grows.bind enc (e := e₄.emit _) hg₄.numbered hdone
    (by simp [newLabel, emit]; omega) (le_refl _)

theorem skip_fresh (enc : Encoding) (load set : List Instr) (hn : e.Numbered) :
    Grows e.labels.length e (emitStmt enc (.skip load set) e) ∧
      e.labels.length < (emitStmt enc (.skip load set) e).labels.length := by
  have hdone := hn.newLabel .enumVariantTestDone
  constructor
  · exact Grows.bind enc (e := Emitter.emitCode _ set) hn hdone (le_refl _) (le_refl _)
  · exact lt_of_lt_of_eq (Nat.lt_succ_self _)
      (length_bindLabel enc (e := Emitter.emitCode _ set) hdone).symm

theorem bindsFresh (enc : Encoding) (hs : noCaptures ss) (hn : e.Numbered) :
    BindsFresh enc ss e := by
  induction ss using stmts_induction generalizing e with
  | nil => exact ⟨.refl hn,fun _ _ _ => rfl,nofun⟩
  | plain is rest ih =>
    have hf := ih hs (e := e.emitCode is) hn
    exact ⟨hf.grows,hf.ifFree,hf.binds⟩
  | skip load set rest ih =>
    obtain ⟨hg,hlt⟩ := skip_fresh enc load set hn
    have hf := ih hs hg.numbered
    refine ⟨hg.trans hf.grows hg.count,?_,fun _ => lt_of_lt_of_le hlt hf.grows.count⟩
    intro _ kind hk
    rw [emitStmts, hf.grows.old hlt]
    refine (lookup_bindLabel enc _ _ _).trans (if_neg ?_)
    rintro heq
    rw [show kind = .enumVariantTestDone from congrArg Label.kind heq] at hk
    cases hk
  | branch condition test thenOps elseOps rest hc ht he ih =>
    simp only [noCaptures, noCapture, Bool.and_eq_true, Bool.not_eq_true'] at hs
    obtain ⟨⟨⟨⟨hm,hsc⟩,hst⟩,hse⟩,hsr⟩ := hs
    obtain ⟨e₁,e₂,e₃,e₄,e₅,h₁,h₂,h₃,h₄,h₅,hb⟩ :=
      emitStmt_branch enc condition test thenOps elseOps e
    obtain ⟨hg₁,hg₃,hg₄,hlt,hg₅,hg₆⟩ := branch_fresh hn hm (fun _ => hc hsc) (fun _ => ht hst)
      (fun _ => he hse) h₁ h₂ h₃ h₄ h₅
    have hg₂ : Grows e.labels.length e e₂ := by
      rw [h₂]
      exact hg₁
    have hg : Grows e.labels.length e (emitStmt enc (.branch condition test thenOps elseOps) e) := by
      rw [hb]
      exact (((hg₂.trans hg₃ hg₂.count).trans hg₄ (le_refl _)).trans hg₅ hlt.le).trans hg₆ (le_refl _)
    have hf := ih hsr hg.numbered
    refine ⟨hg.trans hf.grows hg.count,nofun,fun _ => ?_⟩
    have hc₅ := hg₅.count
    have hc₆ := hg₆.count
    have hcr := hf.grows.count
    rw [hb] at hcr
    rw [emitStmts, hb]
    omega
  | loop kind condition test body rest hc hb ih =>
    simp only [noCaptures, noCapture, Bool.and_eq_true] at hs
    obtain ⟨⟨hsc,hsb⟩,hsr⟩ := hs
    obtain ⟨e₁,e₂,e₃,e₄,h₁,h₂,h₃,h₄,hl⟩ := emitStmt_loop enc kind condition test body e
    obtain ⟨hg₁,hlt,hg₂,hg₄,hg₅⟩ := loop_fresh hn (fun _ => hc hsc) (fun _ => hb hsb) h₁ h₂ h₃ h₄
    have hg₃ : Grows e₁.labels.length e₁ e₃ := by
      rw [h₃]
      exact hg₂
    have hg₁₄ := hg₃.trans hg₄ hg₃.count
    have hg : Grows e.labels.length e (emitStmt enc (.loop kind condition test body) e) := by
      rw [hl]
      exact (hg₁.trans hg₁₄ hlt.le).trans hg₅ (le_refl _)
    have hlt' : e.labels.length < (emitStmt enc (.loop kind condition test body) e).labels.length := by
      have hc₄ := hg₁₄.count
      have hc₅ := hg₅.count
      rw [hl]
      omega
    have hf := ih hsr hg.numbered
    refine ⟨hg.trans hf.grows hg.count,?_,fun _ => lt_of_lt_of_le hlt' hf.grows.count⟩
    intro _ k hk
    rw [emitStmts, hf.grows.old hlt', hl, lookup_bindLabel, if_neg]
    · change e₄.lookup _ = _
      rw [hg₁₄.old hlt, h₁, lookup_bindLabel, if_neg]
      rintro heq
      rw [show k = kind.start from congrArg Label.kind heq] at hk
      cases kind <;> cases hk
    · rintro heq
      rw [show k = kind.done from congrArg Label.kind heq] at hk
      cases kind <;> cases hk

end

end Wrela.Codegen

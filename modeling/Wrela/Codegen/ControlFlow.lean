import Wrela.Codegen.Labels

/-!
# Compiled control flow

The emitted code of a body resolves to the code with every jump at its own
construct exactly when no `If` captures the labels of another one, and then
runs as the statements prescribe. At an item of a labelled code, once its jumps
are resolved, a jump goes to where its label stands.
-/

set_option autoImplicit false

namespace Wrela.Codegen
open X86 Ir Emitter List Encoding

variable {ss : List Stmt}

section
variable {enc : Encoding} {labels : Label → Option ℕ} {l : Label} {rel : ℤ} {e : Emitter}

theorem relative_eq_ok {nextIP : ℕ} (h : relative labels l nextIP = .ok rel) :
    ∃ target, labels l = some target ∧ rel = (target:ℤ)-nextIP := by
  rw [relative] at h
  cases hl : labels l with
  | none => rw [hl] at h; cases h
  | some target =>
    rw [hl] at h
    simp only at h
    split_ifs at h
    cases h
    exact ⟨target,rfl,rfl⟩

theorem resolved_jmp {pos : ℕ} (h : resolveJumps enc labels pos [.jmp l] = .ok [.jmp rel]) :
    ∃ target, labels l = some target ∧ rel = (target:ℤ)-(pos+5 : ℕ) := by
  simp only [resolveJumps, bind_eq_ok_iff, resolveItem] at h
  obtain ⟨a,ha,x,hx,heq⟩ := h
  cases hx
  cases heq
  cases hr : relative labels l (pos+5) with
  | error d => rw [hr] at ha; cases ha
  | ok rel' =>
    rw [hr] at ha
    cases ha
    exact relative_eq_ok hr

theorem length_jumpFalse {τ σ : Type} (test : Test) (x : τ) (y : σ) :
    (test.jumpFalse x).length = (test.jumpFalse y).length := by
  simpa using congrArg List.length (shape_jumpFalse test x y)

theorem Resolves.test {test : Test} {target : Label} {x : List (Item ℤ)}
    (h : Resolves enc labels (e.emitTest test target)
      (x++test.code.map .instr++test.jumpFalse rel)) : Resolves enc labels e x := by
  have hcode := (Resolves.emitted h (length_jumpFalse test _ _)).1
  exact (Resolves.emitted hcode (by simp)).1

/-- If the emitted code resolves to the code of the statements, no `If` captures
the labels of another, and the end of a leading `If` is where its own label
stands. -/
theorem noCaptures_of_resolves {r : List (Item ℤ)}
    (h : Resolves enc labels (emitStmts enc ss e) (r++asmStmts enc ss)) :
    noCaptures ss ∧ (meetsIf ss → ∃ q ≤ enc.size (emitStmts enc ss e).code,
      labels (e.newLabel .ifDone) = some q) := by
  induction ss using stmts_induction generalizing e r with
  | nil => exact ⟨rfl,fun hm => by cases hm⟩
  | plain is rest ih =>
    rw [asmStmts, ← append_assoc] at h
    exact ih h
  | skip load set rest ih =>
    rw [asmStmts, ← append_assoc] at h
    exact ⟨(ih h).1,fun hm => by cases hm⟩
  | branch condition test thenOps elseOps rest hc ht he ih =>
    obtain ⟨e₁,e₂,e₃,e₄,e₅,h₁,h₂,h₃,h₄,h₅,hb⟩ :=
      emitStmt_branch enc condition test thenOps elseOps e
    rw [emitStmts, hb, asmStmts, ← append_assoc] at h
    have r₅ : Resolves enc labels e₅ (r++asmStmt enc (.branch condition test thenOps elseOps)) :=
      h.before rfl
    rw [asmStmt] at r₅
    simp only [← append_assoc] at r₅
    rw [h₅] at r₅
    have r₄ := r₅.before rfl
    have r₃ := r₄
    rw [h₄, resolves_bind] at r₃
    obtain ⟨r₃,hjmp⟩ := r₃.emitted rfl
    rw [h₃] at r₃
    have r₂ := r₃.before rfl
    have r₁ := r₂
    rw [h₂] at r₁
    have r₁ := r₁.test
    rw [h₁] at r₁
    obtain ⟨target,hdone,htarget⟩ := resolved_jmp hjmp
    have hs₅ := emitStmts_size enc elseOps e₄
    have hs₃ := emitStmts_size enc thenOps e₂
    have hs₄ : enc.size e₄.code = enc.size e₃.code+5 := by
      rw [h₄, Emitter.bindLabel_code, Emitter.emit_code, size_append]
      rfl
    have hs₂ : enc.size e₁.code ≤ enc.size e₂.code := by
      rw [h₂, Emitter.emitTest_code, size_append, size_append]
      omega
    rw [← h₃] at hs₃
    have hs := emitStmts_size enc rest (e₅.bindLabel enc (e.newLabel .ifDone))
    rw [Emitter.bindLabel_code, h₅, hs₅] at hs
    -- an `If` that comes first inside would have resolved its end to this one's
    have hmeets : meetsIf (condition++thenOps) = false := by
      rw [meetsIf_append, Bool.eq_false_iff]
      intro hm
      rcases Bool.or_eq_true_iff.mp hm with hm | hm
      · obtain ⟨q,hq,hl⟩ := (hc r₁).2 hm
        rw [hdone] at hl
        cases hl
        rw [← h₁] at hq
        omega
      · obtain ⟨hplain,hm⟩ := Bool.and_eq_true_iff.mp hm
        obtain ⟨q,hq,hl⟩ := (ht r₃).2 hm
        have hlabel : e₂.newLabel .ifDone = e.newLabel .ifDone := by
          rw [h₂, h₁, Emitter.newLabel, Emitter.newLabel]
          exact congrArg (fun ls => Label.mk _ (List.length ls)) (labels_of_allPlain enc hplain e)
        rw [hlabel, hdone] at hl
        cases hl
        rw [← h₃] at hq
        omega
    refine ⟨?_,fun _ => ⟨target,?_,hdone⟩⟩
    · simp only [noCaptures, noCapture, hmeets, (hc r₁).1, (ht r₃).1, (he r₅).1, (ih h).1]
      rfl
    · rw [emitStmts, hb, h₅, hs]
      omega
  | loop kind condition test body rest hc hb ih =>
    obtain ⟨e₁,e₂,e₃,e₄,h₁,h₂,h₃,h₄,hb'⟩ := emitStmt_loop enc kind condition test body e
    rw [emitStmts, hb', asmStmts, ← append_assoc] at h
    have r₄ := h.before rfl
    rw [resolves_bind, asmStmt] at r₄
    simp only [← append_assoc] at r₄
    obtain ⟨r₄,-⟩ := r₄.emitted rfl
    rw [h₄] at r₄
    have r₂ := r₄.before rfl
    rw [h₃] at r₂
    have r₂ := r₂.test
    rw [h₂] at r₂
    refine ⟨?_,fun hm => by cases hm⟩
    simp only [noCaptures, noCapture, (hc r₂).1, (hb r₄).1, (ih h).1]
    rfl

end

section
variable {enc : Encoding} {labels : Label → Option ℕ} {l : Label} {e : Emitter} {r : List (Item ℤ)}
  {target : ℕ}

section
variable (hl : labels l = some target)
include hl

theorem relative_of_bound {α : Type} {f : ℤ → α} {nextIP : ℕ} {a : α}
    (h : (relative labels l nextIP).map f = .ok a) : a = f ((target:ℤ)-nextIP) := by
  cases hr : relative labels l nextIP with
  | error d => rw [hr] at h; cases h
  | ok rel =>
    obtain ⟨t,ht,rfl⟩ := relative_eq_ok hr
    rw [hl] at ht
    cases ht
    rw [hr] at h
    cases h
    rfl

theorem Resolves.jmp (h : Resolves enc labels (e.emit [.jmp l]) r) :
    ∃ x, Resolves enc labels e x ∧ r = x++[.jmp ((target:ℤ)-(enc.size e.code+5 : ℕ))] := by
  obtain ⟨x,y,hx,hy,rfl⟩ := resolves_emit.mp h
  simp only [resolveJumps, bind_eq_ok_iff, resolveItem] at hy
  obtain ⟨a,ha,_,⟨⟩,⟨⟩⟩ := hy
  rw [relative_of_bound hl ha]
  exact ⟨x,hx,rfl⟩

theorem resolved_jumpFalse {test : Test} {pos : ℕ} {y : List (Item ℤ)}
    (h : resolveJumps enc labels pos (test.jumpFalse l) = .ok y) :
    y = test.jumpFalse ((target:ℤ)-(pos+test.jumpSize : ℕ)) := by
  cases test with
  | const v =>
    rw [Test.jumpFalse] at h ⊢
    rw [Test.jumpSize]
    split_ifs at h ⊢ with hv
    · simp only [resolveJumps, bind_eq_ok_iff, resolveItem] at h
      obtain ⟨a,ha,_,⟨⟩,⟨⟩⟩ := h
      rw [relative_of_bound hl ha]
    · cases h
      rfl
  | stored slot type | bytes iterable index =>
    simp only [Test.jumpFalse, resolveJumps, bind_eq_ok_iff, resolveItem] at h
    obtain ⟨a,ha,_,⟨⟩,⟨⟩⟩ := h
    rw [relative_of_bound hl ha]
    rfl

theorem Resolves.emitTest {test : Test} (h : Resolves enc labels (e.emitTest test l) r) :
    ∃ x, Resolves enc labels e x ∧ r = x++test.code.map .instr++test.jumpFalse
      ((target:ℤ)-(enc.size (e.emitTest test l).code : ℕ)) := by
  obtain ⟨z,y,hz,hy,rfl⟩ := resolves_emit.mp h
  obtain ⟨x,w,hx,hw,rfl⟩ := resolves_emit.mp hz
  rw [resolveJumps_instr] at hw
  cases hw
  refine ⟨x,hx,?_⟩
  rw [resolved_jumpFalse hl hy, Emitter.emitTest_code, size_append, Test.size_jumpFalse]
  rfl

end

theorem resolved_skip {load set : List Instr} (hl : labels (e.newLabel .enumVariantTestDone) =
      some (enc.size (emitStmt enc (.skip load set) e).code))
    (h : Resolves enc labels (emitStmt enc (.skip load set) e) r) :
    ∃ x, Resolves enc labels e x ∧ r = x++asmStmt enc (.skip load set) := by
  rw [emitStmt] at h hl
  obtain ⟨z,y,hz,hy,rfl⟩ := resolves_emit.mp (resolves_bind.mp h)
  obtain ⟨w,v,hw,hv,rfl⟩ := resolves_emit.mp hz
  obtain ⟨x,u,hx,hu,rfl⟩ := resolves_emit.mp hw
  rw [resolveJumps_instr] at hu hy
  cases hu
  cases hy
  simp only [resolveJumps, bind_eq_ok_iff, resolveItem] at hv
  obtain ⟨a,ha,_,⟨⟩,⟨⟩⟩ := hv
  have hrel : ∀ n : ℕ, n = enc.size (e.code++load.map .instr)+6+
      enc.size (set.map (Item.instr (τ := Label))) →
      (n:ℤ)-(enc.size (e.code++load.map .instr)+6 : ℕ) = enc.size (set.map (Item.instr (τ := ℤ))) := by
    intro n hn
    rw [hn, size_instr enc (σ := ℤ) set]
    omega
  rw [relative_of_bound hl ha, Emitter.emitCode_code, hrel]
  · exact ⟨x,hx,by simp [asmStmt]⟩
  · simp only [Emitter.bindLabel_code, Emitter.emitCode_code, Emitter.emit_code,
      size_append, size_cons, size_nil, itemSize]

def Kept (labels : Label → Option ℕ) (e : Emitter) : Prop :=
  ∀ l p, e.lookup l = some p → labels l = some p

theorem Kept.before {n : ℕ} {e' : Emitter} (h : Kept labels e') (hg : Grows n e e') :
    Kept labels e := fun l p hp => h l p (hg.keep hp)

/-- Where nothing is captured, the code resolves to the code of the statements. -/
theorem resolves_of_noCaptures (hs : noCaptures ss) (hn : e.Numbered)
    (hl : Kept labels (emitStmts enc ss e)) (h : Resolves enc labels (emitStmts enc ss e) r) :
    ∃ x, Resolves enc labels e x ∧ r = x++asmStmts enc ss := by
  induction ss using stmts_induction generalizing e r with
  | nil => exact ⟨r,h,by rw [asmStmts, append_nil]⟩
  | plain is rest ih =>
    obtain ⟨y,hy,rfl⟩ := ih hs (e := e.emitCode is) hn hl h
    obtain ⟨x,z,hx,hz,rfl⟩ := resolves_emit.mp hy
    rw [resolveJumps_instr] at hz
    cases hz
    exact ⟨x,hx,by rw [asmStmts, asmStmt, append_assoc]⟩
  | skip load set rest ih =>
    have hg : Grows e.labels.length e (emitStmt enc (.skip load set) e) :=
      (skip_fresh enc load set hn).1
    have hsr : noCaptures rest := hs
    have hrest := (bindsFresh enc hsr hg.numbered).grows
    obtain ⟨y,hy,rfl⟩ := ih hsr hg.numbered hl h
    have hdone : labels (e.newLabel .enumVariantTestDone) =
        some (enc.size (emitStmt enc (.skip load set) e).code) := by
      refine hl _ _ (hrest.keep ?_)
      rw [emitStmt]
      exact (lookup_bindLabel enc _ _ _).trans (if_pos rfl)
    obtain ⟨x,hx,rfl⟩ := resolved_skip hdone hy
    exact ⟨x,hx,by rw [asmStmts, append_assoc]⟩
  | branch condition test thenOps elseOps rest hc ht he ih =>
    simp only [noCaptures, noCapture, Bool.and_eq_true, Bool.not_eq_true'] at hs
    obtain ⟨⟨⟨⟨hm,hsc⟩,hst⟩,hse⟩,hsr⟩ := hs
    obtain ⟨e₁,e₂,e₃,e₄,e₅,h₁,h₂,h₃,h₄,h₅,hb⟩ :=
      emitStmt_branch enc condition test thenOps elseOps e
    obtain ⟨hg₁,hg₃,hg₄,hlt,hg₅,hg₆⟩ := branch_fresh hn hm (fun _ => bindsFresh enc hsc)
      (fun _ => bindsFresh enc hst) (fun _ => bindsFresh enc hse) h₁ h₂ h₃ h₄ h₅
    rw [emitStmts, hb] at h hl
    have hrest := (bindsFresh enc hsr hg₆.numbered).grows
    have hl₆ := hl.before hrest
    have hl₅ := hl₆.before hg₆
    have hl₄ := hl₅.before hg₅
    have hl₃ := hl₄.before hg₄
    have hl₁ : Kept labels e₁ := by
      have := hl₃.before hg₃
      rw [h₂] at this
      exact this
    have hdone : labels (e.newLabel .ifDone) = some (enc.size e₅.code) :=
      hl₆ _ _ (by rw [lookup_bindLabel, if_pos rfl])
    have helse : labels (e.newLabel .ifElse) = some (enc.size e₄.code) :=
      hl₄ _ _ (by rw [h₄, lookup_bindLabel, if_pos rfl]; rfl)
    obtain ⟨r₅,hr₅,rfl⟩ := ih hsr hg₆.numbered hl h
    rw [resolves_bind, h₅] at hr₅
    obtain ⟨r₄,hr₄,rfl⟩ := he hse hg₄.numbered (h₅ ▸ hl₅) hr₅
    rw [h₄, resolves_bind] at hr₄
    obtain ⟨r₃,hr₃,rfl⟩ := hr₄.jmp hdone
    have hn₂ : e₂.Numbered := by
      rw [h₂]
      exact hg₁.numbered
    rw [h₃] at hr₃
    obtain ⟨r₂,hr₂,rfl⟩ := ht hst hn₂ (h₃ ▸ hl₃) hr₃
    rw [h₂] at hr₂
    obtain ⟨r₁,hr₁,rfl⟩ := hr₂.emitTest helse
    rw [h₁] at hr₁
    obtain ⟨x,hx,rfl⟩ := hc hsc hn (h₁ ▸ hl₁) hr₁
    have hs₃ : enc.size e₃.code = enc.size e₂.code+enc.size (asmStmts enc thenOps) := by
      rw [h₃, emitStmts_size]
    have hs₄ : enc.size e₄.code = enc.size e₃.code+5 := by
      rw [h₄, Emitter.bindLabel_code, Emitter.emit_code, size_append]
      rfl
    have hs₅ : enc.size e₅.code = enc.size e₄.code+enc.size (asmStmts enc elseOps) := by
      rw [h₅, emitStmts_size]
    have hrel : (enc.size e₄.code:ℤ)-(enc.size e₂.code:ℕ) =
        (enc.size (asmStmts enc thenOps):ℤ)+5 := by omega
    have hrel' : (enc.size e₅.code:ℤ)-(enc.size e₃.code+5 : ℕ) = enc.size (asmStmts enc elseOps) := by
      omega
    rw [← h₂, hrel, hrel']
    refine ⟨x,hx,?_⟩
    rw [asmStmts, asmStmt]
    simp
  | loop kind condition test body rest hc hb ih =>
    simp only [noCaptures, noCapture, Bool.and_eq_true] at hs
    obtain ⟨⟨hsc,hsb⟩,hsr⟩ := hs
    obtain ⟨e₁,e₂,e₃,e₄,h₁,h₂,h₃,h₄,hloop⟩ := emitStmt_loop enc kind condition test body e
    obtain ⟨hg₁,hlt,hg₂,hg₄,hg₅⟩ := loop_fresh hn (fun _ => bindsFresh enc hsc)
      (fun _ => bindsFresh enc hsb) h₁ h₂ h₃ h₄
    rw [emitStmts, hloop] at h hl
    have hrest := (bindsFresh enc hsr hg₅.numbered).grows
    have hl₅ := hl.before hrest
    have hl₄ := hl₅.before hg₅
    have hl₂ : Kept labels e₂ := by
      have := hl₄.before hg₄
      rw [h₃] at this
      exact this
    have hstart : labels (e.newLabel kind.start) = some (enc.size e.code) := by
      refine hl₂ _ _ (hg₂.keep ?_)
      rw [h₁, lookup_bindLabel, if_pos rfl]
    have hdone : labels (e.newLabel kind.done) = some (enc.size e₄.code+5) := by
      refine hl₅ _ _ ?_
      rw [lookup_bindLabel, if_pos rfl, Emitter.emit_code, size_append]
      rfl
    obtain ⟨r₅,hr₅,rfl⟩ := ih hsr hg₅.numbered hl h
    obtain ⟨r₄,hr₄,rfl⟩ := (resolves_bind.mp hr₅).jmp hstart
    have hn₃ : e₃.Numbered := by
      rw [h₃]
      exact hg₂.numbered
    rw [h₄] at hr₄
    obtain ⟨r₃,hr₃,rfl⟩ := hb hsb hn₃ (h₄ ▸ hl₄) hr₄
    rw [h₃] at hr₃
    obtain ⟨r₂,hr₂,rfl⟩ := hr₃.emitTest hdone
    rw [h₂] at hr₂
    obtain ⟨x,hx,rfl⟩ := hc hsc hg₁.numbered (h₂ ▸ hl₂) hr₂
    rw [h₁, resolves_bind] at hx
    have hs₄ : enc.size e₄.code = enc.size e₃.code+enc.size (asmStmts enc body) := by
      rw [h₄, emitStmts_size]
    have hs₂ : enc.size e₂.code = enc.size e.code+enc.size (asmStmts enc condition) := by
      rw [h₂, emitStmts_size, h₁, Emitter.bindLabel_code]
    have hs₃ : enc.size e₃.code = enc.size e₂.code+
        enc.size (test.code.map (Item.instr (τ := ℤ)))+test.jumpSize := by
      rw [h₃, Emitter.emitTest_code, size_append, size_append,
        Test.size_jumpFalse, size_instr]
    have hrel : ((enc.size e₄.code+5 : ℕ):ℤ)-(enc.size e₃.code:ℕ) =
        (enc.size (asmStmts enc body):ℤ)+5 := by omega
    have hrel' : (enc.size e.code:ℤ)-(enc.size e₄.code+5 : ℕ) =
        -((enc.size (asmStmts enc condition++test.code.map (Item.instr (τ := ℤ))):ℤ)+
          test.jumpSize+enc.size (asmStmts enc body)+5) := by
      rw [size_append]
      omega
    rw [← h₃, hrel, hrel']
    refine ⟨x,hx,?_⟩
    rw [asmStmts, asmStmt]
    simp

end

/-- Every jump of the code goes to the position of its own construct, and the
code halts exactly in the states the statements end in. -/
def Faithful (enc : Encoding) (ss : List Stmt) (code : List (Item ℤ)) : Prop :=
  code = asmStmts enc ss ∧
    ∀ s, (∀ n, execStmts n ss s ≠ .error .oversized) →
      ∀ t, (∃ n, execStmts n ss s = .ok t) ↔ enc.Halts code s t

theorem control_flow_faithful_iff (enc : Encoding) (frame : Frame) (ops : List Op) {ss : List Stmt}
    {code : List (Item ℤ)} (hl : lowerOps frame ops = .ok ss)
    (hc : compileBody enc frame ops = .ok code) : Faithful enc ss code ↔ noCaptures ss := by
  have hbody : Resolves enc (emitStmts enc ss (Emitter.bindLabel enc ⟨[],[]⟩ ⟨.block,0⟩)).lookup
      (emitStmts enc ss (Emitter.bindLabel enc ⟨[],[]⟩ ⟨.block,0⟩)) code := by
    rw [compileBody, hl] at hc
    exact hc
  constructor
  · rintro ⟨rfl,-⟩
    exact (noCaptures_of_resolves (r := []) hbody).1
  · intro hs
    have hn : (Emitter.bindLabel enc ⟨[],[]⟩ ⟨.block,0⟩).Numbered := by
      intro l p h
      rw [lookup_bindLabel] at h
      split_ifs at h with heq
      · rw [heq]
        exact Nat.succ_pos _
      · cases h
    obtain ⟨x,hx,rfl⟩ := resolves_of_noCaptures hs hn (fun _ _ h => h) hbody
    -- nothing is emitted in front of the body
    have hnil : x = [] := by
      cases hx
      rfl
    subst hnil
    exact ⟨rfl,fun s hfit t => asm_faithful enc hfit t⟩

def fixedEncoding : Encoding := ⟨fun _ => 7,fun _ => by decide⟩

def constant (v : Word) : Value := ⟨0,.prim .bool,some v⟩

/-- `if outer { if inner {} else { rax = 1 } } else { rax = 2 }`. -/
def nestedIf (outer inner : Word) : List Op :=
  [.ifOp [] (constant outer)
    [.ifOp [] (constant inner) [] [.plain [.movImm .rax 1]]] [.plain [.movImm .rax 2]]]

/-- `if outer { rax = 1 } else { if inner { rax = 2 } else {} }`. -/
def elseIf (outer inner : Word) : List Op :=
  [.ifOp [] (constant outer) [.plain [.movImm .rax 1]]
    [.ifOp [] (constant inner) [.plain [.movImm .rax 2]] []]]

def emptyFrame : Frame := ⟨fun _ => none,fun _ => none⟩

theorem control_flow_faithful_elseIf :
    ∃ ss code, lowerOps emptyFrame (elseIf 0 1) = .ok ss ∧
      compileBody fixedEncoding emptyFrame (elseIf 0 1) = .ok code ∧
      Faithful fixedEncoding ss code :=
  ⟨_,_,rfl,rfl,(control_flow_faithful_iff fixedEncoding emptyFrame (elseIf 0 1) rfl rfl).mpr rfl⟩

/-- The false inner condition jumps into the else branch of the outer `If`. -/
theorem control_flow_captured :
    ∃ ss code, lowerOps emptyFrame (nestedIf 1 0) = .ok ss ∧
      compileBody fixedEncoding emptyFrame (nestedIf 1 0) = .ok code ∧
      ∃ s t t' : State, execStmts 5 ss s = .ok t ∧ fixedEncoding.Halts code s t' ∧
        t.reg .rax = 1 ∧ t'.reg .rax = 2 :=
  ⟨_,_,rfl,rfl,⟨fun _ => 0,fun _ => 0,none⟩,_,_,rfl,⟨2,rfl⟩,rfl,rfl⟩

section
variable {enc : Encoding} {labels : Label → Option ℕ} {items : List (Item Label)}
  {code : List (Item ℤ)} {s t : State} {pos target : ℕ} {is : List (Item Label)} {l : Label}

theorem resolveItem_size {i : Item Label} {x : Item ℤ}
    (h : resolveItem labels pos i = .ok x) : enc.itemSize x = enc.itemSize i := by
  cases i with
  | instr i =>
    cases h
    rfl
  | jmp l | jcc cond l =>
    obtain ⟨rel,-,rfl⟩ := map_eq_ok h
    rfl

theorem resolveJumps_size {r : List (Item ℤ)}
    (h : resolveJumps enc labels pos is = .ok r) : enc.size r = enc.size is := by
  induction is generalizing pos r with
  | nil =>
    cases h
    rfl
  | cons i is ih =>
    obtain ⟨x,hx,h⟩ := bind_eq_ok h
    obtain ⟨rest,hr,h⟩ := bind_eq_ok h
    cases h
    rw [size_cons, size_cons, resolveItem_size hx, ih hr]

def jumpTarget {τ : Type} : Item τ → Option τ
  | .instr _ => none
  | .jmp l => some l
  | .jcc _ l => some l

theorem resolveJumps_ok (hnear : pos+enc.size is < 2^31)
    (hbound : ∀ l ∈ is.filterMap jumpTarget, ∃ target < 2^31, labels l = some target) :
    ∃ r, resolveJumps enc labels pos is = .ok r := by
  have hrel : ∀ l nextIP, nextIP < 2^31 → (∃ target < 2^31, labels l = some target) →
      ∃ rel, relative labels l nextIP = .ok rel := by
    rintro l nextIP hip ⟨target,htarget,hl⟩
    refine ⟨(target:ℤ)-nextIP,?_⟩
    simp only [relative, hl]
    rw [if_neg (by omega)]
  induction is generalizing pos with
  | nil => exact ⟨[],rfl⟩
  | cons i is ih =>
    rw [size_cons] at hnear
    obtain ⟨rest,hrest⟩ : ∃ r, resolveJumps enc labels (pos+enc.itemSize i) is = .ok r := by
      apply ih (by omega)
      intro l hl
      apply hbound l
      rw [List.mem_filterMap] at hl ⊢
      obtain ⟨j,hj,hl⟩ := hl
      exact ⟨j,List.mem_cons_of_mem _ hj,hl⟩
    obtain ⟨x,hx⟩ : ∃ x, resolveItem labels pos i = .ok x := by
      cases i with
      | instr i => exact ⟨_,rfl⟩
      | jmp l =>
        obtain ⟨rel,hrel⟩ := hrel l (pos+5)
          (by simp only [itemSize] at hnear; omega) (hbound l (by simp [jumpTarget]))
        exact ⟨.jmp rel,by rw [resolveItem, hrel]; rfl⟩
      | jcc cond l =>
        obtain ⟨rel,hrel⟩ := hrel l (pos+6) (by simp only [itemSize] at hnear; omega)
          (hbound l (by simp [jumpTarget]))
        exact ⟨.jcc cond rel,by rw [resolveItem, hrel]; rfl⟩
    exact ⟨x::rest,by rw [resolveJumps, hx, hrest]; rfl⟩

def Stands (items pre frag : List (Item Label)) : Prop := pre++frag <+: items

instance (items pre frag : List (Item Label)) : Decidable (Stands items pre frag) :=
  inferInstanceAs (Decidable (_ <+: _))

theorem Stands.fragment {pre frag : List (Item Label)} (h : Stands items pre frag)
    (hres : resolveJumps enc labels 0 items = .ok code) :
    ∃ y, resolveJumps enc labels (enc.size pre) frag = .ok y ∧ enc.CodeAt code (enc.size pre) y := by
  obtain ⟨post,rfl⟩ := h
  obtain ⟨xy,z,hxy,-,rfl⟩ := resolveJumps_append.mp hres
  obtain ⟨x,y,hx,hy,rfl⟩ := resolveJumps_append.mp hxy
  rw [zero_add] at hy
  exact ⟨y,hy,x,z,rfl,resolveJumps_size hx⟩

variable {pre : List (Item Label)}

section
variable {is : List Instr} (h : Stands items pre (is.map .instr))
  (hres : resolveJumps enc labels 0 items = .ok code) (hr : X86.run s is = some t)
include h hres hr

theorem Stands.performs :
    enc.Performs code (enc.size pre, s) (enc.size (pre++is.map .instr), t) (runAccesses s is) := by
  obtain ⟨y,hy,hat⟩ := h.fragment hres
  rw [resolveJumps_instr] at hy
  cases hy
  rw [size_append, size_instr (σ := ℤ)]
  exact hat.performs hr

theorem Stands.run (hquiet : is.all Instr.quiet) :
    enc.Performs code (enc.size pre, s) (enc.size (pre++is.map .instr), t) [] :=
  runAccesses_quiet hquiet s ▸ h.performs hres hr

end

theorem Stands.jmp (h : Stands items pre [.jmp l])
    (hres : resolveJumps enc labels 0 items = .ok code) (hl : labels l = some target) :
    enc.Performs code (enc.size pre, s) (target, s) [] := by
  obtain ⟨y,hy,hat⟩ := h.fragment hres
  obtain ⟨x,hx,hy⟩ := bind_eq_ok hy
  cases hy
  rw [relative_of_bound hl hx] at hat
  have hstep : enc.step code (enc.size pre, s) = some (target, s) := by
    rw [hat.step_jmp]
    congr 2
    omega
  simpa [stepAccesses, hat.fetch] using Encoding.Performs.step hstep

theorem Stands.jcc {cond : UInt8} {f : Flags}
    (h : Stands items pre [.jcc cond l]) (hres : resolveJumps enc labels 0 items = .ok code)
    (hl : labels l = some target) (hf : s.flags = some f) :
    enc.Performs code (enc.size pre, s)
      (if holds cond f then target else enc.size (pre++[.jcc cond l]), s) [] := by
  obtain ⟨y,hy,hat⟩ := h.fragment hres
  obtain ⟨x,hx,hy⟩ := bind_eq_ok hy
  cases hy
  rw [relative_of_bound hl hx] at hat
  have hstep : enc.step code (enc.size pre, s) =
      some (if holds cond f then target else enc.size (pre++[.jcc cond l]), s) := by
    rw [hat.step_jcc, hf, Option.map_some, size_append]
    congr 3
    omega
  simpa [stepAccesses, hat.fetch] using Encoding.Performs.step hstep

end

end Wrela.Codegen

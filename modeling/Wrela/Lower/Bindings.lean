import Wrela.Lower.Locals

/-!
# Variables and the values that stand for them

A variable of the source and the value that stands for its name are kept
together in a binding. Two names may stand for one value, but a name that is
assigned has its value to itself. Expressions of the lowered code read what the
source reads and have its values.
-/

set_option autoImplicit false

namespace Wrela.Locals
open X86 Traced List Option Function Nat

/-- A name in scope, with its variable in the source and the number of its value in the
lowered code. -/
structure Binding where
  name : String
  var : ℕ
  id : ℕ
  type : Width

variable (bs : List Binding)

def scopeOf : Scope := bs.map fun b => (b.name, b.id, b.type)

def namesOf : Scope := bs.map fun b => (b.name, b.var, b.type)

def find (n : String) : Option Binding := bs.find? fun b => n == b.name

theorem lookup_map {α : Type} (f : Binding → α) (n : String) :
    (bs.map fun b => (b.name, f b)).lookup n = (find bs n).map f := by
  induction bs with
  | nil => rfl
  | cons b bs ih =>
    rw [map_cons, lookup_cons, find, find?_cons]
    cases n == b.name with
    | true => rfl
    | false => exact ih

theorem lookup_scopeOf (n : String) :
    (scopeOf bs).lookup n = (find bs n).map fun b => (b.id, b.type) := lookup_map bs _ n

theorem lookup_namesOf (n : String) :
    (namesOf bs).lookup n = (find bs n).map fun b => (b.var, b.type) := lookup_map bs _ n

theorem types_namesOf : (namesOf bs).types = (scopeOf bs).types := by
  funext n
  rw [Scope.types, Scope.types, lookup_namesOf, lookup_scopeOf, Option.map_map, Option.map_map]
  rfl

theorem types_cons (scope : Scope) (n : String) (x : ℕ) (w : Width) :
    Scope.types ((n, x, w)::scope) = update (Scope.types scope) n w := by
  funext m
  rw [Scope.types, lookup_cons]
  by_cases h : m = n
  · subst h
    rw [beq_self_eq_true, update_self]
    rfl
  · rw [beq_eq_false_iff_ne.mpr h, update_of_ne h]
    rfl

variable {bs : List Binding} {n : String} {b : Binding} {id k : ℕ} {w : Width}
  {enumScope : List (String × ℕ)} {s t : Slots}

theorem find_mem (h : find bs n = some b) : b ∈ bs ∧ b.name = n := by
  have hn : (n == b.name) := find?_some (p := fun b : Binding => n == b.name) h
  exact ⟨mem_of_find?_eq_some h,(beq_iff_eq.mp hn).symm⟩

theorem lookup_scopeOf_some (h : (scopeOf bs).lookup n = some (id, w)) :
    ∃ b, find bs n = some b ∧ b.id = id ∧ b.type = w := by
  rw [lookup_scopeOf] at h
  obtain ⟨b,hb,h⟩ := map_eq_some_iff.mp h
  exact ⟨b,hb,congrArg Prod.fst h,congrArg Prod.snd h⟩

/-- The numbers in use are below the next one. -/
structure Below (enumScope : List (String × ℕ)) (bs : List Binding) (k : ℕ) : Prop where
  word : ∀ b ∈ bs, b.id < k
  enum : ∀ n id, enumScope.lookup n = some id → id < k

theorem Below.mono {k' : ℕ} (h : Below enumScope bs k) (hk : k ≤ k') : Below enumScope bs k' :=
  ⟨fun b hb => lt_of_lt_of_le (h.word b hb) hk,
    fun n id hn => lt_of_lt_of_le (h.enum n id hn) hk⟩

theorem Below.push (h : Below enumScope bs k) (hb : b.id < k) : Below enumScope (b::bs) k where
  word := by
    intro c hc
    rcases mem_cons.mp hc with rfl | hc
    · exact hb
    · exact h.word c hc
  enum := h.enum

/-- Slots that agree with earlier ones below a number. -/
structure Kept (k : ℕ) (s t : Slots) : Prop where
  word : ∀ i < k, t.words i = s.words i
  enum : ∀ i < k, t.enums i = s.enums i

variable (k s) in
theorem Kept.refl : Kept k s s := ⟨fun _ _ => rfl,fun _ _ => rfl⟩

theorem Kept.trans {k' : ℕ} {u : Slots} (h : Kept k s t) (h' : Kept k' t u) (hk : k ≤ k') :
    Kept k s u where
  word i hi := (h'.word i (by omega)).trans (h.word i hi)
  enum i hi := (h'.enum i (by omega)).trans (h.enum i hi)

variable (k s) in
theorem Kept.setWord (v : Word) : Kept k s (s.setWord k v) where
  word _ hi := update_of_ne (Nat.ne_of_lt hi) _ _
  enum _ _ := rfl

variable (k s) in
theorem Kept.setEnum (v : EnumValue) : Kept k s (s.setEnum k v) where
  word _ _ := rfl
  enum _ hi := update_of_ne (Nat.ne_of_lt hi) _ _

@[simp] theorem setWord_words_self (s : Slots) (k : ℕ) (v : Word) :
    (s.setWord k v).words k = v := update_self _ _ _

@[simp] theorem setEnum_enums_self (s : Slots) (k : ℕ) (v : EnumValue) :
    (s.setEnum k v).enums k = v := update_self _ _ _

/-- The value of a binding holds its variable. The value of a name that is assigned
is that of no other binding. -/
structure Holds (assigned : List String) (enumScope : List (String × ℕ))
    (enums : List (String × EnumValue)) (bs : List Binding) (vars : Vars) (s : Slots) : Prop where
  names : vars.names = namesOf bs
  var_lt : ∀ b ∈ bs, b.var < vars.next
  word : ∀ b ∈ bs, s.words b.id = vars.store b.var
  one : ∀ b ∈ bs, ∀ c ∈ bs, b.var = c.var → b = c
  alone : ∀ b ∈ bs, b.name ∈ assigned → ∀ c ∈ bs, c.id = b.id → c = b
  enum : ∀ n id, enumScope.lookup n = some id → enums.lookup n = some (s.enums id)

namespace Holds
variable {assigned : List String} {enums : List (String × EnumValue)} {vars : Vars}

section
variable (h : Holds assigned enumScope enums bs vars s)
include h

theorem types_eq : vars.names.types = (scopeOf bs).types := by
  rw [h.names, types_namesOf]

theorem lookup_var (n : String) :
    vars.names.lookup n = (find bs n).map fun b => (b.var, b.type) := by
  rw [h.names, lookup_namesOf]

/-- Code that writes fresh numbers only keeps what holds. -/
theorem kept (hb : Below enumScope bs k) (ht : Kept k s t) :
    Holds assigned enumScope enums bs vars t where
  names := h.names
  var_lt := h.var_lt
  word b hmem := (ht.word b.id (hb.word b hmem)).trans (h.word b hmem)
  one := h.one
  alone := h.alone
  enum n id hn := by
    rw [ht.enum id (hb.enum n id hn)]
    exact h.enum n id hn

end

theorem leave {added : List Binding} {outer : Vars}
    (h : Holds assigned enumScope enums (added++bs) vars s) (hnames : outer.names = namesOf bs) :
    Holds assigned enumScope enums bs (vars.leave outer) s where
  names := hnames
  var_lt b hb := h.var_lt b (mem_append_right _ hb)
  word b hb := h.word b (mem_append_right _ hb)
  one b hb c hc := h.one b (mem_append_right _ hb) c (mem_append_right _ hc)
  alone b hb hn c hc := h.alone b (mem_append_right _ hb) hn c (mem_append_right _ hc)
  enum := h.enum

section
variable (h : Holds assigned enumScope enums bs vars s)
include h

/-- A fresh variable. Its value is fresh too, unless no name that has it is assigned. -/
theorem introduce {v : Word} (hword : s.words id = v)
    (hid : ∀ b ∈ bs, b.id = id → n ∉ assigned ∧ b.name ∉ assigned) :
    Holds assigned enumScope enums (⟨n,vars.next,id,w⟩::bs) (vars.introduce n w v) s where
  names := by
    rw [Vars.introduce, h.names]
    rfl
  var_lt := by
    rw [forall_mem_cons]
    exact ⟨lt_succ_self _,fun b hb => lt_succ_of_lt (h.var_lt b hb)⟩
  word := by
    rw [forall_mem_cons]
    have hnext : v = update vars.store vars.next v vars.next := by
      rw [update_self]
    refine ⟨hword.trans hnext,fun b hb => ?_⟩
    exact (h.word b hb).trans (update_of_ne (Nat.ne_of_lt (h.var_lt b hb)) _ _).symm
  one b hb c hc he := by
    rcases mem_cons.mp hb with rfl | hb <;> rcases mem_cons.mp hc with rfl | hc
    · rfl
    · exact absurd he.symm (Nat.ne_of_lt (h.var_lt c hc))
    · exact absurd he (Nat.ne_of_lt (h.var_lt b hb))
    · exact h.one b hb c hc he
  alone b hb hn c hc he := by
    rcases mem_cons.mp hb with rfl | hb <;> rcases mem_cons.mp hc with rfl | hc
    · rfl
    · exact absurd hn (hid c hc he).1
    · exact absurd hn (hid b hb he.symm).2
    · exact h.alone b hb hn c hc he
  enum := h.enum

theorem introduce_fresh {v : Word} (hfresh : ∀ b ∈ bs, b.id < id) (hword : s.words id = v) :
    Holds assigned enumScope enums (⟨n,vars.next,id,w⟩::bs) (vars.introduce n w v) s :=
  h.introduce hword fun b hb he => absurd he (Nat.ne_of_lt (hfresh b hb))

theorem introduce_alias (hb : b ∈ bs) (hn : n ∉ assigned) (hname : b.name ∉ assigned) :
    Holds assigned enumScope enums (⟨n,vars.next,b.id,w⟩::bs)
      (vars.introduce n w (vars.store b.var)) s := by
  refine h.introduce (h.word b hb) fun c hc he => ⟨hn,fun hmem => ?_⟩
  -- a binding with an assigned name would be this one
  rw [h.alone c hc hmem b hb he.symm] at hname
  exact hname hmem

/-- An assignment changes one variable and one word, and no other binding has either. -/
theorem assign (hb : b ∈ bs) (hn : b.name ∈ assigned) (v : Word) :
    Holds assigned enumScope enums bs (vars.assign b.var v) (s.setWord b.id v) where
  names := h.names
  var_lt := h.var_lt
  word c hc := by
    change update s.words b.id v c.id = update vars.store b.var v c.var
    by_cases hcb : c = b
    · rw [hcb, update_self, update_self]
    · rw [update_of_ne fun he => hcb (h.alone b hb hn c hc he),
        update_of_ne fun he => hcb (h.one c hc b hb he)]
      exact h.word c hc
  one := h.one
  alone := h.alone
  enum := h.enum

end

end Holds

/-! ### Numbers of values -/

section
variable {β : Type} {sig : Signature β} {scope : Scope} {ops : List (Op β)} {k a k' : ℕ}

theorem lowerExpr_le (e : Expr β) (h : lowerExpr sig scope e k = some (a, ops, k')) : k ≤ k' := by
  induction e generalizing k a ops k' with
  | name n =>
    obtain ⟨⟨id,w⟩,-,h⟩ := bind_eq_some_iff.mp h
    cases h
    exact le_refl _
  | intLiteral v =>
    cases h
    exact le_succ _
  | boolLiteral b =>
    cases h
    exact le_succ _
  | binary op left right ihl ihr =>
    obtain ⟨⟨l,leftOps,k₁⟩,hleft,h⟩ := bind_eq_some_iff.mp h
    obtain ⟨⟨r,rightOps,k₂⟩,hright,h⟩ := bind_eq_some_iff.mp h
    cases h
    exact le_succ_of_le (le_trans (ihl hleft) (ihr hright))

theorem lowerArgs_le {args : List (String × Expr β)} {fields : List (String × ℕ × Width)}
    (h : lowerArgs sig scope args k = some (fields, ops, k')) : k ≤ k' := by
  induction args generalizing k fields ops k' with
  | nil =>
    cases h
    exact le_refl _
  | cons arg args ih =>
    obtain ⟨⟨a,valueOps,k₁⟩,hvalue,h⟩ := bind_eq_some_iff.mp h
    obtain ⟨⟨rest,restOps,k₂⟩,hrest,h⟩ := bind_eq_some_iff.mp h
    cases h
    exact le_trans (lowerExpr_le _ hvalue) (ih hrest)

theorem lowerScrutinee_le {value : Scrutinee β}
    (h : lowerScrutinee sig enumScope scope value k = some (a, ops, k')) : k ≤ k' := by
  cases value with
  | param n =>
    rw [lowerScrutinee] at h
    cases hn : scope.lookup n with
    | some id =>
      rw [hn] at h
      cases h
    | none =>
      rw [hn] at h
      obtain ⟨id,-,h⟩ := bind_eq_some_iff.mp h
      cases h
      exact le_refl _
  | construct variant args =>
    obtain ⟨⟨fields,argOps,k₁⟩,hargs,h⟩ := bind_eq_some_iff.mp h
    cases h
    exact le_succ_of_le (lowerArgs_le hargs)

/-- The value of a name is that of its binding; any other expression has a fresh one. -/
theorem lowerExpr_number (e : Expr β) (h : lowerExpr sig (scopeOf bs) e k = some (a, ops, k'))
    (hb : Below enumScope bs k) :
    a < k' ∧ ((∃ b, e = .name b.name ∧ find bs b.name = some b ∧ b.id = a) ∨
      (∀ n, e ≠ .name n) ∧ k ≤ a) := by
  cases e with
  | name n =>
    obtain ⟨⟨id,w⟩,hid,h⟩ := bind_eq_some_iff.mp h
    cases h
    obtain ⟨b,hfind,rfl,rfl⟩ := lookup_scopeOf_some hid
    obtain ⟨hmem,rfl⟩ := find_mem hfind
    exact ⟨hb.word b hmem,.inl ⟨b,rfl,hfind,rfl⟩⟩
  | intLiteral v =>
    cases h
    exact ⟨lt_succ_self _,.inr ⟨(fun _ h => nomatch h),le_refl _⟩⟩
  | boolLiteral v =>
    cases h
    exact ⟨lt_succ_self _,.inr ⟨(fun _ h => nomatch h),le_refl _⟩⟩
  | binary op left right =>
    obtain ⟨⟨l,leftOps,k₁⟩,hleft,h⟩ := bind_eq_some_iff.mp h
    obtain ⟨⟨r,rightOps,k₂⟩,hright,h⟩ := bind_eq_some_iff.mp h
    cases h
    have hk := le_trans (lowerExpr_le left hleft) (lowerExpr_le right hright)
    exact ⟨lt_succ_self _,.inr ⟨(fun _ h => nomatch h),hk⟩⟩

end

/-! ### Expressions -/

section
variable {β : Type} (sig : Signature β) (spill : Op β → Slots → Run Slots) (fuel : ℕ)

theorem execOps_append (ops rest : List (Op β)) (s : Slots) :
    execOps sig spill fuel (ops++rest) s =
      (execOps sig spill fuel ops s).bind fun t => execOps sig spill fuel rest t := by
  induction ops generalizing s with
  | nil => rw [nil_append, execOps, bind_pure_left]
  | cons op ops ih =>
    rw [cons_append, execOps, execOps, Traced.bind_assoc]
    simp [ih]

theorem execOps_singleton (op : Op β) (s : Slots) :
    execOps sig spill fuel [op] s = execOp sig spill fuel op s := by
  simp [execOps, bind_pure_right]

end

section
variable {β : Type} {sig : Signature β} {spill : Op β → Slots → Run Slots} {fuel : ℕ}
  {assigned : List String} {enums : List (String × EnumValue)} {vars : Vars} {ops : List (Op β)}
  {a k' : ℕ}

/-- The code of an expression leaves its value under its number, and what was there
before as it was. -/
theorem evaluate_agrees (h : Holds assigned enumScope enums bs vars s)
    (hb : Below enumScope bs k) {e : Expr β}
    (hl : lowerExpr sig (scopeOf bs) e k = some (a, ops, k')) :
    Agrees (fun v t => Kept k s t ∧ t.words a = v) (evaluate sig vars e)
      (execOps sig spill fuel ops s) := by
  induction e generalizing k a ops k' s with
  | name n =>
    obtain ⟨⟨id,w⟩,hid,hl⟩ := bind_eq_some_iff.mp hl
    cases hl
    obtain ⟨b,hfind,rfl,rfl⟩ := lookup_scopeOf_some hid
    rw [evaluate, h.lookup_var, hfind]
    exact .pure ⟨.refl k s,h.word b (find_mem hfind).1⟩
  | intLiteral v =>
    cases hl
    rw [execOps_singleton]
    exact .pure ⟨.setWord k s v,setWord_words_self s k v⟩
  | boolLiteral v =>
    cases hl
    rw [execOps_singleton]
    exact .pure ⟨.setWord k s _,setWord_words_self s k _⟩
  | binary op left right ihl ihr =>
    obtain ⟨⟨l,leftOps,k₁⟩,hleft,hl⟩ := bind_eq_some_iff.mp hl
    obtain ⟨⟨r,rightOps,k₂⟩,hright,hl⟩ := bind_eq_some_iff.mp hl
    cases hl
    have hk₁ := lowerExpr_le left hleft
    have hk₂ := lowerExpr_le right hright
    rw [execOps_append, execOps_append, Traced.bind_assoc, evaluate, h.types_eq]
    refine (ihl h hb hleft).bind fun x t ⟨hkept,hx⟩ => ?_
    refine (ihr (h.kept hb hkept) (hb.mono hk₁) hright).bind fun y u ⟨hkept',hy⟩ => ?_
    -- the right operand keeps the value of the left one
    have hxu : u.words l = x :=
      (hkept'.word l (lowerExpr_number left hleft hb).1).trans hx
    rw [execOps_singleton, execOp, hxu, hy]
    refine .bind_pure _ fun v => ⟨?_,setWord_words_self u _ v⟩
    exact (hkept.trans hkept' hk₁).trans (.setWord _ u v) (by omega)

section
variable (h : Holds assigned enumScope enums bs vars s) (hb : Below enumScope bs k)
include h hb

theorem evaluateArgs_agrees {args : List (String × Expr β)}
    {fields : List (String × ℕ × Width)}
    (hl : lowerArgs sig (scopeOf bs) args k = some (fields, ops, k')) :
    Agrees (fun values t => Kept k s t ∧ fields.map (fun f => (f.1, t.words f.2.1)) = values)
      (evaluateArgs sig vars args) (execOps sig spill fuel ops s) := by
  induction args generalizing k fields ops k' s with
  | nil =>
    cases hl
    exact .pure ⟨.refl k s,rfl⟩
  | cons arg args ih =>
    obtain ⟨⟨a,valueOps,k₁⟩,hvalue,hl⟩ := bind_eq_some_iff.mp hl
    obtain ⟨⟨rest,restOps,k₂⟩,hrest,hl⟩ := bind_eq_some_iff.mp hl
    cases hl
    have hk₁ := lowerExpr_le _ hvalue
    have ha := (lowerExpr_number _ hvalue hb).1
    rw [execOps_append, evaluateArgs]
    refine (evaluate_agrees h hb hvalue).bind fun v t ⟨hkept,hv⟩ => ?_
    rw [← bind_pure_right (execOps sig spill fuel restOps t)]
    refine (ih (h.kept hb hkept) (hb.mono hk₁) hrest).bind fun values u ⟨hkept',hvalues⟩ => ?_
    refine .pure ⟨hkept.trans hkept' hk₁,?_⟩
    rw [map_cons, hvalues, hkept'.word a ha, hv]

end

theorem lowerArgs_types {scope : Scope} {args : List (String × Expr β)}
    {fields : List (String × ℕ × Width)}
    (hl : lowerArgs sig scope args k = some (fields, ops, k')) :
    fields.map (fun f => (f.1, f.2.2)) = args.map fun a => (a.1, a.2.type sig scope.types) := by
  induction args generalizing k fields ops k' with
  | nil =>
    cases hl
    rfl
  | cons arg args ih =>
    obtain ⟨⟨a,valueOps,k₁⟩,hvalue,hl⟩ := bind_eq_some_iff.mp hl
    obtain ⟨⟨rest,restOps,k₂⟩,hrest,hl⟩ := bind_eq_some_iff.mp hl
    cases hl
    rw [map_cons, map_cons, ih hrest]

theorem fields_fit {scope : Scope} {variant : String} {args : List (String × Expr β)}
    {fields : List (String × ℕ × Width)}
    (hl : lowerArgs sig scope args k = some (fields, ops, k'))
    (hfits : (Scrutinee.construct variant args).fits sig scope.types) :
    ∀ f ∈ fields, f.2.2.bits ≤ (sig.fieldType variant f.1).bits := by
  intro f hf
  have hmem : (f.1, f.2.2) ∈ args.map fun a => (a.1, a.2.type sig scope.types) := by
    rw [← lowerArgs_types hl]
    exact mem_map_of_mem hf
  obtain ⟨arg,harg,he⟩ := mem_map.mp hmem
  obtain ⟨hname,htype⟩ := Prod.mk.inj he
  rw [← hname, ← htype]
  exact of_decide_eq_true (all_eq_true.mp hfits arg harg)

theorem scrutinize_agrees (h : Holds assigned enumScope enums bs vars s)
    (hb : Below enumScope bs k) {value : Scrutinee β}
    (hfits : value.fits sig (scopeOf bs).types)
    (hl : lowerScrutinee sig enumScope (scopeOf bs) value k = some (a, ops, k')) :
    Agrees (fun v t => Kept k s t ∧ t.enums a = v) (scrutinize sig enums vars value)
      (execOps sig spill fuel ops s) := by
  cases value with
  | param n =>
    have hvar := h.lookup_var n
    have hscope := lookup_scopeOf bs n
    rw [lowerScrutinee] at hl
    rw [scrutinize]
    cases hfind : find bs n with
    | some b =>
      -- a word of that name hides the parameter, and a word is not matched
      rw [hscope, hfind] at hl
      cases hl
    | none =>
      rw [hscope, hfind] at hl
      obtain ⟨x,hx,hl⟩ := bind_eq_some_iff.mp hl
      cases hl
      rw [hvar, hfind, h.enum n _ hx]
      exact .pure ⟨.refl k s,rfl⟩
  | construct variant args =>
    obtain ⟨⟨fields,argOps,k₁⟩,hargs,hl⟩ := bind_eq_some_iff.mp hl
    cases hl
    rw [execOps_append, scrutinize]
    refine (evaluateArgs_agrees h hb hargs).bind fun values t ⟨hkept,hvalues⟩ => ?_
    rw [execOps_singleton, execOp, if_pos (fields_fit hargs hfits), ← hvalues, List.map_map]
    refine .record _ ⟨hkept.trans (.setEnum _ t _) (lowerArgs_le hargs),?_⟩
    exact setEnum_enums_self t _ _

end

end Wrela.Locals

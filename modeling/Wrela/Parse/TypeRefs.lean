import Wrela.Lex.Tokens

/-!
# References to types

The closing brackets of nested type arguments may come as one token: the lexer joins two
of them, and the parser takes such a token apart. It does not do so with the token that a
bracket makes with an equals sign behind it.
-/

set_option autoImplicit false

namespace Wrela.Parse
open List Wrela.Lex

def dot : UInt8 := '.'.toUInt8

def comma : UInt8 := ','.toUInt8

def less : UInt8 := '<'.toUInt8

def greater : UInt8 := '>'.toUInt8

def equals : UInt8 := '='.toUInt8

inductive TypeRef where
  | mk (name : Text) (args : List TypeRef)

structure ParseError where
  found : Lexeme
  message : String

/-- An error `none` is a bound that is too small. -/
abbrev Parsed := Except (Option ParseError)

def peek (toks : List Lexeme) : Lexeme := toks.headD ⟨.eof,[]⟩

theorem peek_cons (t : Lexeme) (toks : List Lexeme) : peek (t::toks) = t := rfl

def failAt {α : Type} (toks : List Lexeme) (message : String) : Parsed α :=
  .error (some ⟨peek toks,message⟩)

def isNameToken (t : Lexeme) : Bool :=
  t.kind ∈ [.identifier, .keywordImage, .keywordPath, .keywordEvent, .keywordProjection]

def skipSeparators (toks : List Lexeme) : List Lexeme :=
  toks.dropWhile fun t => t.kind = .newline || t.kind = .semicolon

def expectIdentifier (toks : List Lexeme) : Parsed (Text × List Lexeme) :=
  if isNameToken (peek toks) then .ok ((peek toks).text, toks.tail)
  else failAt toks "expected identifier"

/-- The parts behind the first one, each with its dot. -/
def parseDots : List Lexeme → Parsed (Text × List Lexeme)
  | sep::part::toks =>
    if sep.kind = .dot then
      if isNameToken part then do
        let (rest, toks) ← parseDots toks
        return (dot::part.text++rest, toks)
      else failAt (part::toks) "expected identifier"
    else .ok ([], sep::part::toks)
  | toks => if (peek toks).kind = .dot then failAt [] "expected identifier" else .ok ([], toks)

def parseTypeName (toks : List Lexeme) : Parsed (Text × List Lexeme) :=
  if (peek toks).kind = .keywordNever then .ok ((peek toks).text, toks.tail)
  else do
    let (first, toks) ← expectIdentifier toks
    let (rest, toks) ← parseDots toks
    return (first++rest, toks)

/-- Half of a token `>>` stays. -/
def consumeTypeGreater (toks : List Lexeme) : Parsed (List Lexeme) :=
  if (peek toks).kind = .greater then .ok toks.tail
  else if (peek toks).kind = .shiftRight then .ok (⟨.greater,[greater]⟩::toks.tail)
  else failAt toks "expected '>' after type arguments"

mutual

def parseTypeRef : ℕ → List Lexeme → Parsed (TypeRef × List Lexeme)
  | 0, _ => .error none
  | fuel+1, toks => do
    let (name, toks) ← parseTypeName toks
    if (peek toks).kind = .less then
      let (args, toks) ← parseTypeArgs fuel toks.tail
      let toks ← consumeTypeGreater toks
      return (⟨name,args⟩, toks)
    else return (⟨name,[]⟩, toks)

def parseTypeArgs : ℕ → List Lexeme → Parsed (List TypeRef × List Lexeme)
  | 0, _ => .error none
  | fuel+1, toks => do
    let (arg, toks) ← parseTypeRef fuel toks
    let toks := skipSeparators toks
    if (peek toks).kind = .comma then
      let (args, toks) ← parseTypeArgs fuel (skipSeparators toks.tail)
      return (arg::args, toks)
    else return ([arg], toks)

end

/-! ### Writing -/

mutual

/-- A reference without spaces, in front of some text. -/
def TypeRef.write : TypeRef → Text → Text
  | ⟨name,[]⟩, rest => name++rest
  | ⟨name,arg::args⟩, rest => name++less::arg.write (writeArgs args (greater::rest))

def writeArgs : List TypeRef → Text → Text
  | [], rest => rest
  | arg::args, rest => comma::arg.write (writeArgs args rest)

end

mutual

/-- The brackets that a reference ends with. -/
def TypeRef.closing : TypeRef → ℕ
  | ⟨_,[]⟩ => 0
  | ⟨_,arg::args⟩ => lastClosing (arg::args)+1

def lastClosing : List TypeRef → ℕ
  | [] => 0
  | [arg] => arg.closing
  | _::arg::args => lastClosing (arg::args)

end

/-! ### What the lexer makes of a reference -/

section
variable {U : Unicode}

/-- The tokens that may follow a type in a declaration begin with these. -/
def followers : Text := ascii ",)\x7b\x7d="

/-- What may stand behind a reference. -/
def ends : Text := greater::followers

theorem peek_ends {d : UInt8} (hd : d ∈ ends) (rest : Text) :
    (peek (lexemes U (d::rest))).kind ∉ [.dot, .less] := by
  have htwo : ∀ op ∈ twoCharOperators, op.2 ∉ [Kind.dot, .less] := by decide
  have hone : ∀ d ∈ ends, ∃ e ∈ singleCharTokens, e.1 = d ∧ e.2 ∉ [.slash, .dot, .less] :=
    all_iff_forall_prop.mp (by decide)
  by_cases hop : ∃ op ∈ twoCharOperators, (d::rest).take 2 = op.1
  · obtain ⟨op,hop,htake⟩ := hop
    have hlength := length_of_twoCharOperators op hop
    cases rest with
    | nil =>
      rw [← htake] at hlength
      exact absurd hlength (by simp)
    | cons e rest =>
      obtain ⟨_,kind⟩ := op
      obtain rfl : [d,e] = _ := htake
      rw [lexemes_double hop]
      exact htwo _ hop
  · obtain ⟨⟨_,kind⟩,he,rfl,hkind⟩ := hone d hd
    rw [mem_cons, not_or] at hkind
    push Not at hop
    rw [lexemes_single he hkind.1 hop]
    exact hkind.2

/-! ### Names -/

def joinDots (parts : List Text) : Text := parts.flatMap (dot::·)

variable (U)

/-- The word `never`, or words that are no keywords with dots in between. -/
def TypeName (name : Text) : Prop :=
  ∃ first parts, name = first++joinDots parts ∧ Word U first ∧
    ((wordOf first).kind = .keywordNever ∧ parts = [] ∨
      isNameToken (wordOf first) ∧ ∀ part ∈ parts, Word U part ∧ isNameToken (wordOf part))

variable {U}

theorem parseDots_eq_nil {toks : List Lexeme} (h : (peek toks).kind ≠ .dot) :
    parseDots toks = .ok ([], toks) := by
  rw [parseDots.eq_def]
  split
  · exact if_neg h
  · exact if_neg h

section
variable {d : UInt8} (hd : d ∈ marks) (rest : Text)
include hd

theorem lexemes_joinDots {w : Text} (h : Word U w) (parts : List Text) :
    lexemes U (w++(joinDots parts++d::rest)) = wordOf w::lexemes U (joinDots parts++d::rest) := by
  cases parts with
  | nil => exact h.lexed hd rest
  | cons part parts => exact h.lexed (by decide : dot ∈ marks) _

variable (hdot : (peek (lexemes U (d::rest))).kind ≠ .dot)
include hdot

theorem parseDots_joinDots (parts : List Text)
    (hparts : ∀ part ∈ parts, Word U part ∧ isNameToken (wordOf part)) :
    parseDots (lexemes U (joinDots parts++d::rest)) = .ok (joinDots parts, lexemes U (d::rest)) := by
  induction parts with
  | nil => exact parseDots_eq_nil hdot
  | cons part parts ih =>
    obtain ⟨hword,hname⟩ := hparts part mem_cons_self
    have hjoin : joinDots (part::parts)++d::rest = dot::(part++(joinDots parts++d::rest)) := by
      simp [joinDots]
    rw [hjoin, lexemes_alone (by decide : (dot, Kind.dot) ∈ _) (by decide) (by decide),
      lexemes_joinDots hd _ hword, parseDots, if_pos rfl, if_pos hname,
      ih fun p hp => hparts p (mem_cons_of_mem part hp)]
    rfl

theorem TypeName.parsed {name : Text} (h : TypeName U name) :
    parseTypeName (lexemes U (name++d::rest)) = .ok (name, lexemes U (d::rest)) := by
  obtain ⟨first,parts,rfl,hword,⟨hnever,rfl⟩|⟨hname,hparts⟩⟩ := h
  · rw [append_assoc, lexemes_joinDots hd _ hword, parseTypeName, peek_cons,
      if_pos hnever, joinDots, flatMap_nil, append_nil]
    rfl
  · have hnever : (wordOf first).kind ≠ .keywordNever := by
      intro hkind
      rw [isNameToken, hkind] at hname
      contradiction
    rw [append_assoc, lexemes_joinDots hd _ hword, parseTypeName, expectIdentifier, peek_cons,
      if_neg hnever, if_pos hname]
    change (do let (more, toks) ← parseDots (lexemes U (joinDots parts++d::rest)); _) = _
    rw [parseDots_joinDots hd rest hdot parts hparts]
    rfl

end

/-! ### Brackets -/

/-- Tokens for some closing brackets, and what is behind them. -/
inductive Brackets (base : List Lexeme) : ℕ → List Lexeme → Prop
  | none : Brackets base 0 base
  | one {n toks} (h : Brackets base n toks) : Brackets base (n+1) (⟨.greater,[greater]⟩::toks)
  | two {n toks} (h : Brackets base n toks) :
      Brackets base (n+2) (⟨.shiftRight,[greater,greater]⟩::toks)

section
variable {base toks : List Lexeme} {n : ℕ}

/-- A bracket is consumed, also when it is half of a token. -/
theorem Brackets.consume (h : Brackets base (n+1) toks) :
    ∃ rest, consumeTypeGreater toks = .ok rest ∧ Brackets base n rest := by
  cases h with
  | one h => exact ⟨_,rfl,h⟩
  | two h => exact ⟨_,rfl,h.one⟩

theorem Brackets.peek_kind (h : Brackets base (n+1) toks) :
    (peek toks).kind ∉ [.newline, .semicolon, .comma] := by
  cases h with
  | one h => simp [peek]
  | two h => simp [peek]

end

/-- Of an even number two by two are one token. -/
theorem Brackets.pairs {base : List Lexeme} {k : ℕ} {src : Text}
    (h : Brackets base k (lexemes U src)) {n : ℕ} (hn : n%2 = 0) :
    Brackets base (n+k) (lexemes U (replicate n greater++src)) := by
  induction n using Nat.twoStepInduction with
  | zero => rwa [Nat.zero_add]
  | one => contradiction
  | more n ih =>
    have hpair : replicate (n+2) greater++src = greater::greater::(replicate n greater++src) := rfl
    rw [hpair, lexemes_double (by decide : ([greater,greater], Kind.shiftRight) ∈ _),
      Nat.add_right_comm]
    exact (ih (by omega)).two

/-- Without an equals sign behind it, a last bracket is a token of its own. -/
theorem brackets_lexemes {d : UInt8} (hd : d ∈ ends) (hne : d ≠ greater) (rest : Text) {n : ℕ}
    (h : n%2 = 0 ∨ d ≠ equals) :
    Brackets (lexemes U (d::rest)) n (lexemes U (replicate n greater++d::rest)) := by
  by_cases hn : n%2 = 0
  · exact Brackets.none.pairs hn
  · have htwo : ∀ d ∈ ends, ∀ op ∈ twoCharOperators, d ≠ greater → d ≠ equals →
        [greater,d] ≠ op.1 := all_iff_forall_prop.mp (by decide)
    have hone : lexemes U (greater::d::rest) = ⟨.greater,[greater]⟩::lexemes U (d::rest) :=
      lexemes_single (by decide) (by decide) fun op hop =>
        htwo d hd op hop hne (h.resolve_left hn)
    obtain ⟨m,rfl⟩ : ∃ m, n = m+1 := ⟨n-1,by omega⟩
    rw [replicate_succ', append_assoc]
    exact Brackets.pairs (hone ▸ Brackets.none.one) (by omega)

/-- With an equals sign behind it, a last bracket is joined with it. -/
theorem brackets_joined (rest : Text) {n : ℕ} (hn : n%2 = 0) :
    Brackets (⟨.greaterEqual,[greater,equals]⟩::lexemes U rest) n
      (lexemes U (replicate n greater++greater::equals::rest)) := by
  have hjoined : lexemes U (greater::equals::rest) = _ :=
    lexemes_double (by decide : ([greater,equals], Kind.greaterEqual) ∈ _)
  rw [← hjoined]
  exact Brackets.none.pairs hn

end

/-! ### References -/

section
variable (U : Unicode)

/-- A reference with names that can be written. -/
inductive Writable : TypeRef → Prop
  | mk {name args} (hname : TypeName U name) (hargs : ∀ arg ∈ args, Writable arg) :
      Writable ⟨name,args⟩

/-- With enough closing brackets behind it, a reference is read back. -/
def Parses (ref : TypeRef) : Prop :=
  ∀ ⦃fuel⦄, sizeOf ref ≤ fuel → ∀ ⦃base n d rest⦄, d ∈ ends →
    Brackets base (ref.closing+n) (lexemes U (replicate ref.closing greater++d::rest)) →
    ∃ toks, parseTypeRef fuel (lexemes U (ref.write (d::rest))) = .ok (ref, toks) ∧
      Brackets base n toks

variable {U}

theorem skipSeparators_eq {toks : List Lexeme}
    (h : (peek toks).kind ∉ [.newline, .semicolon]) : skipSeparators toks = toks := by
  cases toks with
  | nil => rfl
  | cons t toks =>
    refine dropWhile_cons_of_neg ?_
    simpa [peek] using h

theorem ends_subset_marks : ends ⊆ marks := by
  decide

theorem Writable.exists_cons {ref : TypeRef} (h : Writable U ref) (rest : Text) :
    ∃ c cs, ref.write rest = c::cs ∧ c ∉ marks := by
  obtain @⟨name,args,⟨first,parts,hname,hword,-⟩,-⟩ := h
  obtain ⟨tail,htail⟩ : ∃ tail, TypeRef.write ⟨name,args⟩ rest = name++tail := by
    cases args <;> exact ⟨_,rfl⟩
  obtain ⟨c,cs,hcs,hc,-⟩ := hword.exists_cons (joinDots parts++tail)
  exact ⟨c,cs,by rw [htail, hname, append_assoc, hcs],hc⟩

theorem parseTypeRef_args {name : Text} (hname : TypeName U name) {arg : TypeRef}
    (harg : Writable U arg) (args : List TypeRef) (rest : Text) (fuel : ℕ) :
    parseTypeRef (fuel+1) (lexemes U (TypeRef.write ⟨name,arg::args⟩ rest)) = do
      let (args, toks) ← parseTypeArgs fuel
        (lexemes U (arg.write (writeArgs args (greater::rest))))
      let toks ← consumeTypeGreater toks
      return (⟨name,args⟩, toks) := by
  have hless : lexemes U (less::arg.write (writeArgs args (greater::rest))) =
      ⟨.less,[less]⟩::lexemes U (arg.write (writeArgs args (greater::rest))) := by
    have htwo : ∀ op ∈ twoCharOperators, op.1.tail ⊆ marks := by decide
    obtain ⟨c,cs,hcs,hc⟩ := harg.exists_cons (writeArgs args (greater::rest))
    rw [hcs]
    refine lexemes_single (by decide) (by decide) fun op hop h => hc (htwo op hop ?_)
    rw [← h]
    exact mem_cons_self
  rw [TypeRef.write, parseTypeRef, hname.parsed (by decide) _ (by simp [hless, peek]), hless]
  rfl

/-- Nothing is skipped in front of what is parsed. -/
theorem skipSeparators_of_parse {fuel : ℕ} {toks : List Lexeme} {r : List TypeRef × List Lexeme}
    (h : parseTypeArgs fuel toks = .ok r) : skipSeparators toks = toks := by
  refine skipSeparators_eq fun hkind => ?_
  have hfail : parseTypeName toks = failAt toks "expected identifier" := by
    simp only [mem_cons, not_mem_nil, or_false] at hkind
    rcases hkind with hkind | hkind <;>
      simp [parseTypeName, expectIdentifier, isNameToken, hkind, failAt, bind, Except.bind]
  match fuel with
  | 0 => simp [parseTypeArgs] at h
  | 1 => simp [parseTypeArgs, parseTypeRef, bind, Except.bind] at h
  | fuel+2 => simp [parseTypeArgs, parseTypeRef, hfail, failAt, bind, Except.bind] at h

theorem parseTypeArgs_write {base : List Lexeme} {n : ℕ} {rest : Text}
    (hbase : ∀ toks, Brackets base n toks → (peek toks).kind ∉ [.newline, .semicolon, .comma])
    (args : List TypeRef) : ∀ {arg fuel}, (∀ a ∈ arg::args, Writable U a ∧ Parses U a) →
      sizeOf (arg::args) ≤ fuel → Brackets base (lastClosing (arg::args)+n)
        (lexemes U (replicate (lastClosing (arg::args)) greater++greater::rest)) →
      ∃ toks, parseTypeArgs fuel (lexemes U (arg.write (writeArgs args (greater::rest)))) =
        .ok (arg::args, toks) ∧ Brackets base n toks := by
  induction args with
  | nil =>
    intro arg fuel hargs hfuel hbrackets
    rw [cons.sizeOf_spec] at hfuel
    obtain ⟨fuel,rfl⟩ : ∃ f, fuel = f+1 := ⟨fuel-1,by omega⟩
    obtain ⟨toks,hparse,hleft⟩ :=
      (hargs arg mem_cons_self).2 (by omega : _ ≤ fuel) (by decide) hbrackets
    have hkind := hbase toks hleft
    simp only [mem_cons, not_or] at hkind
    refine ⟨toks,?_,hleft⟩
    rw [parseTypeArgs, writeArgs, hparse]
    change (if (peek (skipSeparators toks)).kind = _ then _ else _) = _
    rw [skipSeparators_eq (by simp [hkind]), if_neg hkind.2.2.1]
    rfl
  | cons next args ih =>
    intro arg fuel hargs hfuel hbrackets
    rw [cons.sizeOf_spec] at hfuel
    obtain ⟨fuel,rfl⟩ : ∃ f, fuel = f+1 := ⟨fuel-1,by omega⟩
    have hends : comma ∈ ends := by decide
    have hclosing := @brackets_lexemes U comma hends (by decide)
      (next.write (writeArgs args (greater::rest))) (arg.closing+0) (.inr (by decide))
    obtain ⟨toks,hparse,hleft⟩ :=
      (hargs arg mem_cons_self).2 (by omega : _ ≤ fuel) hends hclosing
    obtain ⟨more,hmore,hbrackets⟩ :=
      ih (fun a ha => hargs a (mem_cons_of_mem arg ha)) (by omega : _ ≤ fuel) hbrackets
    cases hleft
    have hcomma : lexemes U (comma::next.write (writeArgs args (greater::rest))) = _ :=
      lexemes_alone (by decide : (comma, Kind.comma) ∈ _) (by decide) (by decide) _
    refine ⟨more,?_,hbrackets⟩
    rw [parseTypeArgs, writeArgs, hparse, hcomma]
    change (do
      let (args, toks) ← parseTypeArgs fuel
        (skipSeparators (lexemes U (next.write (writeArgs args (greater::rest)))))
      return (arg::args, toks)) = _
    rw [skipSeparators_of_parse hmore, hmore]
    rfl

theorem Writable.parses {ref : TypeRef} (h : Writable U ref) : Parses U ref := by
  induction h with
  | @mk name args hname hargs ih =>
    intro fuel hfuel base n d rest hd hbrackets
    rw [TypeRef.mk.sizeOf_spec] at hfuel
    obtain ⟨fuel,rfl⟩ : ∃ f, fuel = f+1 := ⟨fuel-1,by omega⟩
    cases args with
    | nil =>
      have hkind := @peek_ends U d hd rest
      simp only [mem_cons, not_or] at hkind
      rw [TypeRef.closing, Nat.zero_add] at hbrackets
      refine ⟨_,?_,hbrackets⟩
      rw [TypeRef.write, parseTypeRef, hname.parsed (ends_subset_marks hd) rest hkind.1]
      exact if_neg hkind.2.1
    | cons arg args =>
      rw [TypeRef.closing, replicate_succ', append_assoc, singleton_append, Nat.add_assoc,
        Nat.add_comm 1] at hbrackets
      obtain ⟨toks,hparse,hleft⟩ := parseTypeArgs_write (fun _ h => h.peek_kind) args
        (fun a ha => ⟨hargs a ha,ih a ha⟩) (by omega : _ ≤ fuel) hbrackets
      obtain ⟨left,hconsume,hleft⟩ := hleft.consume
      refine ⟨left,?_,hleft⟩
      rw [parseTypeRef_args hname (hargs arg mem_cons_self), hparse]
      change (consumeTypeGreater toks >>= fun toks => _) = _
      rw [hconsume]
      rfl

/-- The outermost bracket is missed when it is joined with an equals sign. -/
theorem Writable.fails {ref : TypeRef} (h : Writable U ref) (hodd : ref.closing%2 = 1)
    (rest : Text) {fuel : ℕ} (hfuel : sizeOf ref ≤ fuel) :
    parseTypeRef fuel (lexemes U (ref.write (equals::rest))) =
      .error (some ⟨⟨.greaterEqual,[greater,equals]⟩,"expected '>' after type arguments"⟩) := by
  obtain ⟨hname,hargs⟩ := h
  rename_i name args
  rw [TypeRef.mk.sizeOf_spec] at hfuel
  obtain ⟨fuel,rfl⟩ : ∃ f, fuel = f+1 := ⟨fuel-1,by omega⟩
  cases args with
  | nil =>
    rw [TypeRef.closing] at hodd
    contradiction
  | cons arg args =>
    rw [TypeRef.closing] at hodd
    have hclosing := @brackets_joined U rest (lastClosing (arg::args)+0) (by omega)
    obtain ⟨toks,hparse,hleft⟩ := parseTypeArgs_write (by rintro _ ⟨⟩; simp [peek]) args
      (fun a ha => ⟨hargs a ha,(hargs a ha).parses⟩) (by omega : _ ≤ fuel) hclosing
    cases hleft
    rw [parseTypeRef_args hname (hargs arg mem_cons_self), hparse]
    rfl

end

theorem lexemes_space (U : Unicode) (src : Text) : lexemes U (32::src) = lexemes U src := by
  rw [lexemes_cons]
  rfl

/-- A reference written without spaces is read back from its tokens, and what follows is
left as if a space were in front of it, unless an odd number of brackets is closed in front
of an equals sign. -/
theorem type_ref_reads_back_iff {U : Unicode} {ref : TypeRef} (h : Writable U ref) {d : UInt8}
    (hd : d ∈ followers) (rest : Text) :
    (∃ bound, ∀ fuel, bound ≤ fuel →
      parseTypeRef fuel (lexemes U (ref.write (d::rest))) = .ok (ref, lexemes U (32::d::rest))) ↔
        ¬(ref.closing%2 = 1 ∧ d = equals) := by
  have hends : d ∈ ends := mem_cons_of_mem _ hd
  have hne : d ≠ greater := by
    rintro rfl
    exact absurd hd (by decide)
  constructor
  · rintro ⟨bound,hbound⟩ ⟨hodd,rfl⟩
    have hok := hbound (max bound (sizeOf ref)) (Nat.le_max_left _ _)
    rw [h.fails hodd rest (Nat.le_max_right _ _)] at hok
    contradiction
  · intro hnot
    refine ⟨sizeOf ref,fun fuel hfuel => ?_⟩
    have hside : (ref.closing+0)%2 = 0 ∨ d ≠ equals := by
      by_contra hside
      obtain ⟨hodd,hequals⟩ := not_or.mp hside
      exact hnot ⟨by omega,not_not.mp hequals⟩
    obtain ⟨toks,hparse,hleft⟩ := h.parses hfuel hends (brackets_lexemes hends hne rest hside)
    cases hleft
    rw [hparse, lexemes_space]

/-- No letters but those of ASCII. -/
def asciiTables : Unicode :=
  ⟨Char.isAlpha,Char.isDigit,fun _ _ => rfl,fun _ _ => rfl,by
    intro r hr
    have hdigit : '9'.val.toNat < 'A'.val.toNat ∧ '9'.val.toNat < 'a'.val.toNat := by decide
    delta Char.isAlpha Char.isUpper Char.isLower at hr
    simp only [Char.isDigit, Bool.or_eq_true, Bool.and_eq_true, decide_eq_true_iff, ge_iff_le,
      UInt32.le_iff_toNat_le, Bool.and_eq_false_iff, decide_eq_false_iff_not] at hr ⊢
    omega⟩

/-- The reference `A<B>`. -/
def applied : TypeRef := ⟨encode ['A'],[⟨encode ['B'],[]⟩]⟩

theorem writable_applied : Writable asciiTables applied := by
  have hletter : ∀ r ∈ ['A', 'B'], TypeName asciiTables (encode [r]) := by
    intro r hr
    have : ∀ r ∈ ['A', 'B'], isIdentStartRune asciiTables r ∧ isNameToken (wordOf (encode [r])) :=
      all_iff_forall_prop.mp (by decide)
    exact ⟨encode [r],[],(append_nil _).symm,⟨r,[],rfl,(this r hr).1,nofun⟩,
      .inr ⟨(this r hr).2,nofun⟩⟩
  refine ⟨hletter _ (by simp),fun arg harg => ?_⟩
  obtain rfl := mem_singleton.mp harg
  exact ⟨hletter _ (by simp),nofun⟩

theorem type_ref_reads_back_applied :
    ∃ bound, ∀ fuel, bound ≤ fuel → parseTypeRef fuel (lexemes asciiTables (ascii "A<B>)")) =
      .ok (applied, lexemes asciiTables (ascii " )")) :=
  (type_ref_reads_back_iff writable_applied (by decide) []).mpr (by decide)

theorem type_ref_misses_joined_bracket :
    ∃ bound, ∀ fuel, bound ≤ fuel → parseTypeRef fuel (lexemes asciiTables (ascii "A<B>=")) =
      .error (some ⟨⟨.greaterEqual,ascii ">="⟩,"expected '>' after type arguments"⟩) :=
  ⟨_,fun _ => writable_applied.fails (by decide) []⟩

end Wrela.Parse

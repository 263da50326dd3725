import Mathlib.Data.List.TakeWhile
import Mathlib.Tactic.Common
import Mathlib.Data.Bool.AllAny

/-!
# Tokens

The source is a list of bytes. Every turn of the scan takes some bytes from its front:
white space, a comment, a token, or a character that no token begins with. Operators of
two characters go before those of one. Lexemes are tokens without their places.
-/

set_option autoImplicit false

namespace Wrela.Lex
open List

abbrev Text := List UInt8

def ascii (s : String) : Text := s.toList.map Char.toUInt8

/-- `utf8.DecodeRuneInString`: a rune and its width. -/
def decodeRune (src : Text) : Char × ℕ :=
  match src.toByteArray.utf8DecodeChar? 0 with
  | some r => (r, r.utf8Size)
  | none => ('\uFFFD', min 1 src.length)

structure Unicode where
  isLetter : Char → Bool
  isDigit : Char → Bool
  letter_ascii : ∀ r, r.toNat < 128 → isLetter r = r.isAlpha
  digit_ascii : ∀ r, r.toNat < 128 → isDigit r = r.isDigit
  letter_not_digit : ∀ r, isLetter r → isDigit r = false

inductive Kind where
  | eof | identifier | integer | string
  | lParen | rParen | lBrace | rBrace | lBracket | rBracket | colon | comma | dot
  | plus | minus | star | slash | percent | less | lessEqual | greater | greaterEqual
  | equal | equalEqual | bang | bangEqual | amp | pipe | caret | arrow | fatArrow
  | shiftLeft | shiftRight
  | keywordModule | keywordUse | keywordFrom | keywordData | keywordClass | keywordUnique
  | keywordDriver | keywordPath | keywordExecutor | keywordInterrupt | keywordReceiver
  | keywordOn | keywordImage | keywordTransitions | keywordPhase | keywordFn | keywordAsm
  | keywordStart | keywordLet | keywordReturn | keywordIf | keywordElse | keywordWhile
  | keywordWith | keywordFor | keywordIn | keywordEnum | keywordTrait | keywordImpl
  | keywordWhere | keywordConst | keywordStaticAssert | keywordEvent | keywordProjection
  | keywordMatch | keywordSizeof | keywordAlignof | keywordTrue | keywordFalse | keywordNever
  | semicolon | newline
  deriving DecidableEq

structure Lexeme where
  kind : Kind
  text : Text
  deriving DecidableEq

structure Token extends Lexeme where
  start : ℕ
  stop : ℕ

structure Diagnostic where
  start : ℕ
  stop : ℕ
  message : String

def keywordKinds : List (Text × Kind) :=
  [("module", .keywordModule), ("use", .keywordUse), ("from", .keywordFrom),
    ("data", .keywordData), ("class", .keywordClass), ("unique", .keywordUnique),
    ("driver", .keywordDriver), ("path", .keywordPath), ("executor", .keywordExecutor),
    ("interrupt", .keywordInterrupt), ("receiver", .keywordReceiver), ("on", .keywordOn),
    ("image", .keywordImage), ("transitions", .keywordTransitions), ("phase", .keywordPhase),
    ("fn", .keywordFn), ("asm", .keywordAsm), ("start", .keywordStart), ("let", .keywordLet),
    ("return", .keywordReturn), ("if", .keywordIf), ("else", .keywordElse),
    ("while", .keywordWhile), ("with", .keywordWith), ("for", .keywordFor),
    ("enum", .keywordEnum), ("trait", .keywordTrait), ("impl", .keywordImpl), ("in", .keywordIn),
    ("where", .keywordWhere), ("const", .keywordConst), ("static_assert", .keywordStaticAssert),
    ("event", .keywordEvent), ("projection", .keywordProjection), ("match", .keywordMatch),
    ("sizeof", .keywordSizeof), ("alignof", .keywordAlignof), ("true", .keywordTrue),
    ("false", .keywordFalse), ("never", .keywordNever)].map fun (word, kind) => (ascii word, kind)

def twoCharOperators : List (Text × Kind) :=
  [("->", .arrow), ("=>", .fatArrow), ("==", .equalEqual), ("!=", .bangEqual), ("<=", .lessEqual),
    (">=", .greaterEqual), ("<<", .shiftLeft), (">>", .shiftRight)].map fun (op, kind) =>
      (ascii op, kind)

def singleCharTokens : List (UInt8 × Kind) :=
  [('(', .lParen), (')', .rParen), ('{', .lBrace), ('}', .rBrace), ('[', .lBracket),
    (']', .rBracket), (':', .colon), (',', .comma), ('.', .dot), ('+', .plus), ('-', .minus),
    ('*', .star), ('/', .slash), ('%', .percent), ('<', .less), ('>', .greater), ('=', .equal),
    ('!', .bang), ('&', .amp), ('|', .pipe), ('^', .caret), (';', .semicolon)].map
      fun (c, kind) => (Char.toUInt8 c, kind)

def isWhitespace (c : UInt8) : Bool := c ∈ ascii " \t\r\x0c"

def newline : UInt8 := 10

def isLineComment (src : Text) : Bool := src.take 2 = ascii "//"

def isHexDigit (c : UInt8) : Bool := c ∈ ascii "0123456789abcdefABCDEF"

def escaped (c : UInt8) : UInt8 :=
  if c = 'n'.toUInt8 then newline else if c = 'r'.toUInt8 then 13
  else if c = 't'.toUInt8 then 9 else c

theorem decodeRune_width (c : UInt8) (rest : Text) :
    0 < (decodeRune (c::rest)).2 ∧ (decodeRune (c::rest)).2 ≤ rest.length+1 := by
  rw [decodeRune]
  cases hrune : (c::rest).toByteArray.utf8DecodeChar? 0 with
  | some r =>
    have hle := ByteArray.le_size_of_utf8DecodeChar?_eq_some hrune
    rw [size_toByteArray, Nat.zero_add] at hle
    exact ⟨r.utf8Size_pos,hle⟩
  | none => exact ⟨by simp,by simp⟩

theorem drop_rune_lt (c : UInt8) (rest : Text) :
    ((c::rest).drop (decodeRune (c::rest)).2).length < (c::rest).length := by
  have := (decodeRune_width c rest).1
  simp only [length_drop, length_cons]
  omega

section
variable (U : Unicode)

def isIdentStartRune (r : Char) : Bool := r = '_' || U.isLetter r

def isIdentContinueRune (r : Char) : Bool := isIdentStartRune U r || U.isDigit r

/-- The width of the runes at the front that pass a test. -/
def runWidth (p : Char → Bool) : Text → ℕ
  | [] => 0
  | c::rest =>
    let rune := decodeRune (c::rest)
    if p rune.1 then rune.2+runWidth p ((c::rest).drop rune.2) else 0
termination_by src => src.length
decreasing_by exact drop_rune_lt c rest

def intWidth (src : Text) : ℕ :=
  if src.take 2 = ascii "0x" ∨ src.take 2 = ascii "0X" then
    2+((src.drop 2).takeWhile isHexDigit).length
  else runWidth U.isDigit src

/-- Behind the opening quote: the text, the bytes taken and what is wrong. -/
def lexString : Text → Text × ℕ × Option String
  | [] => ([], 0, some "unterminated string literal")
  | c::rest =>
    if c = '\\'.toUInt8 then
      match rest with
      | [] => ([], 1, some "unterminated string literal")
      | e::rest =>
        let tail := lexString rest
        (escaped e::tail.1, 2+tail.2.1, tail.2.2)
    else if c = '"'.toUInt8 then ([], 1, none)
    else if c = newline then ([], 0, some "unterminated string literal")
    else
      let rune := decodeRune (c::rest)
      let tail := lexString ((c::rest).drop rune.2)
      (String.utf8EncodeChar rune.1++tail.1, rune.2+tail.2.1, tail.2.2)
termination_by src => src.length
decreasing_by
  · simp only [length_cons]
    omega
  · exact drop_rune_lt c rest

/-- The bytes that a turn takes, and the token and the diagnostic for them. -/
structure Turn where
  width : ℕ
  token : Option Lexeme
  error : Option String

def wordOf (text : Text) : Lexeme := ⟨(keywordKinds.lookup text).getD .identifier,text⟩

def scanWord (c : UInt8) (rest : Text) : Turn :=
  let src := c::rest
  let rune := decodeRune src
  if c = '"'.toUInt8 then
    let string := lexString rest
    ⟨1+string.2.1,some ⟨.string,string.1⟩,string.2.2⟩
  else if U.isDigit rune.1 then
    ⟨intWidth U src,some ⟨.integer,src.take (intWidth U src)⟩,none⟩
  else if isIdentStartRune U rune.1 then
    let width := runWidth (isIdentContinueRune U) src
    ⟨width,some (wordOf (src.take width)),none⟩
  else ⟨rune.2,none,some "invalid character"⟩

def turn (c : UInt8) (rest : Text) : Turn :=
  let src := c::rest
  if isWhitespace c then ⟨1,none,none⟩
  else if c = newline then ⟨1,some ⟨.newline,[c]⟩,none⟩
  else if isLineComment src then ⟨2+((src.drop 2).takeWhile (· ≠ newline)).length,none,none⟩
  else
    match twoCharOperators.lookup (src.take 2) with
    | some kind => ⟨2,some ⟨kind,src.take 2⟩,none⟩
    | none =>
      match singleCharTokens.lookup c with
      | some kind => ⟨1,some ⟨kind,[c]⟩,none⟩
      | none => scanWord U c rest

/-! ### What a turn takes -/

variable {U}

theorem runWidth_le (p : Char → Bool) (src : Text) : runWidth p src ≤ src.length := by
  fun_induction runWidth p src with
  | case1 => exact Nat.zero_le _
  | case2 c rest rune hp ih =>
    have : rune.2 ≤ rest.length+1 := (decodeRune_width c rest).2
    simp only [length_drop, length_cons] at ih ⊢
    omega
  | case3 => exact Nat.zero_le _

theorem runWidth_pos {p : Char → Bool} {c : UInt8} {rest : Text}
    (h : p (decodeRune (c::rest)).1) : 0 < runWidth p (c::rest) := by
  rw [runWidth, if_pos h]
  exact Nat.add_pos_left (decodeRune_width _ _).1 _

theorem lexString_le (src : Text) : (lexString src).2.1 ≤ src.length := by
  fun_induction lexString src with
  | case1 | case2 | case4 | case5 => simp
  | case3 e rest tail ih =>
    have : tail.2.1 ≤ rest.length := ih
    simp only [length_cons]
    omega
  | case6 c rest _ _ _ rune tail ih =>
    have : rune.2 ≤ rest.length+1 := (decodeRune_width c rest).2
    have : tail.2.1 ≤ _ := ih
    rw [length_drop] at this
    simp only [length_cons] at this ⊢
    omega

theorem two_le_of_take {op src : Text} (hop : op.length = 2) (h : src.take 2 = op) :
    2 ≤ src.length := by
  rw [← h, length_take] at hop
  omega

theorem intWidth_takes {c : UInt8} {rest : Text} (h : U.isDigit (decodeRune (c::rest)).1) :
    0 < intWidth U (c::rest) ∧ intWidth U (c::rest) ≤ (c::rest).length := by
  rw [intWidth]
  split_ifs with hhex
  · have htwo : 2 ≤ (c::rest).length := by
      obtain hhex|hhex := hhex
      · exact two_le_of_take (by decide) hhex
      · exact two_le_of_take (by decide) hhex
    have hdigits := ( takeWhile_prefix isHexDigit (l := (c::rest).drop 2)).length_le
    rw [length_drop] at hdigits
    omega
  · exact ⟨runWidth_pos h,runWidth_le _ _⟩

/-- What a turn at the front of a source may do: a token that is no string is what it
takes, and nothing but white space and comments is passed over. -/
structure Turn.Takes (src : Text) (t : Turn) : Prop where
  pos : 0 < t.width
  le : t.width ≤ src.length
  exactly : ∀ token ∈ t.token, token.kind ≠ .string → token.text = src.take t.width
  silent : t.token = none → t.error = none →
    t.width = 1 ∧ (∃ c rest, src = c::rest ∧ isWhitespace c) ∨
      isLineComment src ∧ newline ∉ src.take t.width

theorem scanWord_takes (c : UInt8) (rest : Text) : (scanWord U c rest).Takes (c::rest) := by
  rw [scanWord]
  dsimp only
  split_ifs with hquote hdigit hident
  · have := lexString_le rest
    refine ⟨Nat.add_pos_left Nat.one_pos _,?_,?_,nofun⟩
    · simp only [length_cons]
      omega
    · rintro _ ⟨⟩ hstring
      exact absurd rfl hstring
  · obtain ⟨hpos,hle⟩ := intWidth_takes hdigit
    exact ⟨hpos,hle,by rintro _ ⟨⟩ _; rfl,nofun⟩
  · refine ⟨runWidth_pos ?_,runWidth_le _ _,by rintro _ ⟨⟩ _; rfl,nofun⟩
    rw [isIdentContinueRune, hident, Bool.true_or]
  · exact ⟨(decodeRune_width _ _).1,(decodeRune_width _ _).2,nofun,nofun⟩

theorem length_of_twoCharOperators : ∀ op ∈ twoCharOperators, op.1.length = 2 := by
  decide

theorem turn_takes (c : UInt8) (rest : Text) : (turn U c rest).Takes (c::rest) := by
  rw [turn]
  split_ifs with hspace hline hcomment
  · exact ⟨Nat.one_pos,by simp,nofun,fun _ _ => .inl ⟨rfl,c,rest,rfl,hspace⟩⟩
  · exact ⟨Nat.one_pos,by simp,by rintro _ ⟨⟩ _; rfl,nofun⟩
  · have htake : (c::rest).take 2 = ascii "//" := of_decide_eq_true hcomment
    have htwo := two_le_of_take (by decide) htake
    have hrun := takeWhile_prefix (fun b => decide (b ≠ newline)) (l := (c::rest).drop 2)
    refine ⟨Nat.add_pos_left Nat.two_pos _,?_,nofun,fun _ _ => .inr ⟨hcomment,?_⟩⟩
    · have := hrun.length_le
      rw [length_drop] at this
      dsimp only
      omega
    · rw [take_add, htake, ← prefix_iff_eq_take.mp hrun, mem_append, not_or]
      refine ⟨by decide,fun hmem => ?_⟩
      simpa using mem_takeWhile_imp hmem
  · cases htwo : twoCharOperators.lookup ((c::rest).take 2) with
    | some kind =>
      obtain ⟨before,after,htable,-⟩ := lookup_eq_some_iff.mp htwo
      have hop := length_of_twoCharOperators _ (htable ▸ mem_append_right _ mem_cons_self)
      exact ⟨Nat.two_pos,two_le_of_take hop rfl,by rintro _ ⟨⟩ _; rfl,nofun⟩
    | none =>
      cases singleCharTokens.lookup c with
      | some kind => exact ⟨Nat.one_pos,by simp,by rintro _ ⟨⟩ _; rfl,nofun⟩
      | none => exact scanWord_takes c rest

variable (U)

def turns : Text → List Turn
  | [] => []
  | c::rest => turn U c rest::turns ((c::rest).drop (turn U c rest).width)
termination_by src => src.length
decreasing_by
  have := (@turn_takes U c rest).pos
  simp only [length_drop, length_cons]
  omega

def place : ℕ → List Turn → List Token × List Diagnostic
  | _, [] => ([], [])
  | i, t::ts =>
    let placed := place (i+t.width) ts
    ((t.token.map fun token => ⟨token,i,i+t.width⟩).toList++placed.1,
      (t.error.map fun message => ⟨i,i+t.width,message⟩).toList++placed.2)

def all (src : Text) : List Token × List Diagnostic :=
  let placed := place 0 (turns U src)
  (placed.1++[⟨⟨.eof,[]⟩,src.length,src.length⟩], placed.2)

end

/-! ### Tokens tile the source -/

section
variable (src : Text) (i : ℕ) (toks : List Token) (ds : List Diagnostic)

/-- A byte in a token, in a diagnostic, between tokens as white space, or in a comment
that begins between tokens. -/
inductive Covered (k : ℕ) : Prop
  | token (t : Token) (h : t ∈ toks) (hk : t.start ≤ k ∧ k < t.stop)
  | reported (d : Diagnostic) (h : d ∈ ds) (hk : d.start ≤ k ∧ k < d.stop)
  | space (c : UInt8) (h : src[k]? = some c) (hc : isWhitespace c)
  | comment (j : ℕ) (hj : i ≤ j ∧ j ≤ k) (h : isLineComment (src.drop j))
      (hline : newline ∉ (src.take (k+1)).drop j) (hapart : ∀ t ∈ toks, t.stop ≤ j ∨ k < t.start)

structure Tiles : Prop where
  inside : ∀ t ∈ toks, i ≤ t.start ∧ t.start < t.stop ∧ t.stop ≤ src.length
  ordered : toks.Pairwise fun t u => t.stop ≤ u.start
  exactly : ∀ t ∈ toks, t.kind ≠ .string → t.text = (src.take t.stop).drop t.start
  covered : ∀ k, i ≤ k → k < src.length → Covered src i toks ds k

end

theorem Tiles.turn {src : Text} {i : ℕ} {toks : List Token} {ds : List Diagnostic} {t : Turn}
    (h : Tiles src (i+t.width) toks ds) (ht : t.Takes (src.drop i)) (hle : i+t.width ≤ src.length) :
    Tiles src i ((t.token.map fun token => ⟨token,i,i+t.width⟩).toList++toks)
      ((t.error.map fun message => ⟨i,i+t.width,message⟩).toList++ds) := by
  have hpos := ht.pos
  have hnew : ∀ u ∈ (t.token.map fun token => (⟨token,i,i+t.width⟩ : Token)).toList,
      ∃ token, t.token = some token ∧ u = ⟨token,i,i+t.width⟩ := by
    intro u hu
    obtain ⟨token,htoken,rfl⟩ := Option.map_eq_some_iff.mp (Option.mem_toList.mp hu)
    exact ⟨token,htoken,rfl⟩
  refine ⟨fun u hu => ?_,pairwise_append.mpr ⟨?_,h.ordered,fun u hu v hv => ?_⟩,
    fun u hu hstring => ?_,fun k hik hk => ?_⟩
  · obtain hu|hu := mem_append.mp hu
    · obtain ⟨token,_,rfl⟩ := hnew u hu
      dsimp only
      omega
    · have := h.inside u hu
      omega
  · cases t.token <;> simp
  · obtain ⟨token,_,rfl⟩ := hnew u hu
    exact (h.inside v hv).1
  · obtain hu|hu := mem_append.mp hu
    · obtain ⟨token,htoken,rfl⟩ := hnew u hu
      rw [drop_take, Nat.add_sub_cancel_left]
      exact ht.exactly token htoken hstring
    · exact h.exactly u hu hstring
  · by_cases hnear : k < i+t.width
    · cases htoken : t.token with
      | some token => exact .token ⟨token,i,i+t.width⟩ (by simp) ⟨hik,hnear⟩
      | none =>
        cases herror : t.error with
        | some message => exact .reported ⟨i,i+t.width,message⟩ (by simp) ⟨hik,hnear⟩
        | none =>
          obtain ⟨hone,c,rest,hsrc,hc⟩|⟨hcomment,hline⟩ := ht.silent htoken herror
          · obtain rfl : k = i := by omega
            exact .space c (by rw [← head?_drop, hsrc]; rfl) hc
          · refine .comment i ⟨Nat.le_refl i,hik⟩ hcomment ?_ fun u hu => ?_
            · rw [drop_take]
              exact fun hmem => hline ((take_prefix_take_left (by omega)).subset hmem)
            · have := (h.inside u hu).1
              exact .inr (by omega)
    · cases h.covered k (by omega) hk with
      | token u hu hk => exact .token u (mem_append_right _ hu) hk
      | reported d hd hk => exact .reported d (mem_append_right _ hd) hk
      | space c hc hspace => exact .space c hc hspace
      | comment j hj hcomment hline hapart =>
        refine .comment j (by omega) hcomment hline fun u hu => ?_
        obtain hu|hu := mem_append.mp hu
        · obtain ⟨token,_,rfl⟩ := hnew u hu
          exact .inl hj.1
        · exact hapart u hu

theorem place_tiles (U : Unicode) (src : Text) (i : ℕ) (hi : i ≤ src.length) :
    Tiles src i (place i (turns U (src.drop i))).1 (place i (turns U (src.drop i))).2 := by
  induction hn : src.length-i using Nat.strong_induction_on generalizing i with
  | _ n ih =>
    cases hsrc : src.drop i with
    | nil =>
      rw [turns, place]
      refine ⟨nofun,.nil,nofun,fun k hik hk => ?_⟩
      have := drop_eq_nil_iff.mp hsrc
      omega
    | cons c rest =>
      rw [turns, place]
      have htakes := @turn_takes U c rest
      have hpos := htakes.pos
      have hle := htakes.le
      rw [← hsrc, length_drop] at hle
      have htiles := ih _ (by omega) (i+(turn U c rest).width) (by omega) rfl
      rw [← drop_drop, hsrc] at htiles
      exact htiles.turn (hsrc ▸ htakes) (by omega)

/-- The tokens are inside the source, not empty, in order and apart, those that are no
strings are spelled as they are there, and no other byte is lost but in white space, in
comments and with a diagnostic. The end of the file is the last token. -/
theorem tokens_tile (U : Unicode) (src : Text) :
    ∃ toks, (all U src).1 = toks++[⟨⟨.eof,[]⟩,src.length,src.length⟩] ∧
      Tiles src 0 toks (all U src).2 :=
  ⟨_,rfl,place_tiles U src 0 (Nat.zero_le _)⟩

/-! ### Lexemes -/

section
variable (U : Unicode)

/-- The tokens of a source, without their places. -/
def lexemes (src : Text) : List Lexeme := (all U src).1.map Token.toLexeme

theorem place_lexemes (i : ℕ) (ts : List Turn) :
    (place i ts).1.map Token.toLexeme = ts.flatMap fun t => t.token.toList := by
  induction ts generalizing i with
  | nil => rfl
  | cons t ts ih =>
    rw [place, map_append, ih, flatMap_cons]
    cases t.token <;> rfl

theorem lexemes_cons (c : UInt8) (rest : Text) :
    lexemes U (c::rest) = (turn U c rest).token.toList++
      lexemes U ((c::rest).drop (turn U c rest).width) := by
  simp only [lexemes, all, map_append, place_lexemes]
  rw [turns, flatMap_cons, append_assoc]
  rfl

variable {U}

theorem lexemes_of_turn {c : UInt8} {rest : Text} {w : ℕ} {t : Lexeme}
    (h : turn U c rest = ⟨w,some t,none⟩) :
    lexemes U (c::rest) = t::lexemes U ((c::rest).drop w) := by
  rw [lexemes_cons, h]
  rfl

theorem lookup_eq_none {α β : Type} [BEq α] [LawfulBEq α] {x : α} {table : List (α × β)}
    (h : ∀ e ∈ table, x ≠ e.1) : table.lookup x = none := by
  rw [lookup_eq_none_iff]
  exact fun e he => by simpa using h e he

section
variable {c : UInt8} {kind : Kind} {rest : Text}

/-- A character that is a token of its own. -/
theorem lexemes_single (hc : (c, kind) ∈ singleCharTokens) (hslash : kind ≠ .slash)
    (htwo : ∀ op ∈ twoCharOperators, (c::rest).take 2 ≠ op.1) :
    lexemes U (c::rest) = ⟨kind,[c]⟩::lexemes U rest := by
  have hlook : ∀ e ∈ singleCharTokens, singleCharTokens.lookup e.1 = some e.2 ∧
      isWhitespace e.1 = false ∧ e.1 ≠ newline ∧ (e.2 ≠ .slash → e.1 ≠ '/'.toUInt8) := by
    decide
  obtain ⟨hlook,hspace,hline,hc⟩ := hlook _ hc
  have hcomment : isLineComment (c::rest) = false :=
    decide_eq_false fun h => hc hslash (cons.inj h).1
  refine lexemes_of_turn (w := 1) ?_
  rw [turn]
  simp only [hspace, hcomment, Bool.false_eq_true, if_false]
  rw [if_neg hline, lookup_eq_none htwo, hlook]

theorem lexemes_double {d : UInt8} (hop : ([c,d], kind) ∈ twoCharOperators) :
    lexemes U (c::d::rest) = ⟨kind,[c,d]⟩::lexemes U rest := by
  have hlook : ∀ e ∈ twoCharOperators, twoCharOperators.lookup e.1 = some e.2 ∧
      isWhitespace (e.1.headD 0) = false ∧ e.1.headD 0 ≠ newline ∧ e.1 ≠ ascii "//" := by
    decide
  obtain ⟨hlook,hspace,hline,hc⟩ : twoCharOperators.lookup [c,d] = some kind ∧
      isWhitespace c = false ∧ c ≠ newline ∧ [c,d] ≠ ascii "//" := hlook _ hop
  have hcomment : isLineComment (c::d::rest) = false := decide_eq_false hc
  have htake : (c::d::rest).take 2 = [c,d] := rfl
  refine lexemes_of_turn (w := 2) ?_
  rw [turn]
  simp only [hspace, hcomment, Bool.false_eq_true, if_false]
  rw [if_neg hline, htake, hlook]

end

/-- The bytes of some runes. -/
def encode (rs : List Char) : Text := rs.flatMap String.utf8EncodeChar

theorem encode_cons (r : Char) (rs : List Char) :
    encode (r::rs) = String.utf8EncodeChar r++encode rs :=
  flatMap_cons

theorem decodeRune_encode (r : Char) (rest : Text) :
    decodeRune (String.utf8EncodeChar r++rest) = (r, r.utf8Size) := by
  rw [decodeRune, toByteArray_append, ByteArray.utf8DecodeChar?_utf8EncodeChar_append]

theorem exists_encode_cons (r : Char) (rs : List Char) (rest : Text) :
    ∃ c cs, encode (r::rs)++rest = c::cs ∧ decodeRune (c::cs) = (r, r.utf8Size) ∧
      (c::cs).drop r.utf8Size = encode rs++rest := by
  have hlength := String.length_utf8EncodeChar r
  have happend : encode (r::rs)++rest = String.utf8EncodeChar r++(encode rs++rest) := by
    rw [encode_cons, append_assoc]
  have hdrop : (_++(encode rs++rest)).drop _ = _ := drop_left' hlength
  have hrune := decodeRune_encode r (encode rs++rest)
  cases hcs : String.utf8EncodeChar r++(encode rs++rest) with
  | nil =>
    have := r.utf8Size_pos
    rw [append_eq_nil_iff.mp hcs |>.1] at hlength
    exact absurd hlength (by simp; omega)
  | cons c cs => exact ⟨c,cs,happend.trans hcs,hcs ▸ hrune,hcs ▸ hdrop⟩

theorem runWidth_encode {p : Char → Bool} {rest : Text} (hrest : runWidth p rest = 0)
    (rs : List Char) (hrs : ∀ r ∈ rs, p r) : runWidth p (encode rs++rest) = (encode rs).length := by
  induction rs with
  | nil => exact hrest
  | cons r rs ih =>
    obtain ⟨c,cs,hcs,hrune,hdrop⟩ := exists_encode_cons r rs rest
    rw [hcs, runWidth, hrune, if_pos (hrs r mem_cons_self), hdrop,
      ih fun x hx => hrs x (mem_cons_of_mem r hx), encode_cons, length_append,
      String.length_utf8EncodeChar]

/-- The characters that no word has. -/
def marks : Text := ascii " \t\r\x0c\n\""++singleCharTokens.map Prod.fst

theorem isIdentContinueRune_mark {c : UInt8} (hc : c ∈ marks) (rest : Text) :
    isIdentContinueRune U (decodeRune (c::rest)).1 = false := by
  have hmarks : ∀ c ∈ marks, String.utf8EncodeChar (Char.ofNat c.toNat) = [c] ∧
      (Char.ofNat c.toNat).toNat < 128 ∧ Char.ofNat c.toNat ≠ '_' ∧
        (Char.ofNat c.toNat).isAlpha = false ∧ (Char.ofNat c.toNat).isDigit = false :=
    all_iff_forall_prop.mp (by decide)
  obtain ⟨hencode,hlt,hline,halpha,hdigit⟩ := hmarks c hc
  have hrune : decodeRune (c::rest) = _ := hencode ▸ decodeRune_encode (Char.ofNat c.toNat) rest
  rw [hrune, isIdentContinueRune, isIdentStartRune, U.letter_ascii _ hlt, U.digit_ascii _ hlt,
    halpha, hdigit, decide_eq_false hline]
  rfl

theorem isDigit_of_isIdentStartRune {r : Char} (hr : isIdentStartRune U r) :
    U.isDigit r = false := by
  obtain hr|hr := Bool.or_eq_true_iff.mp hr
  · rw [of_decide_eq_true hr, U.digit_ascii _ (by decide)]
    decide
  · exact U.letter_not_digit r hr

/-- A word as the lexer reads it. -/
def Word (U : Unicode) (w : Text) : Prop :=
  ∃ r rs, w = encode (r::rs) ∧ isIdentStartRune U r ∧ ∀ x ∈ rs, isIdentContinueRune U x

theorem isIdentContinueRune_of_start {r : Char} (hr : isIdentStartRune U r) :
    isIdentContinueRune U r := by
  rw [isIdentContinueRune, hr, Bool.true_or]

theorem Word.exists_cons {w : Text} (h : Word U w) (rest : Text) :
    ∃ c cs, w++rest = c::cs ∧ c ∉ marks ∧ isIdentStartRune U (decodeRune (c::cs)).1 := by
  obtain ⟨r,rs,rfl,hr,-⟩ := h
  obtain ⟨c,cs,hcs,hrune,-⟩ := exists_encode_cons r rs rest
  refine ⟨c,cs,hcs,fun hc => ?_,by rwa [hrune]⟩
  have := isIdentContinueRune_mark (U := U) hc cs
  rw [hrune, isIdentContinueRune_of_start hr] at this
  contradiction

/-- A word in front of a mark. -/
theorem Word.lexed {w : Text} (h : Word U w) {d : UInt8} (hd : d ∈ marks) (rest : Text) :
    lexemes U (w++d::rest) = wordOf w::lexemes U (d::rest) := by
  have hwidth : runWidth (isIdentContinueRune U) (w++d::rest) = w.length := by
    obtain ⟨r,rs,rfl,hr,hrs⟩ := h
    refine runWidth_encode ?_ _ (forall_mem_cons.mpr ⟨isIdentContinueRune_of_start hr,hrs⟩)
    rw [runWidth, if_neg]
    simp [isIdentContinueRune_mark hd]
  obtain ⟨c,cs,hcs,hmark,hstart⟩ := h.exists_cons (d::rest)
  have hturn : turn U c cs = ⟨w.length,some (wordOf w),none⟩ := by
    have hspace : isWhitespace c = false := by
      have : ascii " \t\r\x0c" ⊆ marks := by decide
      exact decide_eq_false fun hc => hmark (this hc)
    have hline : c ≠ newline := fun hc => hmark (by rw [hc]; decide)
    have hcomment : isLineComment (c::cs) = false := by
      refine decide_eq_false fun h => hmark ?_
      rw [(cons.inj h).1]
      decide
    have htwo : ∀ op ∈ twoCharOperators, (c::cs).take 2 ≠ op.1 := by
      have : ∀ op ∈ twoCharOperators, op.1.take 1 ⊆ marks := by decide
      exact fun op hop h => hmark (this op hop (by rw [← h]; exact mem_cons_self))
    have hone : ∀ e ∈ singleCharTokens, c ≠ e.1 := by
      intro e he h
      exact hmark (mem_append_right _ (h ▸ mem_map_of_mem he))
    have hquote : c ≠ '"'.toUInt8 := fun hc => hmark (by rw [hc]; decide)
    rw [turn]
    simp only [hspace, hcomment, Bool.false_eq_true, if_false]
    rw [if_neg hline, lookup_eq_none htwo, lookup_eq_none hone, scanWord]
    simp only [if_neg hquote, isDigit_of_isIdentStartRune hstart, hstart, Bool.false_eq_true,
      if_false, if_true]
    rw [← hcs, hwidth, take_left]
  rw [hcs, lexemes_of_turn hturn, ← hcs, drop_left]

theorem lexemes_alone {c : UInt8} {kind : Kind} (hc : (c, kind) ∈ singleCharTokens)
    (hslash : kind ≠ .slash) (halone : ∀ op ∈ twoCharOperators, op.1.head? ≠ some c)
    (rest : Text) : lexemes U (c::rest) = ⟨kind,[c]⟩::lexemes U rest :=
  lexemes_single hc hslash fun op hop h => halone op hop (by rw [← h]; rfl)

end

end Wrela.Lex

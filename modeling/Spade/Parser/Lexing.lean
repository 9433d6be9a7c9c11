import Mathlib.Data.Nat.Notation
import Spade.Parser.Lexer

/-!
# From text to tokens

The embedding of `spade-parser/src/lexer.rs` and of `Parser::next_token`. The generated lexer takes
the longest slice at the front of the text that one of the patterns matches; where several patterns
match it, the fixed texts come before the identifiers. Errors and panics have no result.

* **Longest slices** (`longestMatch_eq_some_iff`): what the lexer takes from the front of a text.
* **Separators** (`classify_of_separator`): slices with a character outside words.
* **Tokens of the parser** (`nextToken`, `tokenStream`): block comments are left out on the level of
  tokens, and peeking does not change what is eaten (`Eats.tokens`).
-/

namespace Spade.Parser

/-! ### Integers -/

/-- `char::to_digit` for digits and letters. -/
def digitValue (c : Char) : Option ℕ :=
  if c.isDigit then some (c.toNat - '0'.toNat)
  else if c.isLower then some (c.toNat - 'a'.toNat + 10)
  else if c.isUpper then some (c.toNat - 'A'.toNat + 10)
  else none

/-- `BigUint::parse_bytes` for texts without sign and underscores. -/
def parseBytes (buf : List Char) (radix : ℕ) : Option ℕ :=
  if buf = [] then none
  else buf.foldlM (fun acc c => do
    let d ← digitValue c
    if d < radix then some (acc * radix + d) else none) 0

/-- `parse_int`; `none` is a panic. -/
def parseInt (slice : List Char) (radix : ℕ) : Option (ℕ × LiteralKind) := do
  let lower := (slice.map Char.toLower).filter (· ≠ '_')
  let (cleaned, kind) ←
    if 'u' ∈ lower then do
      let split := lower.splitOn 'u'
      some (← split[0]?, .unsigned (← parseBytes (← split[1]?) 10))
    else if 'i' ∈ lower then do
      let split := lower.splitOn 'i'
      some (← split[0]?, .signed (← parseBytes (← split[1]?) 10))
    else some (lower, .unsized)
  some (← parseBytes cleaned radix, kind)

/-! ### Patterns -/

/-- The properties of the characters beyond ASCII. -/
structure UnicodeTable where
  xidStart : Char → Bool
  xidContinue : Char → Bool

namespace UnicodeTable

variable (T : UnicodeTable)

def isXidStart (c : Char) : Bool := if c.toNat < 128 then c.isAlpha else T.xidStart c

def isXidContinue (c : Char) : Bool :=
  if c.toNat < 128 then c.isAlphanum || c = '_' else T.xidContinue c

/-- What can follow the first character of an identifier. -/
def isIdentifierTail : List Char → Bool
  | [] | ['?'] | ['!'] | ['?', '!'] | ['⁈'] => true
  | c :: cs => T.isXidContinue c && isIdentifierTail cs

def isIdentifier : List Char → Bool
  | c :: cs => (T.isXidStart c || c = '_') && T.isIdentifierTail cs
  | [] => false

end UnicodeTable

def isHexDigit (c : Char) : Bool :=
  c.isDigit || ('A' ≤ c && c ≤ 'F') || ('a' ≤ c && c ≤ 'f')

def isBinDigit (c : Char) : Bool := c = '0' || c = '1'

/-- The letter of a size suffix. -/
def isSuffixLetter (c : Char) : Bool := c = 'u' || c = 'U' || c = 'i' || c = 'I'

/-- What can follow the first digit of an integer: digits and underscores and a size suffix. -/
def isIntegerTail (digit : Char → Bool) : List Char → Bool
  | [] => true
  | c :: cs =>
    ((digit c || c = '_') && isIntegerTail digit cs) ||
      (isSuffixLetter c && !cs.isEmpty && cs.all Char.isDigit)

def isInteger : List Char → Bool
  | c :: cs => c.isDigit && isIntegerTail Char.isDigit cs
  | [] => false

def isHexInteger : List Char → Bool
  | '0' :: 'x' :: c :: cs => isHexDigit c && isIntegerTail isHexDigit cs
  | _ => false

def isBinInteger : List Char → Bool
  | '0' :: 'b' :: c :: cs => isBinDigit c && isIntegerTail isBinDigit cs
  | _ => false

def isBlank (c : Char) : Bool := c = ' ' || c = '\t' || c = '\n' || c = '\r'

/-- `//[^\n]*\n` -/
def isLineComment : List Char → Bool
  | '/' :: '/' :: body => body.getLast? = some '\n' && !body.dropLast.contains '\n'
  | _ => false

/-- The fixed texts. -/
def symbols : List (List Char × TokenKind) :=
  [("true".toList, .true_), ("false".toList, .false_), ("LOW".toList, .low),
    ("HIGH".toList, .high), ("HIGHIMP".toList, .highImp), ("reg".toList, .reg),
    ("let".toList, .let_), ("decl".toList, .decl), ("inst".toList, .instance_),
    ("reset".toList, .reset), ("initial".toList, .initial), ("if".toList, .if_),
    ("else".toList, .else_), ("match".toList, .match_), ("set".toList, .set),
    ("pipeline".toList, .pipeline), ("stage".toList, .stage), ("entity".toList, .entity),
    ("trait".toList, .trait), ("impl".toList, .impl), ("for".toList, .for_),
    ("fn".toList, .function), ("enum".toList, .enum), ("struct".toList, .struct),
    ("port".toList, .port), ("mod".toList, .mod), ("use".toList, .use), ("as".toList, .as_),
    ("assert".toList, .assert), ("mut".toList, .mut_), ("where".toList, .where_),
    ("$config".toList, .comptimeConfig), ("$if".toList, .comptimeIf),
    ("$else".toList, .comptimeElse), ("+".toList, .plus), ("-".toList, .minus),
    ("*".toList, .asterisk), ("/".toList, .slash), ("%".toList, .percentage),
    ("==".toList, .equals), ("!=".toList, .notEquals), ("<".toList, .lt), (">".toList, .gt),
    ("<=".toList, .le), (">=".toList, .ge), (">>>".toList, .arithmeticRightShift),
    (">>".toList, .rightShift), ("<<".toList, .leftShift), ("||".toList, .logicalOr),
    ("&&".toList, .logicalAnd), ("^^".toList, .logicalXor), ("&".toList, .ampersand),
    ("|".toList, .bitwiseOr), ("!".toList, .not), ("^".toList, .bitwiseXor),
    ("~".toList, .tilde), ("`".toList, .infixOperatorSeparator), ("'".toList, .singleQuote),
    ("=".toList, .assignment), ("(".toList, .openParen), (")".toList, .closeParen),
    ("\x7b".toList, .openBrace), ("\x7d".toList, .closeBrace), ("[".toList, .openBracket),
    ("]".toList, .closeBracket), ("=>".toList, .fatArrow), ("->".toList, .slimArrow),
    (",".toList, .comma), (".".toList, .dot), (";".toList, .semi), (":".toList, .colon),
    ("::".toList, .pathSeparator), ("#".toList, .hash), ("$".toList, .dollar),
    ("__builtin__".toList, .builtin), ("/*".toList, .blockCommentStart),
    ("*/".toList, .blockCommentEnd)]

/-! ### Characters outside words -/

/-- Characters that are in no integer and in no identifier. -/
def separators : List Char := [' ', '\t', '\n', '\r', '/', '*', '(', '>']

/-- The fixed texts with such a character. -/
def operators : List (List Char) :=
  ["*".toList, "/".toList, "/*".toList, "*/".toList, "(".toList, ">".toList, ">>".toList,
    ">>>".toList, ">=".toList, "=>".toList, "->".toList]

theorem separators_all :
    separators.all (fun c => c.toNat < 128 && !c.isDigit && !c.isAlphanum && !isHexDigit c &&
      !isBinDigit c && !isSuffixLetter c && !"_?!⁈0xb".toList.contains c) = true := by
  decide

theorem symbols_all :
    symbols.all (fun p => p.1.all (fun c => !separators.contains c) || operators.contains p.1) =
      true := by
  decide

theorem mem_of_isIntegerTail {digit : Char → Bool} {cs : List Char}
    (h : isIntegerTail digit cs = true) {c : Char} (hc : c ∈ cs) :
    digit c = true ∨ c = '_' ∨ isSuffixLetter c = true ∨ c.isDigit = true := by
  induction cs with
  | nil => exact absurd hc List.not_mem_nil
  | cons first cs ih =>
      rw [isIntegerTail] at h
      simp only [Bool.or_eq_true, Bool.and_eq_true, decide_eq_true_eq] at h
      obtain ⟨hfirst, hcs⟩ | ⟨⟨hfirst, -⟩, hall⟩ := h
      · rcases List.mem_cons.mp hc with rfl | hmem
        · exact hfirst.imp_right .inl
        · exact ih hcs hmem
      · rcases List.mem_cons.mp hc with rfl | hmem
        · exact .inr (.inr (.inl hfirst))
        · exact .inr (.inr (.inr (List.all_eq_true.mp hall c hmem)))

theorem mem_of_isIdentifierTail {T : UnicodeTable} {cs : List Char}
    (h : T.isIdentifierTail cs = true) {c : Char} (hc : c ∈ cs) :
    T.isXidContinue c = true ∨ c ∈ "?!⁈".toList := by
  fun_induction T.isIdentifierTail cs with
  | case1 => exact absurd hc List.not_mem_nil
  | case2 => exact .inr (List.mem_singleton.mp hc ▸ by decide)
  | case3 => exact .inr (List.mem_singleton.mp hc ▸ by decide)
  | case4 =>
      rcases List.mem_cons.mp hc with rfl | hmem
      · exact .inr (by decide)
      · exact .inr (List.mem_singleton.mp hmem ▸ by decide)
  | case5 => exact .inr (List.mem_singleton.mp hc ▸ by decide)
  | case6 first cs _ _ _ _ ih =>
      obtain ⟨hfirst, hcs⟩ := (Bool.and_eq_true _ _).mp h
      rcases List.mem_cons.mp hc with rfl | hmem
      · exact .inl hfirst
      · exact ih hcs hmem

/-- A separator is in no integer and in no identifier. -/
theorem separator_facts {c : Char} (h : c ∈ separators) :
    c.toNat < 128 ∧ c.isDigit = false ∧ c.isAlphanum = false ∧ isHexDigit c = false ∧
      isBinDigit c = false ∧ isSuffixLetter c = false ∧ c ∉ "_?!⁈0xb".toList := by
  have hall := List.all_eq_true.mp separators_all c h
  simpa [and_assoc] using hall

theorem not_isIntegerTail {digit : Char → Bool} {c : Char} (h : c ∈ separators)
    (hdigit : digit c = false) {cs : List Char} (hc : c ∈ cs) : isIntegerTail digit cs = false := by
  obtain ⟨-, hdec, -, -, -, hsuffix, hother⟩ := separator_facts h
  rw [← Bool.not_eq_true]
  intro htail
  obtain htrue | rfl | htrue | htrue := mem_of_isIntegerTail htail hc
  · exact Bool.noConfusion (hdigit.symm.trans htrue)
  · exact hother (by decide)
  · exact Bool.noConfusion (hsuffix.symm.trans htrue)
  · exact Bool.noConfusion (hdec.symm.trans htrue)

/-- What a pattern makes of its slice. -/
inductive Lexeme where
  | token (kind : TokenKind)
  /-- `logos::skip`. -/
  | skip
  /-- The conversion of the slice panics. -/
  | panic
  deriving DecidableEq

/-- The token of an integer, `parseInt` on what follows the prefix. -/
def integerLexeme (make : ℕ → LiteralKind → TokenKind) (slice : List Char) (radix : ℕ) : Lexeme :=
  match parseInt slice radix with
  | some (val, kind) => .token (make val kind)
  | none => .panic

section

variable (T : UnicodeTable)

/-- The pattern that matches the whole slice. -/
def classify (slice : List Char) : Option Lexeme :=
  if isInteger slice then some (integerLexeme .integer slice 10)
  else if isHexInteger slice then some (integerLexeme .hexInteger (slice.drop 2) 16)
  else if isBinInteger slice then some (integerLexeme .binInteger (slice.drop 2) 2)
  else if isLineComment slice || (slice.length = 1 && slice.all isBlank) then some .skip
  else
    match symbols.lookup slice with
    | some kind => some (.token kind)
    | none =>
      if T.isIdentifier slice then some (.token (.identifier (String.ofList slice))) else none

theorem mem_symbols_of_lookup {slice : List Char} {kind : TokenKind}
    (h : symbols.lookup slice = some kind) : (slice, kind) ∈ symbols := by
  obtain ⟨before, after, heq, -⟩ := List.lookup_eq_some_iff.mp h
  rw [heq]
  exact List.mem_append_right _ List.mem_cons_self

section

variable {T} {c : Char} {slice : List Char}

theorem not_isInteger (h : c ∈ separators) (hc : c ∈ slice) : isInteger slice = false := by
  have hfacts := separator_facts h
  unfold isInteger
  split
  · next first cs =>
    rcases List.mem_cons.mp hc with rfl | hmem
    · rw [hfacts.2.1, Bool.false_and]
    · rw [not_isIntegerTail h hfacts.2.1 hmem, Bool.and_false]
  · rfl

theorem not_isHexInteger (h : c ∈ separators) (hc : c ∈ slice) : isHexInteger slice = false := by
  have hfacts := separator_facts h
  unfold isHexInteger
  split
  · next first cs =>
    simp only [List.mem_cons] at hc
    obtain rfl | rfl | rfl | hmem := hc
    · exact absurd (by decide) hfacts.2.2.2.2.2.2
    · exact absurd (by decide) hfacts.2.2.2.2.2.2
    · rw [hfacts.2.2.2.1, Bool.false_and]
    · rw [not_isIntegerTail h hfacts.2.2.2.1 hmem, Bool.and_false]
  · rfl

theorem not_isBinInteger (h : c ∈ separators) (hc : c ∈ slice) : isBinInteger slice = false := by
  have hfacts := separator_facts h
  unfold isBinInteger
  split
  · next first cs =>
    simp only [List.mem_cons] at hc
    obtain rfl | rfl | rfl | hmem := hc
    · exact absurd (by decide) hfacts.2.2.2.2.2.2
    · exact absurd (by decide) hfacts.2.2.2.2.2.2
    · rw [hfacts.2.2.2.2.1, Bool.false_and]
    · rw [not_isIntegerTail h hfacts.2.2.2.2.1 hmem, Bool.and_false]
  · rfl

theorem not_isIdentifier (h : c ∈ separators) (hc : c ∈ slice) : T.isIdentifier slice = false := by
  obtain ⟨hascii, -, halphanum, -, -, -, hother⟩ := separator_facts h
  have halpha : c.isAlpha = false := ((Bool.or_eq_false_iff).mp halphanum).1
  have hunderscore : c ≠ '_' := by
    rintro rfl
    exact hother (by decide)
  unfold UnicodeTable.isIdentifier
  split
  · next first cs =>
    rcases List.mem_cons.mp hc with rfl | hmem
    · unfold UnicodeTable.isXidStart
      rw [if_pos hascii, halpha, decide_eq_false hunderscore]
      rfl
    · rw [Bool.and_eq_false_iff]
      right
      rw [← Bool.not_eq_true]
      intro htail
      obtain hcontinue | hmark := mem_of_isIdentifierTail htail hmem
      · unfold UnicodeTable.isXidContinue at hcontinue
        rw [if_pos hascii, halphanum, decide_eq_false hunderscore] at hcontinue
        exact Bool.false_ne_true hcontinue
      · apply hother
        have hall : "?!⁈".toList.all ("_?!⁈0xb".toList.contains ·) = true := by decide
        exact List.contains_iff_mem.mp (List.all_eq_true.mp hall c hmark)
  · rfl

/-- A slice with a separator is white space, a comment or an operator. -/
theorem classify_of_separator (h : c ∈ separators) (hc : c ∈ slice) {lexeme : Lexeme}
    (hclass : classify T slice = some lexeme) :
    ((isLineComment slice = true ∨ ∃ b, slice = [b] ∧ isBlank b = true) ∧ lexeme = .skip) ∨
      slice ∈ operators := by
  unfold classify at hclass
  rw [not_isInteger h hc, not_isHexInteger h hc, not_isBinInteger h hc, not_isIdentifier h hc]
    at hclass
  simp only [Bool.false_eq_true, if_false] at hclass
  split at hclass
  · next hskip =>
    cases hclass
    refine .inl ⟨?_, rfl⟩
    simp only [Bool.or_eq_true, Bool.and_eq_true, decide_eq_true_eq] at hskip
    obtain hline | ⟨hlength, hblank⟩ := hskip
    · exact .inl hline
    · obtain ⟨b, rfl⟩ := List.length_eq_one_iff.mp hlength
      exact .inr ⟨b, rfl, by simpa using hblank⟩
  · next hskip =>
    split at hclass
    · next kind hlookup =>
      right
      have hall := List.all_eq_true.mp symbols_all _ (mem_symbols_of_lookup hlookup)
      rw [Bool.or_eq_true] at hall
      obtain hnone | hoperator := hall
      · have hnot := List.all_eq_true.mp hnone c hc
        simp [h] at hnot
      · exact List.contains_iff_mem.mp hoperator
    · exact absurd hclass nofun

end

/-! ### Longest slices -/

/-- The longest slice of at most `n` characters, as what its pattern makes of it and the text
behind it. -/
def longestUpTo (input : List Char) : ℕ → Option (Lexeme × List Char)
  | 0 => none
  | n + 1 =>
    match classify T (input.take (n + 1)) with
    | some lexeme => some (lexeme, input.drop (n + 1))
    | none => longestUpTo input n

def longestMatch (input : List Char) : Option (Lexeme × List Char) :=
  longestUpTo T input input.length

variable {T}

theorem longestUpTo_eq_some {input : List Char} {n : ℕ} {lexeme : Lexeme} {rest : List Char}
    (h : longestUpTo T input n = some (lexeme, rest)) :
    ∃ m < n, classify T (input.take (m + 1)) = some lexeme ∧ rest = input.drop (m + 1) ∧
      ∀ k, m < k → k < n → classify T (input.take (k + 1)) = none := by
  induction n with
  | zero => exact absurd h (Option.some_ne_none _).symm
  | succ n ih =>
      unfold longestUpTo at h
      split at h
      · next lexeme' hclass =>
        obtain ⟨rfl, rfl⟩ := Prod.mk.inj (Option.some.inj h)
        exact ⟨n, Nat.lt_succ_self n, hclass, rfl, fun k hk hk' => by omega⟩
      · next hnone =>
        obtain ⟨m, hm, hclass, hrest, hlonger⟩ := ih h
        refine ⟨m, Nat.lt_succ_of_lt hm, hclass, hrest, fun k hk hk' => ?_⟩
        rcases Nat.lt_succ_iff_lt_or_eq.mp hk' with hlt | rfl
        · exact hlonger k hk hlt
        · exact hnone

theorem longestUpTo_append {slice rest : List Char} {lexeme : Lexeme} (hne : slice ≠ [])
    (hclass : classify T slice = some lexeme)
    (hlonger : ∀ more, more ≠ [] → more <+: rest → classify T (slice ++ more) = none) (k : ℕ)
    (hk : k ≤ rest.length) :
    longestUpTo T (slice ++ rest) (slice.length + k) = some (lexeme, rest) := by
  induction k with
  | zero =>
      obtain ⟨c, cs, rfl⟩ := List.exists_cons_of_ne_nil hne
      rw [Nat.add_zero, List.length_cons, longestUpTo]
      rw [← List.length_cons (a := c), List.take_left, List.drop_left, hclass]
  | succ k ih =>
      have hmore : classify T (slice ++ rest.take (k + 1)) = none := by
        apply hlonger _ _ (List.take_prefix _ _)
        rw [← List.length_pos_iff, List.length_take]
        omega
      rw [← Nat.add_assoc, longestUpTo, Nat.add_assoc, List.take_length_add_append, hmore]
      exact ih (Nat.le_of_succ_le hk)

/-- The lexer takes a slice exactly if one of the patterns matches it and none matches a longer
one. -/
theorem longestMatch_eq_some_iff {input : List Char} {lexeme : Lexeme} {rest : List Char} :
    longestMatch T input = some (lexeme, rest) ↔
      ∃ slice, slice ≠ [] ∧ input = slice ++ rest ∧ classify T slice = some lexeme ∧
        ∀ more, more ≠ [] → more <+: rest → classify T (slice ++ more) = none := by
  constructor
  · intro h
    obtain ⟨m, hm, hclass, rfl, hlonger⟩ := longestUpTo_eq_some h
    refine ⟨input.take (m + 1), ?_, (List.take_append_drop _ _).symm, hclass, ?_⟩
    · rw [← List.length_pos_iff, List.length_take]
      omega
    · rintro more hne ⟨tail, htail⟩
      have hlen : more.length + tail.length = input.length - (m + 1) := by
        rw [← List.length_append, htail, List.length_drop]
      have hpos : 0 < more.length := List.length_pos_iff.mpr hne
      have htake : input.take (m + 1) ++ more = input.take (m + more.length + 1) := by
        have hdrop : (input.drop (m + 1)).take more.length = more := by
          rw [← htail, List.take_left]
        rw [Nat.add_right_comm, @List.take_add _ input (m + 1) more.length, hdrop]
      rw [htake]
      exact hlonger _ (by omega) (by omega)
  · rintro ⟨slice, hne, rfl, hclass, hlonger⟩
    unfold longestMatch
    rw [List.length_append]
    exact longestUpTo_append hne hclass hlonger _ (Nat.le_refl _)

/-- A fixed text is never the slice `slice`. -/
theorem lookup_symbols_eq_none {slice : List Char}
    (h : ∀ text kind, (text, kind) ∈ symbols → slice ≠ text) : symbols.lookup slice = none := by
  rw [List.lookup_eq_none_iff]
  rintro ⟨text, kind⟩ hmem
  exact bne_iff_ne.mpr (h text kind hmem)

/-! ### Tokens -/

namespace UnicodeTable

/-- `Lexer::next`. -/
def lexNext (T : UnicodeTable) (input : List Char) : Option (TokenKind × List Char) :=
  if input = [] then some (.eof, [])
  else
    match longestMatch T input with
    | some (.token kind, rest) => some (kind, rest)
    | some (.skip, rest) => T |>.lexNext rest
    | some (.panic, _) | none => none
partial_fixpoint

mutual

/-- `Parser::next_token`. -/
def nextToken (T : UnicodeTable) (input : List Char) : Option (TokenKind × List Char) := do
  let (kind, rest) ← T.lexNext input
  if kind = .blockCommentStart then T |>.blockComment rest else some (kind, rest)
partial_fixpoint

/-- The loop of `next_token` behind the start of a block comment. -/
def blockComment (T : UnicodeTable) (input : List Char) : Option (TokenKind × List Char) := do
  let (kind, rest) ← T |>.nextToken input
  match kind with
  | .blockCommentEnd => T |>.nextToken rest
  -- Unterminated block comment
  | .eof => none
  | _ => T |>.blockComment rest
partial_fixpoint

end

/-- All tokens up to the end of the file. -/
def tokenStream (T : UnicodeTable) (input : List Char) : Option (List TokenKind) := do
  let (kind, rest) ← T.nextToken input
  if kind = .eof then some []
  else do
    let kinds ← T |>.tokenStream rest
    some (kind :: kinds)
partial_fixpoint

end UnicodeTable

export UnicodeTable (lexNext nextToken blockComment tokenStream)

theorem lexNext_nil (T : UnicodeTable) : lexNext T [] = some (.eof, []) := by
  rw [lexNext, if_pos rfl]

theorem lexNext_of_token {input rest : List Char} {kind : TokenKind}
    (h : longestMatch T input = some (.token kind, rest)) :
    lexNext T input = some (kind, rest) := by
  have hne : input ≠ [] := by
    rintro rfl
    exact absurd h (Option.some_ne_none _).symm
  rw [lexNext, if_neg hne, h]

theorem lexNext_of_skip {input rest : List Char}
    (h : longestMatch T input = some (.skip, rest)) : lexNext T input = lexNext T rest := by
  have hne : input ≠ [] := by
    rintro rfl
    exact absurd h (Option.some_ne_none _).symm
  rw [lexNext, if_neg hne, h]

theorem nextToken_of_lexNext {input rest : List Char} {kind : TokenKind}
    (h : lexNext T input = some (kind, rest)) (hkind : kind ≠ .blockCommentStart) :
    nextToken T input = some (kind, rest) := by
  rw [nextToken, h]
  exact if_neg hkind

theorem tokenStream_nil : tokenStream T [] = some [] := by
  rw [tokenStream, nextToken_of_lexNext (lexNext_nil T) (by decide)]
  rfl

theorem tokenStream_eq_cons {input rest : List Char} {kind : TokenKind}
    (h : nextToken T input = some (kind, rest)) (hkind : kind ≠ .eof) :
    tokenStream T input = (tokenStream T rest).map (kind :: ·) := by
  rw [tokenStream, h]
  refine (if_neg hkind).trans ?_
  cases tokenStream T rest <;> rfl

theorem tokenStream_cons {input rest : List Char} {kind : TokenKind} {kinds : List TokenKind}
    (h : nextToken T input = some (kind, rest)) (hkind : kind ≠ .eof)
    (hrest : tokenStream T rest = some kinds) : tokenStream T input = some (kind :: kinds) := by
  rw [tokenStream_eq_cons h hkind, hrest]
  rfl

theorem tokenStream_of_eof {input rest : List Char} (h : nextToken T input = some (.eof, rest)) :
    tokenStream T input = some [] := by
  rw [tokenStream, h]
  rfl

/-! ### The token that is peeked -/

/-- The parts of `Parser` that the token stream depends on. -/
structure ParserState where
  peeked : Option TokenKind
  input : List Char

variable (T)

/-- `eat_unconditional`. -/
def eatUnconditional (s : ParserState) : Option (TokenKind × ParserState) :=
  match s.peeked with
  | some kind => some (kind, { s with peeked := none })
  | none => (nextToken T s.input).map fun r => (r.1, ⟨none, r.2⟩)

/-- `Parser::peek`. -/
def peekToken (s : ParserState) : Option (TokenKind × ParserState) :=
  match s.peeked with
  | some kind => some (kind, s)
  | none => (nextToken T s.input).map fun r => (r.1, ⟨some r.1, r.2⟩)

/-- The tokens that are left. -/
def ParserState.tokens (s : ParserState) : Option (List TokenKind) :=
  match s.peeked with
  | none => tokenStream T s.input
  | some kind => if kind = .eof then some [] else (tokenStream T s.input).map (kind :: ·)

variable {T}

theorem tokens_of_peekToken {s s' : ParserState} {kind : TokenKind}
    (h : peekToken T s = some (kind, s')) : s'.tokens T = s.tokens T := by
  obtain ⟨peeked, input⟩ := s
  cases peeked with
  | some kind =>
      cases h
      rfl
  | none =>
      obtain ⟨⟨kind, rest⟩, hnext, h⟩ := Option.map_eq_some_iff.mp h
      cases h
      unfold ParserState.tokens
      by_cases hkind : kind = .eof
      · subst hkind
        exact (tokenStream_of_eof hnext).symm
      · exact (if_neg hkind).trans (tokenStream_eq_cons hnext hkind).symm

theorem tokens_of_eatUnconditional {s s' : ParserState} {kind : TokenKind}
    (h : eatUnconditional T s = some (kind, s')) (hkind : kind ≠ .eof) :
    s.tokens T = (s'.tokens T).map (kind :: ·) := by
  obtain ⟨peeked, input⟩ := s
  cases peeked with
  | some kind =>
      cases h
      exact if_neg hkind
  | none =>
      obtain ⟨⟨kind, rest⟩, hnext, h⟩ := Option.map_eq_some_iff.mp h
      cases h
      exact tokenStream_eq_cons hnext hkind

/-- Peeking and eating in any order, with the tokens that are eaten. -/
inductive Eats (T : UnicodeTable) : ParserState → List TokenKind → ParserState → Prop
  | done {s : ParserState} : Eats T s [] s
  | peek {s s' s'' : ParserState} {kind : TokenKind} {kinds : List TokenKind} :
      peekToken T s = some (kind, s') → Eats T s' kinds s'' → Eats T s kinds s''
  | eat {s s' s'' : ParserState} {kind : TokenKind} {kinds : List TokenKind} :
      eatUnconditional T s = some (kind, s') → kind ≠ .eof → Eats T s' kinds s'' →
        Eats T s (kind :: kinds) s''

/-- Whatever is peeked, the tokens are eaten in the order of the token stream. -/
theorem Eats.tokens {s s' : ParserState} {kinds : List TokenKind} (h : Eats T s kinds s') :
    s.tokens T = (s'.tokens T).map (kinds ++ ·) := by
  induction h with
  | @done s => cases s.tokens T <;> rfl
  | peek hpeek _ ih => rw [← tokens_of_peekToken hpeek, ih]
  | eat heat hkind _ ih =>
      rw [tokens_of_eatUnconditional heat hkind, ih, Option.map_map]
      rfl

end

end Spade.Parser

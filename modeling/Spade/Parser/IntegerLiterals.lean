import Mathlib.Data.Nat.Digits.Defs
import Mathlib.Data.Int.Notation
import Mathlib.Tactic.Ring
import Spade.Parser.Lexing
import Spade.Parser.Expression

/-!
# What integer literals denote

A literal text is a sign, the marker of a radix, digits with underscores among them and a size
suffix (`LiteralText`). The lexer makes one integer token of what follows the sign and
`Parser::int_literal` makes a literal of it.

* **Lexing** (`tokenStream_text`): every literal text is lexed, the token has the number that the
  digits spell and the kind of the suffix.
* **Parsing** (`isFaithful_iff`): the literal has the sign of the text, except for an unsigned one,
  which loses it.
-/

namespace Spade.Parser

open Spade.Ast

/-! ### Literal texts -/

inductive Sign where
  | plus
  | minus
  deriving DecidableEq

inductive Radix where
  | decimal
  | hexadecimal
  | binary

namespace Radix

def base : Radix → ℕ
  | .decimal => 10
  | .hexadecimal => 16
  | .binary => 2

def marker : Radix → List Char
  | .decimal => []
  | .hexadecimal => ['0', 'x']
  | .binary => ['0', 'b']

def digits : Radix → List Char
  | .decimal => "0123456789".toList
  | .hexadecimal => "0123456789abcdefABCDEF".toList
  | .binary => "01".toList

end Radix

/-- The value of a digit of any radix. -/
def valueOf (c : Char) : ℕ := "0123456789abcdef".toList.idxOf c.toLower

/-- The number that digits spell, whatever underscores stand among them. -/
def spelled (base : ℕ) (text : List Char) : ℕ :=
  Nat.ofDigits base ((text.filter (· ≠ '_')).reverse.map valueOf)

/-- `u` or `i` and the digits of a size. -/
structure SizeSuffix where
  letter : Char
  size : List Char
  letter_mem : letter ∈ "uUiI".toList
  size_ne_nil : size ≠ []
  size_mem : ∀ c ∈ size, c ∈ Radix.decimal.digits

structure LiteralText where
  sign : Option Sign
  radix : Radix
  first : Char
  rest : List Char
  suffix : Option SizeSuffix
  first_mem : first ∈ radix.digits
  rest_mem : ∀ c ∈ rest, c ∈ radix.digits ∨ c = '_'

def SizeSuffix.text (s : SizeSuffix) : List Char := s.letter :: s.size

def SizeSuffix.kind (s : SizeSuffix) : LiteralKind :=
  if s.letter ∈ "uU".toList then .unsigned (spelled 10 s.size) else .signed (spelled 10 s.size)

namespace LiteralText

def signText (t : LiteralText) : List Char :=
  match t.sign with
  | none => []
  | some .plus => ['+']
  | some .minus => ['-']

def suffixText (t : LiteralText) : List Char := (t.suffix.map SizeSuffix.text).getD []

/-- What follows the marker. -/
def body (t : LiteralText) : List Char := t.first :: (t.rest ++ t.suffixText)

def text (t : LiteralText) : List Char := t.signText ++ (t.radix.marker ++ t.body)

def number (t : LiteralText) : ℕ := spelled t.radix.base (t.first :: t.rest)

def kind (t : LiteralText) : LiteralKind := (t.suffix.map SizeSuffix.kind).getD .unsized

/-- The sign times the number. -/
def value (t : LiteralText) : ℤ := if t.sign = some .minus then -t.number else t.number

end LiteralText

/-! ### Digits -/

theorem digits_all (r : Radix) :
    r.digits.all (fun c => digitValue c.toLower = some (valueOf c) && valueOf c < r.base &&
      c.toLower ≠ 'u' && c.toLower ≠ 'i' && c.toLower ≠ '_' && c ≠ '_') = true := by
  cases r <;> decide

theorem parseBytes_foldlM {base : ℕ} {buf : List Char} (acc : ℕ)
    (h : ∀ c ∈ buf, digitValue c.toLower = some (valueOf c) ∧ valueOf c < base) :
    (buf.map Char.toLower).foldlM (fun acc c => do
        let d ← digitValue c
        if d < base then some (acc * base + d) else none) acc =
      some (acc * base ^ buf.length + Nat.ofDigits base (buf.reverse.map valueOf)) := by
  induction buf generalizing acc with
  | nil => simp
  | cons c buf ih =>
      obtain ⟨⟨hvalue, hlt⟩, hrest⟩ := List.forall_mem_cons.mp h
      have hstep : (do
          let d ← some (valueOf c)
          if d < base then some (acc * base + d) else none) = some (acc * base + valueOf c) :=
        if_pos hlt
      rw [List.map_cons, List.foldlM_cons, hvalue, hstep]
      refine (ih _ hrest).trans ?_
      rw [List.reverse_cons, List.map_append, Nat.ofDigits_append, List.length_map,
        List.length_reverse, List.map_singleton, Nat.ofDigits_singleton, List.length_cons]
      congr 1
      ring

theorem parseBytes_map_toLower {base : ℕ} {buf : List Char} (hne : buf ≠ [])
    (h : ∀ c ∈ buf, digitValue c.toLower = some (valueOf c) ∧ valueOf c < base) :
    parseBytes (buf.map Char.toLower) base =
      some (Nat.ofDigits base (buf.reverse.map valueOf)) := by
  unfold parseBytes
  rw [if_neg (mt List.map_eq_nil_iff.mp hne), parseBytes_foldlM 0 h, Nat.zero_mul, Nat.zero_add]

theorem digit_facts {r : Radix} {c : Char} (h : c ∈ r.digits) :
    digitValue c.toLower = some (valueOf c) ∧ valueOf c < r.base ∧ c.toLower ≠ 'u' ∧
      c.toLower ≠ 'i' ∧ c.toLower ≠ '_' ∧ c ≠ '_' := by
  have hall := List.all_eq_true.mp (digits_all r) c h
  simp only [Bool.and_eq_true, decide_eq_true_eq] at hall
  tauto

/-- Digits and underscores in lower case. -/
theorem filter_map_toLower {r : Radix} {cs : List Char} (h : ∀ c ∈ cs, c ∈ r.digits ∨ c = '_') :
    (cs.map Char.toLower).filter (· ≠ '_') = (cs.filter (· ≠ '_')).map Char.toLower := by
  rw [List.filter_map]
  congr 1
  apply List.filter_congr
  intro c hc
  rcases h c hc with hdigit | rfl
  · have hfacts := digit_facts hdigit
    exact (decide_eq_true hfacts.2.2.2.2.1).trans (decide_eq_true hfacts.2.2.2.2.2).symm
  · rfl

/-- Without the underscores only digits are left. -/
theorem mem_filter_digits {r : Radix} {cs : List Char} (h : ∀ c ∈ cs, c ∈ r.digits ∨ c = '_')
    {c : Char} (hc : c ∈ cs.filter (· ≠ '_')) : c ∈ r.digits := by
  have hmem := List.mem_filter.mp hc
  exact (h c hmem.1).resolve_right (of_decide_eq_true hmem.2)

theorem not_mem_map_toLower {r : Radix} {cs : List Char} (h : ∀ c ∈ cs, c ∈ r.digits) :
    'u' ∉ cs.map Char.toLower ∧ 'i' ∉ cs.map Char.toLower := by
  constructor
  · intro hmem
    obtain ⟨c, hc, heq⟩ := List.mem_map.mp hmem
    exact (digit_facts (h c hc)).2.2.1 heq
  · intro hmem
    obtain ⟨c, hc, heq⟩ := List.mem_map.mp hmem
    exact (digit_facts (h c hc)).2.2.2.1 heq

theorem parseBytes_digits {r : Radix} {cs : List Char} (hne : cs ≠ [])
    (h : ∀ c ∈ cs, c ∈ r.digits) :
    parseBytes (cs.map Char.toLower) r.base = some (Nat.ofDigits r.base (cs.reverse.map valueOf)) :=
  parseBytes_map_toLower hne fun c hc => ⟨(digit_facts (h c hc)).1, (digit_facts (h c hc)).2.1⟩

theorem splitOn_append_cons {c : Char} {ds ss : List Char} (hds : c ∉ ds) (hss : c ∉ ss) :
    (ds ++ c :: ss).splitOn c = [ds, ss] := by
  rw [List.splitOn_append_cons_self_of_not_mem hds, List.splitOn_eq_singleton hss]

section

variable {slice ds ss : List Char} {radix n size : ℕ}

theorem parseInt_unsized (h : (slice.map Char.toLower).filter (· ≠ '_') = ds) (hu : 'u' ∉ ds)
    (hi : 'i' ∉ ds) (hn : parseBytes ds radix = some n) :
    parseInt slice radix = some (n, .unsized) := by
  unfold parseInt
  rw [h]
  simp [hu, hi, hn]

theorem parseInt_unsigned (h : (slice.map Char.toLower).filter (· ≠ '_') = ds ++ 'u' :: ss)
    (hds : 'u' ∉ ds) (hss : 'u' ∉ ss) (hn : parseBytes ds radix = some n)
    (hsize : parseBytes ss 10 = some size) : parseInt slice radix = some (n, .unsigned size) := by
  unfold parseInt
  rw [h]
  simp [splitOn_append_cons hds hss, hn, hsize]

theorem parseInt_signed (h : (slice.map Char.toLower).filter (· ≠ '_') = ds ++ 'i' :: ss)
    (hds : 'u' ∉ ds ∧ 'i' ∉ ds) (hss : 'u' ∉ ss ∧ 'i' ∉ ss) (hn : parseBytes ds radix = some n)
    (hsize : parseBytes ss 10 = some size) : parseInt slice radix = some (n, .signed size) := by
  unfold parseInt
  rw [h]
  simp [splitOn_append_cons hds.2 hss.2, hds.1, hss.1, hn, hsize]

end

/-! ### The number and the kind -/

theorem SizeSuffix.filter_size (s : SizeSuffix) : s.size.filter (· ≠ '_') = s.size :=
  List.filter_eq_self.mpr fun c hc =>
    decide_eq_true (digit_facts (s.size_mem c hc)).2.2.2.2.2

theorem SizeSuffix.parseBytes_size (s : SizeSuffix) :
    parseBytes (s.size.map Char.toLower) 10 = some (spelled 10 s.size) := by
  unfold spelled
  rw [s.filter_size]
  exact parseBytes_digits (r := .decimal) s.size_ne_nil s.size_mem

/-- In lower case the suffix starts with the letter of its kind. -/
theorem SizeSuffix.lower_text (s : SizeSuffix) :
    (∃ size, s.kind = .unsigned size ∧ parseBytes (s.size.map Char.toLower) 10 = some size ∧
      (s.text.map Char.toLower).filter (· ≠ '_') = 'u' :: s.size.map Char.toLower) ∨
    (∃ size, s.kind = .signed size ∧ parseBytes (s.size.map Char.toLower) 10 = some size ∧
      (s.text.map Char.toLower).filter (· ≠ '_') = 'i' :: s.size.map Char.toLower) := by
  have hsize : (s.size.map Char.toLower).filter (· ≠ '_') = s.size.map Char.toLower := by
    rw [filter_map_toLower (r := .decimal) fun c hc => .inl (s.size_mem c hc), s.filter_size]
  have hletter : s.letter = 'u' ∨ s.letter = 'U' ∨ s.letter = 'i' ∨ s.letter = 'I' := by
    simpa using s.letter_mem
  unfold SizeSuffix.kind SizeSuffix.text
  rw [List.map_cons]
  rcases hletter with h | h | h | h
  all_goals rw [h]
  · exact .inl ⟨_, if_pos (by decide), s.parseBytes_size, congrArg _ hsize⟩
  · exact .inl ⟨_, if_pos (by decide), s.parseBytes_size, congrArg _ hsize⟩
  · exact .inr ⟨_, if_neg (by decide), s.parseBytes_size, congrArg _ hsize⟩
  · exact .inr ⟨_, if_neg (by decide), s.parseBytes_size, congrArg _ hsize⟩

namespace LiteralText

variable (t : LiteralText)

theorem digits_mem (c : Char) (hc : c ∈ t.first :: t.rest) : c ∈ t.radix.digits ∨ c = '_' := by
  rcases List.mem_cons.mp hc with rfl | hrest
  · exact .inl t.first_mem
  · exact t.rest_mem c hrest

/-- The lexer reads the number that the digits spell and the kind of the suffix. -/
theorem parseInt_body : parseInt t.body t.radix.base = some (t.number, t.kind) := by
  have hmem := fun c => mem_filter_digits t.digits_mem (c := c)
  have hne : (t.first :: t.rest).filter (· ≠ '_') ≠ [] :=
    List.ne_nil_of_mem (List.mem_filter.mpr
      ⟨List.mem_cons_self, decide_eq_true (digit_facts t.first_mem).2.2.2.2.2⟩)
  have hnumber : parseBytes _ t.radix.base = some t.number := parseBytes_digits hne hmem
  have hdigits := not_mem_map_toLower hmem
  have hlower : (t.body.map Char.toLower).filter (· ≠ '_') =
      ((t.first :: t.rest).filter (· ≠ '_')).map Char.toLower ++
        (t.suffixText.map Char.toLower).filter (· ≠ '_') := by
    unfold body
    rw [← List.cons_append, List.map_append, List.filter_append, filter_map_toLower t.digits_mem]
  unfold suffixText at hlower
  unfold kind
  cases hsuffix : t.suffix with
  | none =>
      rw [hsuffix] at hlower
      exact parseInt_unsized (hlower.trans (List.append_nil _)) hdigits.1 hdigits.2 hnumber
  | some s =>
      have hsize := not_mem_map_toLower s.size_mem
      rw [hsuffix] at hlower
      obtain ⟨size, hkind, hparse, htext⟩ | ⟨size, hkind, hparse, htext⟩ := s.lower_text
      · rw [Option.map_some, Option.getD_some, htext] at hlower
        rw [Option.map_some, Option.getD_some, hkind]
        exact parseInt_unsigned hlower hdigits.1 hsize.1 hnumber hparse
      · rw [Option.map_some, Option.getD_some, htext] at hlower
        rw [Option.map_some, Option.getD_some, hkind]
        exact parseInt_signed hlower hdigits hsize hnumber hparse

/-! ### The integer token -/

end LiteralText

def Radix.isDigit : Radix → Char → Bool
  | .decimal => Char.isDigit
  | .hexadecimal => isHexDigit
  | .binary => isBinDigit

def Radix.token : Radix → ℕ → LiteralKind → TokenKind
  | .decimal => .integer
  | .hexadecimal => .hexInteger
  | .binary => .binInteger

theorem isDigit_of_mem {r : Radix} {c : Char} (h : c ∈ r.digits) : r.isDigit c = true := by
  have hall : r.digits.all r.isDigit = true := by cases r <;> decide
  exact List.all_eq_true.mp hall c h

theorem isIntegerTail_append {digit : Char → Bool} {cs more : List Char}
    (h : ∀ c ∈ cs, digit c = true ∨ c = '_') (hmore : isIntegerTail digit more = true) :
    isIntegerTail digit (cs ++ more) = true := by
  induction cs with
  | nil => exact hmore
  | cons c cs ih =>
      obtain ⟨hc, hcs⟩ := List.forall_mem_cons.mp h
      rw [List.cons_append, isIntegerTail]
      simp [hc, ih hcs]

theorem SizeSuffix.isIntegerTail_text (s : SizeSuffix) (digit : Char → Bool) :
    isIntegerTail digit s.text = true := by
  have hletter : isSuffixLetter s.letter = true := by
    have hall : "uUiI".toList.all isSuffixLetter = true := by decide
    exact List.all_eq_true.mp hall _ s.letter_mem
  have hsize : s.size.all Char.isDigit = true :=
    List.all_eq_true.mpr fun c hc => isDigit_of_mem (r := .decimal) (s.size_mem c hc)
  have hne : s.size.isEmpty = false := List.isEmpty_eq_false_iff.mpr s.size_ne_nil
  rw [SizeSuffix.text, isIntegerTail]
  simp [hletter, hsize, hne]

namespace LiteralText

variable (t : LiteralText)

theorem isIntegerTail_body : isIntegerTail t.radix.isDigit (t.rest ++ t.suffixText) = true := by
  apply isIntegerTail_append
  · exact fun c hc => (t.rest_mem c hc).imp_left isDigit_of_mem
  · unfold suffixText
    cases t.suffix with
    | none => rfl
    | some s => exact s.isIntegerTail_text _

theorem integerLexeme_body :
    integerLexeme t.radix.token t.body t.radix.base = .token (t.radix.token t.number t.kind) := by
  rw [integerLexeme, t.parseInt_body]

/-- What follows the sign is one integer token. -/
theorem classify_unsigned (T : UnicodeTable) :
    classify T (t.radix.marker ++ t.body) = some (.token (t.radix.token t.number t.kind)) := by
  have hfirst := isDigit_of_mem t.first_mem
  have htail := t.isIntegerTail_body
  have hlexeme := t.integerLexeme_body
  have hdigits : (t.radix.isDigit t.first && isIntegerTail t.radix.isDigit
      (t.rest ++ t.suffixText)) = true := (Bool.and_eq_true _ _).mpr ⟨hfirst, htail⟩
  unfold classify
  cases hradix : t.radix with
  | decimal =>
      rw [hradix] at hdigits hlexeme
      rw [if_pos (show isInteger (Radix.decimal.marker ++ t.body) = true by exact hdigits)]
      exact congrArg some hlexeme
  | hexadecimal =>
      rw [hradix] at hdigits hlexeme
      rw [if_neg (show ¬ isInteger (Radix.hexadecimal.marker ++ t.body) = true by exact nofun),
        if_pos (show isHexInteger (Radix.hexadecimal.marker ++ t.body) = true by exact hdigits)]
      exact congrArg some hlexeme
  | binary =>
      rw [hradix] at hdigits hlexeme
      rw [if_neg (show ¬ isInteger (Radix.binary.marker ++ t.body) = true by exact nofun),
        if_neg (show ¬ isHexInteger (Radix.binary.marker ++ t.body) = true by exact nofun),
        if_pos (show isBinInteger (Radix.binary.marker ++ t.body) = true by exact hdigits)]
      exact congrArg some hlexeme

/-- The number starts with a decimal digit. -/
theorem exists_unsigned_eq :
    ∃ c cs, t.radix.marker ++ t.body = c :: cs ∧ c ∈ Radix.decimal.digits := by
  unfold body
  cases hradix : t.radix with
  | decimal => exact ⟨_, _, rfl, hradix ▸ t.first_mem⟩
  | hexadecimal => exact ⟨_, _, rfl, by decide⟩
  | binary => exact ⟨_, _, rfl, by decide⟩

end LiteralText

def Sign.char : Sign → Char
  | .plus => '+'
  | .minus => '-'

def Sign.token : Sign → TokenKind
  | .plus => .plus
  | .minus => .minus

theorem Sign.classify (s : Sign) (T : UnicodeTable) :
    classify T [s.char] = some (.token s.token) := by
  cases s <;> rfl

/-- No pattern matches a sign with the digits behind it. -/
theorem Sign.classify_digit (s : Sign) (T : UnicodeTable) {c : Char}
    (hc : c ∈ Radix.decimal.digits) (cs : List Char) :
    Parser.classify T (s.char :: c :: cs) = none := by
  have hlookup : symbols.lookup (s.char :: c :: cs) = none := by
    apply lookup_symbols_eq_none
    rintro text kind hmem rfl
    have hall : symbols.all (fun p => p.1.head? ≠ some s.char ||
        p.1[1]?.all (fun c => !Radix.decimal.digits.contains c)) = true := by
      cases s <;> decide
    have hsymbol := List.all_eq_true.mp hall _ hmem
    simp [hc] at hsymbol
  unfold Parser.classify
  rw [hlookup]
  cases s <;> rfl

namespace LiteralText

variable (t : LiteralText)

def tokens : List TokenKind :=
  (t.sign.map Sign.token).toList ++ [t.radix.token t.number t.kind]

theorem nextToken_unsigned (T : UnicodeTable) :
    nextToken T (t.radix.marker ++ t.body) = some (t.radix.token t.number t.kind, []) := by
  apply nextToken_of_lexNext
  · apply lexNext_of_token
    rw [longestMatch_eq_some_iff]
    refine ⟨_, ?_, (List.append_nil _).symm, t.classify_unsigned T, fun more hne hmore => ?_⟩
    · obtain ⟨c, cs, heq, -⟩ := t.exists_unsigned_eq
      rw [heq]
      exact List.cons_ne_nil _ _
    · exact absurd (List.prefix_nil.mp hmore) hne
  · cases t.radix <;> exact nofun

theorem nextToken_sign (T : UnicodeTable) (s : Sign) :
    nextToken T (s.char :: (t.radix.marker ++ t.body)) =
      some (s.token, t.radix.marker ++ t.body) := by
  obtain ⟨c, cs, heq, hc⟩ := t.exists_unsigned_eq
  apply nextToken_of_lexNext
  · apply lexNext_of_token
    rw [longestMatch_eq_some_iff]
    refine ⟨[s.char], List.cons_ne_nil _ _, rfl, s.classify T, fun more hne hmore => ?_⟩
    rw [heq] at hmore
    obtain ⟨d, ds, rfl⟩ := List.exists_cons_of_ne_nil hne
    obtain ⟨rfl, -⟩ := List.cons_prefix_cons.mp hmore
    exact s.classify_digit T hc ds
  · cases s <;> exact nofun

/-- Every literal text is lexed. -/
theorem tokenStream_text (T : UnicodeTable) : tokenStream T t.text = some t.tokens := by
  have hinteger : tokenStream T (t.radix.marker ++ t.body) =
      some [t.radix.token t.number t.kind] :=
    tokenStream_cons (t.nextToken_unsigned T) (by cases t.radix <;> exact nofun) tokenStream_nil
  unfold text tokens signText
  cases t.sign with
  | none => exact hinteger
  | some s =>
      have hsign : s.token ≠ .eof := by cases s <;> exact nofun
      have hstream := tokenStream_cons (t.nextToken_sign T s) hsign hinteger
      cases s <;> exact hstream

end LiteralText

/-! ### The literal -/

/-- The value and the kind of a literal. -/
def meaning : IntLiteral → ℤ × LiteralKind
  | .unsized val => (val, .unsized)
  | .signed val size => (val, .signed size)
  | .unsigned val size => (val, .unsigned size)

namespace LiteralText

variable (t : LiteralText)

theorem intLiteral_tokens :
    intLiteral t.tokens = some (some (literalOf (t.sign = some .minus) t.number t.kind), []) := by
  unfold tokens
  rcases t.sign with _ | _ | _
  all_goals cases t.radix <;> rfl

/-- The text is lexed, and `int_literal` rejects it or takes all of it for a literal with the value
and the kind of the text. -/
def IsFaithful (T : UnicodeTable) (t : LiteralText) : Prop :=
  ∃ toks, tokenStream T t.text = some toks ∧
    (intLiteral toks = none ∨
      ∃ lit, intLiteral toks = some (some lit, []) ∧ meaning lit = (t.value, t.kind))

theorem isFaithful_iff_meaning (T : UnicodeTable) :
    t.IsFaithful T ↔
      meaning (literalOf (t.sign = some .minus) t.number t.kind) = (t.value, t.kind) := by
  unfold IsFaithful
  rw [t.tokenStream_text T]
  constructor
  · rintro ⟨_, ⟨rfl⟩, hnone | ⟨lit, hlit, hdenotes⟩⟩
    · rw [intLiteral_tokens] at hnone
      exact absurd hnone (Option.some_ne_none _)
    · rw [intLiteral_tokens] at hlit
      cases hlit
      exact hdenotes
  · exact fun h => ⟨_, rfl, .inr ⟨_, t.intLiteral_tokens, h⟩⟩

def IsUnsigned (t : LiteralText) : Prop := ∃ s ∈ t.suffix, s.letter ∈ "uU".toList

theorem isUnsigned_iff : t.IsUnsigned ↔ ∃ size, t.kind = .unsigned size := by
  unfold IsUnsigned kind
  cases t.suffix with
  | none => exact iff_of_false (by simp) nofun
  | some s =>
      rw [Option.map_some, Option.getD_some, SizeSuffix.kind]
      split
      · next hletter => exact iff_of_true ⟨s, rfl, hletter⟩ ⟨_, rfl⟩
      · next hletter =>
        apply iff_of_false
        · rintro ⟨_, ⟨rfl⟩, hmem⟩
          exact hletter hmem
        · exact nofun

/-- The only literals that do not denote what they spell are the unsigned ones with a minus, other
than zero. -/
theorem isFaithful_iff (T : UnicodeTable) :
    t.IsFaithful T ↔ ¬ (t.sign = some .minus ∧ t.IsUnsigned ∧ t.number ≠ 0) := by
  rw [isFaithful_iff_meaning, isUnsigned_iff]
  unfold value
  cases hkind : t.kind with
  | unsized => by_cases hsign : t.sign = some .minus <;> simp [hsign, literalOf, meaning]
  | signed size => by_cases hsign : t.sign = some .minus <;> simp [hsign, literalOf, meaning]
  | unsigned size =>
      by_cases hsign : t.sign = some .minus
      · have hzero : (t.number : ℤ) = -t.number ↔ t.number = 0 := by omega
        simp [hsign, literalOf, meaning, hzero]
      · simp [hsign, literalOf, meaning]

/-- `-1u8` -/
def minusOneU8 : LiteralText where
  sign := some .minus
  radix := .decimal
  first := '1'
  rest := []
  suffix := some
    { letter := 'u', size := ['8'], letter_mem := by decide, size_ne_nil := by decide,
      size_mem := List.forall_mem_singleton.mpr (by decide) }
  first_mem := by decide
  rest_mem := nofun

theorem minusOneU8_not_isFaithful :
    minusOneU8.text = "-1u8".toList ∧ ¬ ∀ T, minusOneU8.IsFaithful T := by
  refine ⟨rfl, fun h => ?_⟩
  have hfaithful := h ⟨fun _ => false, fun _ => false⟩
  exact absurd ((minusOneU8.isFaithful_iff_meaning _).mp hfaithful) (by decide)

end LiteralText

end Spade.Parser

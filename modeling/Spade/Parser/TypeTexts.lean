import Mathlib.Data.Nat.Digits.Defs
import Spade.Parser.Comments
import Spade.Parser.IntegerLiterals
import Spade.Parser.TypeSpecs

/-!
# Texts of type specs

A type spec is written with a blank behind every token but between closing brackets, so that the
lexer takes two or three of these for one token.

* `tokenStream_write`: the tokens of such a text.
* `roundTrips_iff`: the type spec comes back from its text if no wire is one of a wildcard.
-/

namespace Spade.Parser.TypeSyntax

open Spade.Parser.Stream (expand)

variable {O : Type} {T : UnicodeTable} {C : ConstGeneric O}

/-! ### Texts -/

/-- The decimal digits of a number, the last one first. -/
def digitsOf (n : ℕ) : List Char :=
  if n = 0 then ['0'] else (Nat.digits 10 n).map Nat.digitChar

/-- The text of a token. -/
def sliceOf : TokenKind → List Char
  | .identifier name => name.toList
  | .integer val _ => (digitsOf val).reverse
  | kind => ((symbols.find? (·.2 = kind)).map Prod.fst).getD []

/-- A blank behind every token, other than between closing brackets. -/
def write : List TokenKind → List Char
  | [] => []
  | .gt :: .gt :: kinds => '>' :: write (.gt :: kinds)
  | kind :: kinds => sliceOf kind ++ ' ' :: write kinds

/-- The longest tokens in closing brackets that stand side by side. -/
def munch : List TokenKind → List TokenKind
  | .gt :: .gt :: .gt :: kinds => .arithmeticRightShift :: munch kinds
  | .gt :: .gt :: kinds => .rightShift :: munch kinds
  | kind :: kinds => kind :: munch kinds
  | [] => []

/-- A token that is lexed from its text and has no closing brackets in it, or is one. -/
structure IsSimple (T : UnicodeTable) (kind : TokenKind) : Prop where
  classify_eq : classify T (sliceOf kind) = some (.token kind)
  ne_start : kind ≠ .blockCommentStart
  parts_eq : Stream.parts kind = [kind]

theorem expand_munch {kinds : List TokenKind} (h : ∀ kind ∈ kinds, IsSimple T kind) :
    expand (munch kinds) = kinds := by
  induction kinds using munch.induct with
  | case1 kinds ih =>
      rw [munch, Stream.expand_cons, ih fun kind hkind => h kind (by simp [hkind])]
      rfl
  | case2 kinds hgt ih =>
      rw [munch, Stream.expand_cons, ih fun kind hkind => h kind (by simp [hkind])]
      · rfl
      · exact hgt
  | case3 kind kinds hthree htwo ih =>
      obtain ⟨hkind, hkinds⟩ := List.forall_mem_cons.mp h
      rw [munch, Stream.expand_cons, ih hkinds, hkind.parts_eq]
      · rfl
      · exact hthree
      · exact htwo
  | case4 => rfl

/-- A token with a blank or nothing behind it. -/
theorem tokenStream_slice {kind : TokenKind} {slice gap rest : List Char}
    (hclass : classify T slice = some (.token kind)) (hne : kind ≠ .blockCommentStart)
    (hgap : gap = [] ∨ gap = [' ']) (hlongest : IsLongest T slice (gap ++ rest))
    {kinds : List TokenKind} (h : tokenStream T rest = some kinds) :
    tokenStream T (slice ++ (gap ++ rest)) = some (kind :: kinds) := by
  have hslice : slice ≠ [] := by
    rintro rfl
    exact absurd hclass nofun
  apply tokenStream_cons (nextToken_of_lexNext (lexNext_token hslice hclass hlongest) hne)
    (token_facts hclass).1
  obtain rfl | rfl := hgap
  · exact h
  · have hblank : ReadOver T false 0 [' '] := .blank rfl .nil
    exact (tokenStream_congr (nextToken_of_reads hblank nofun)).trans h

theorem isLongest_of_blank {kind : TokenKind} {slice : List Char}
    (hclass : classify T slice = some (.token kind)) (hne : kind ≠ .blockCommentStart)
    (rest : List Char) : IsLongest T slice ([' '] ++ rest) := by
  have hblank : ReadOver T false 0 [' '] := .blank rfl .nil
  exact isLongest_gap ⟨slice, kind, hclass, hne⟩ hblank (absurd · (by decide)) rest

/-- No token is longer than three closing brackets. -/
theorem isLongest_brackets (rest : List Char) : IsLongest T ['>', '>', '>'] rest := by
  rintro more hne -
  obtain ⟨d, ds, rfl⟩ := List.exists_cons_of_ne_nil hne
  apply classify_eq_none (e := '>') (by decide) List.mem_cons_self (.inl (by decide))
  intro hoperator
  have hall : operators.all (·.length ≤ 3) = true := by decide
  have hlength : ds.length + 4 ≤ 3 := of_decide_eq_true (List.all_eq_true.mp hall _ hoperator)
  omega

theorem write_gt {kinds : List TokenKind} (h : kinds.head? ≠ some .gt) :
    write (.gt :: kinds) = '>' :: ' ' :: write kinds := by
  rw [write]
  · rfl
  · rintro more - rfl
    exact h rfl

/-- Behind a closing bracket there is a blank, or nothing before one more of them. -/
theorem exists_write_gt (kinds : List TokenKind) :
    ∃ gap, (gap = [] ∨ gap = [' ']) ∧ write (.gt :: kinds) = '>' :: (gap ++ write kinds) := by
  by_cases hhead : kinds.head? = some .gt
  · obtain ⟨more, rfl⟩ := List.head?_eq_some_iff.mp hhead
    exact ⟨[], .inl rfl, by rw [write]; rfl⟩
  · exact ⟨[' '], .inr rfl, write_gt hhead⟩

theorem tokenStream_write {kinds : List TokenKind} (h : ∀ kind ∈ kinds, IsSimple T kind) :
    tokenStream T (write kinds) = some (munch kinds) := by
  induction kinds using munch.induct with
  | case1 kinds ih =>
      obtain ⟨gap, hgap, hwrite⟩ := exists_write_gt kinds
      rw [munch, write, write, hwrite]
      have hslice : classify T ['>', '>', '>'] = some (.token .arithmeticRightShift) := rfl
      exact tokenStream_slice hslice nofun hgap (isLongest_brackets _)
        (ih fun kind hkind => h kind (by simp [hkind]))
  | case2 kinds hgt ih =>
      have hhead : kinds.head? ≠ some .gt := by
        intro hhead
        obtain ⟨more, rfl⟩ := List.head?_eq_some_iff.mp hhead
        exact hgt _ rfl
      rw [munch, write, write_gt hhead]
      swap
      · exact hgt
      have hslice : classify T ['>', '>'] = some (.token .rightShift) := rfl
      exact tokenStream_slice hslice nofun (.inr rfl) (isLongest_of_blank hslice nofun _)
        (ih fun kind hkind => h kind (by simp [hkind]))
  | case3 kind kinds hthree htwo ih =>
      obtain ⟨hkind, hkinds⟩ := List.forall_mem_cons.mp h
      rw [munch, write]
      · exact tokenStream_slice hkind.classify_eq hkind.ne_start (.inr rfl)
          (isLongest_of_blank hkind.classify_eq hkind.ne_start _) (ih hkinds)
      · exact htwo
      · exact hthree
      · exact htwo
  | case4 => exact tokenStream_nil

/-! ### The tokens of type specs -/

theorem digitChar_facts {d : ℕ} (h : d < 10) :
    Nat.digitChar d ∈ Radix.decimal.digits ∧ valueOf (Nat.digitChar d) = d := by
  have hall : (List.range 10).all (fun d => Nat.digitChar d ∈ Radix.decimal.digits &&
      valueOf (Nat.digitChar d) = d) = true := by decide
  have hfacts := List.all_eq_true.mp hall d (List.mem_range.mpr h)
  simpa using hfacts

theorem digitsOf_facts (n : ℕ) :
    digitsOf n ≠ [] ∧ (∀ c ∈ digitsOf n, c ∈ Radix.decimal.digits) ∧
      Nat.ofDigits 10 ((digitsOf n).map valueOf) = n := by
  unfold digitsOf
  split
  · next hzero =>
    subst hzero
    exact ⟨List.cons_ne_nil _ _, List.forall_mem_singleton.mpr (by decide), rfl⟩
  · next hne =>
    have hlt : ∀ d ∈ Nat.digits 10 n, d < 10 := fun d hd => Nat.digits_lt_base (by decide) hd
    refine ⟨?_, ?_, ?_⟩
    · exact mt List.map_eq_nil_iff.mp (Nat.digits_ne_nil_iff_ne_zero.mpr hne)
    · intro c hc
      obtain ⟨d, hd, rfl⟩ := List.mem_map.mp hc
      exact (digitChar_facts (hlt d hd)).1
    · have hvalues : ((Nat.digits 10 n).map Nat.digitChar).map valueOf = Nat.digits 10 n := by
        rw [List.map_map]
        refine (List.map_congr_left fun d hd => ?_).trans (List.map_id _)
        exact (digitChar_facts (hlt d hd)).2
      rw [hvalues, Nat.ofDigits_digits]

theorem classify_integer (n : ℕ) :
    classify T (digitsOf n).reverse = some (.token (.integer n .unsized)) := by
  obtain ⟨hne, hmem, hvalue⟩ := digitsOf_facts n
  obtain ⟨first, rest, hdigits⟩ := List.exists_cons_of_ne_nil (mt List.reverse_eq_nil_iff.mp hne)
  have hmems : ∀ c ∈ first :: rest, c ∈ Radix.decimal.digits := fun c hc =>
    hmem c (List.mem_reverse.mp (hdigits ▸ hc))
  let text : LiteralText :=
    { sign := none, radix := .decimal, first := first, rest := rest, suffix := none,
      first_mem := hmems _ List.mem_cons_self,
      rest_mem := fun c hc => .inl (hmems c (List.mem_cons_of_mem _ hc)) }
  have hnumber : text.number = n := by
    have hfilter : (first :: rest).filter (· ≠ '_') = first :: rest :=
      List.filter_eq_self.mpr fun c hc =>
        decide_eq_true (digit_facts (r := .decimal) (hmems c hc)).2.2.2.2.2
    change spelled 10 (first :: rest) = n
    rw [spelled, hfilter, ← hdigits, List.reverse_reverse, hvalue]
  have hclass := text.classify_unsigned T
  rw [hnumber] at hclass
  have hbody : text.radix.marker ++ text.body = (digitsOf n).reverse := by
    rw [hdigits]
    exact congrArg (first :: ·) (List.append_nil rest)
  rw [← hbody]
  exact hclass

theorem isSimple_integer (n : ℕ) : IsSimple T (.integer n .unsized) :=
  ⟨classify_integer n, nofun, rfl⟩

theorem isSimple_identifier {name : String}
    (h : classify T name.toList = some (.token (.identifier name))) :
    IsSimple T (.identifier name) :=
  ⟨h, nofun, rfl⟩

/-- The fixed tokens of type specs. -/
theorem isSimple_symbol {kind : TokenKind}
    (h : kind ∈ [.openParen, .closeParen, .openBracket, .closeBracket, .semi, .comma, .lt, .gt,
      .ampersand, .mut_, .tilde, .pathSeparator, .minus]) : IsSimple T kind := by
  simp only [List.mem_cons, List.not_mem_nil, or_false] at h
  obtain rfl | rfl | rfl | rfl | rfl | rfl | rfl | rfl | rfl | rfl | rfl | rfl | rfl := h
  all_goals exact ⟨rfl, by decide, rfl⟩

theorem isSimple_path {names : List String} (h : IsPath T names) :
    ∀ kind ∈ pathTokens names, IsSimple T kind := by
  have htail : ∀ names : List String,
      (∀ name ∈ names, classify T name.toList = some (.token (.identifier name))) →
        ∀ kind ∈ pathTail names, IsSimple T kind := by
    intro names hnames
    induction names with
    | nil => exact nofun
    | cons name names ih =>
        obtain ⟨hname, hrest⟩ := List.forall_mem_cons.mp hnames
        apply List.forall_mem_cons.mpr ⟨isSimple_symbol (by simp), ?_⟩
        exact List.forall_mem_cons.mpr ⟨isSimple_identifier hname, ih hrest⟩
  obtain ⟨name, more, rfl⟩ := List.exists_cons_of_ne_nil h.ne_nil
  obtain ⟨hname, hrest⟩ := List.forall_mem_cons.mp h.identifiers
  exact List.forall_mem_cons.mpr ⟨isSimple_identifier hname, htail more hrest⟩

theorem isSimple_separated {α : Type} {tokens : α → List TokenKind} {xs : List α}
    (h : ∀ x ∈ xs, ∀ kind ∈ tokens x, IsSimple T kind) :
    ∀ kind ∈ separatedTokens tokens xs, IsSimple T kind := by
  have htail : ∀ xs : List α, (∀ x ∈ xs, ∀ kind ∈ tokens x, IsSimple T kind) →
      ∀ kind ∈ separatedTail tokens xs, IsSimple T kind := by
    intro xs hxs
    induction xs with
    | nil => exact nofun
    | cons x xs ih =>
        obtain ⟨hx, hrest⟩ := List.forall_mem_cons.mp hxs
        apply List.forall_mem_cons.mpr ⟨isSimple_symbol (by simp), ?_⟩
        exact List.forall_mem_append.mpr ⟨hx, ih hrest⟩
  rcases xs with _ | ⟨x, xs⟩
  · exact nofun
  · obtain ⟨hx, hrest⟩ := List.forall_mem_cons.mp h
    exact List.forall_mem_append.mpr ⟨hx, htail xs hrest⟩

theorem isSimple_single {kind : TokenKind} (h : IsSimple T kind) :
    ∀ k ∈ [kind], IsSimple T k :=
  List.forall_mem_singleton.mpr h

mutual

theorem Writable.isSimple {t : TypeSpec O} (h : Writable T t) :
    ∀ kind ∈ specTokens t, IsSimple T kind := by
  rcases h with hinner | ⟨hinner, hsize⟩ | hpath | ⟨hpath, hargs⟩ | ⟨hinner, -⟩ | hinner |
    ⟨hinner, -⟩ | _
  · rw [specTokens, specsTokens_eq]
    apply List.forall_mem_cons.mpr ⟨isSimple_symbol (by simp), ?_⟩
    apply List.forall_mem_append.mpr ⟨?_, isSimple_single (isSimple_symbol (by simp))⟩
    exact isSimple_separated fun t ht => (hinner t ht).isSimple
  · rw [specTokens]
    apply List.forall_mem_cons.mpr ⟨isSimple_symbol (by simp), ?_⟩
    apply List.forall_mem_append.mpr ⟨hinner.isSimple, ?_⟩
    apply List.forall_mem_cons.mpr ⟨isSimple_symbol (by simp), ?_⟩
    exact List.forall_mem_append.mpr
      ⟨hsize.isSimple, isSimple_single (isSimple_symbol (by simp))⟩
  · exact isSimple_path hpath
  · rw [specTokens, expressionsTokens_eq]
    apply List.forall_mem_append.mpr ⟨isSimple_path hpath, ?_⟩
    apply List.forall_mem_cons.mpr ⟨isSimple_symbol (by simp), ?_⟩
    apply List.forall_mem_append.mpr ⟨?_, isSimple_single (isSimple_symbol (by simp))⟩
    exact isSimple_separated fun e he => (hargs e he).isSimple
  · apply List.forall_mem_cons.mpr ⟨isSimple_symbol (by simp), ?_⟩
    exact List.forall_mem_cons.mpr ⟨isSimple_symbol (by simp), hinner.isSimple⟩
  · exact List.forall_mem_cons.mpr ⟨isSimple_symbol (by simp), hinner.isSimple⟩
  · exact List.forall_mem_cons.mpr ⟨isSimple_symbol (by simp), hinner.isSimple⟩
  · exact isSimple_single (isSimple_identifier rfl)

theorem WritableExpression.isSimple {e : TypeExpression O} (h : WritableExpression T e) :
    ∀ kind ∈ expressionTokens e, IsSimple T kind := by
  rcases h with hinner | val
  · exact hinner.isSimple
  · rw [expressionTokens, integerTokens]
    split
    · exact List.forall_mem_cons.mpr
        ⟨isSimple_symbol (by simp), isSimple_single (isSimple_integer _)⟩
    · exact isSimple_single (isSimple_integer _)

end

/-! ### Round trips -/

/-- The text of a type spec, with its closing brackets side by side. -/
def TypeSpec.text (t : TypeSpec O) : List Char := write (specTokens t)

/-- The text of the type spec is read as the type spec, all of it and nothing that stands behind it:
where the last closing brackets are in one token with what follows, that is left. -/
structure RoundTrips (T : UnicodeTable) (C : ConstGeneric O)
    (t : TypeSpec O) : Prop where
  text : ∃ toks, tokenStream T t.text = some toks ∧ expand toks = specTokens t ∧
    typeSpec C toks = some (t, [])
  followed : Gives (typeSpec C) (specTokens t) t

theorem expand_eq_nil {toks : List TokenKind} (h : expand toks = []) : toks = [] := by
  rcases toks with _ | ⟨tok, toks⟩
  · rfl
  · rw [Stream.expand_cons] at h
    exact absurd (List.append_eq_nil_iff.mp h).1 (Stream.parts_ne_nil tok)

/-- A type spec comes back when it is parsed as itself. -/
theorem roundTrips_iff_strip {t : TypeSpec O} (h : Writable T t) :
    RoundTrips T C t ↔ strip t = t := by
  have hparse : Gives (typeSpec C) (specTokens t) (strip t) := h.parses.gives
  have hexpand : expand (munch (specTokens t)) = specTokens t := expand_munch h.isSimple
  obtain ⟨rest', htoks, hrest⟩ := hparse _ [] (hexpand.trans (List.append_nil _).symm)
    ⟨nofun, nofun⟩
  obtain rfl := expand_eq_nil hrest
  have htext : tokenStream T t.text = some (munch (specTokens t)) := tokenStream_write h.isSimple
  constructor
  · rintro ⟨⟨toks, hstream, -, hspec⟩, -⟩
    cases htext.symm.trans hstream
    exact (Prod.ext_iff.mp (Option.some.inj (htoks.symm.trans hspec))).1
  · intro hstrip
    rw [hstrip] at hparse htoks
    exact ⟨⟨_, htext, hexpand, htoks⟩, hparse⟩

/-! ### Wires of wildcards -/

def isWildcard : TypeSpec O → Bool
  | .wildcard => true
  | _ => false

mutual

/-- Whether a wire or a mutable wire is directly one of a wildcard. -/
def wiresWildcard : TypeSpec O → Bool
  | .tuple inner => specsWireWildcard inner
  | .array inner size => wiresWildcard inner || expressionWiresWildcard size
  | .named _ none | .unit | .wildcard => false
  | .named _ (some args) => expressionsWireWildcard args
  | .backward inner | .wire inner => isWildcard inner || wiresWildcard inner
  | .inverted inner => wiresWildcard inner

def expressionWiresWildcard : TypeExpression O → Bool
  | .typeSpec inner => wiresWildcard inner
  | .integer _ | .constGeneric _ => false

def specsWireWildcard : List (TypeSpec O) → Bool
  | [] => false
  | t :: ts => wiresWildcard t || specsWireWildcard ts

def expressionsWireWildcard : List (TypeExpression O) → Bool
  | [] => false
  | e :: es => expressionWiresWildcard e || expressionsWireWildcard es

end

theorem addSign_eq_iff {sign : TypeSpec O → TypeSpec O} (hsign : Function.Injective sign)
    (hne : ∀ t, sign t ≠ .wildcard) {t : TypeSpec O} {stripped : Bool}
    (h : strip t = t ↔ stripped = false) :
    addSign sign (strip t) = sign t ↔ (isWildcard t || stripped) = false := by
  rw [Bool.or_eq_false_iff, ← h]
  unfold addSign
  split
  · next hwildcard =>
    apply iff_of_false (hne t).symm
    rintro ⟨hwild, heq⟩
    rw [← heq, hwildcard] at hwild
    exact absurd hwild Bool.true_eq_false_eq_False
  · next hwildcard =>
    rw [hsign.eq_iff]
    constructor
    · intro heq
      refine ⟨?_, heq⟩
      rw [heq] at hwildcard
      unfold isWildcard
      split
      · exact absurd rfl hwildcard
      · rfl
    · exact And.right

mutual

theorem strip_eq_iff (t : TypeSpec O) : strip t = t ↔ wiresWildcard t = false := by
  match t with
  | .tuple inner =>
      rw [strip, wiresWildcard, TypeSpec.tuple.injEq]
      exact stripSpecs_eq_iff inner
  | .array inner size =>
      rw [strip, wiresWildcard, TypeSpec.array.injEq, Bool.or_eq_false_iff]
      exact and_congr (strip_eq_iff inner) (stripExpression_eq_iff size)
  | .named path none => exact iff_of_true rfl rfl
  | .named path (some args) =>
      rw [strip, wiresWildcard, TypeSpec.named.injEq, Option.some.injEq]
      exact (and_iff_right rfl).trans (stripExpressions_eq_iff args)
  | .unit => exact iff_of_true rfl rfl
  | .wildcard => exact iff_of_true rfl rfl
  | .backward inner =>
      exact addSign_eq_iff (fun _ _ => TypeSpec.backward.inj) nofun (strip_eq_iff inner)
  | .inverted inner =>
      rw [strip, wiresWildcard, TypeSpec.inverted.injEq]
      exact strip_eq_iff inner
  | .wire inner => exact addSign_eq_iff (fun _ _ => TypeSpec.wire.inj) nofun (strip_eq_iff inner)

theorem stripExpression_eq_iff (e : TypeExpression O) :
    stripExpression e = e ↔ expressionWiresWildcard e = false := by
  match e with
  | .typeSpec inner =>
      rw [stripExpression, expressionWiresWildcard, TypeExpression.typeSpec.injEq]
      exact strip_eq_iff inner
  | .integer val => exact iff_of_true rfl rfl
  | .constGeneric expr => exact iff_of_true rfl rfl

theorem stripSpecs_eq_iff (ts : List (TypeSpec O)) :
    stripSpecs ts = ts ↔ specsWireWildcard ts = false := by
  match ts with
  | [] => exact iff_of_true rfl rfl
  | t :: ts =>
      rw [stripSpecs, specsWireWildcard, List.cons.injEq, Bool.or_eq_false_iff]
      exact and_congr (strip_eq_iff t) (stripSpecs_eq_iff ts)

theorem stripExpressions_eq_iff (es : List (TypeExpression O)) :
    stripExpressions es = es ↔ expressionsWireWildcard es = false := by
  match es with
  | [] => exact iff_of_true rfl rfl
  | e :: es =>
      rw [stripExpressions, expressionsWireWildcard, List.cons.injEq, Bool.or_eq_false_iff]
      exact and_congr (stripExpression_eq_iff e) (stripExpressions_eq_iff es)

end

/-- The sign in front of a wildcard is lost, and nothing else. -/
theorem roundTrips_iff {t : TypeSpec O} (h : Writable T t) :
    RoundTrips T C t ↔ wiresWildcard t = false := by
  rw [roundTrips_iff_strip h, strip_eq_iff]

/-- `a<b<(c, _), 12>>` -/
def nested : TypeSpec Empty :=
  .named ["a"] (some [.typeSpec (.named ["b"] (some
    [.typeSpec (.tuple [.named ["c"] none, .wildcard]), .integer 12]))])

theorem isPath_single {T : UnicodeTable} {name : String} (hne : name ≠ "_")
    (h : classify T name.toList = some (.token (.identifier name))) : IsPath T [name] :=
  ⟨List.cons_ne_nil _ _, fun heq => hne (List.cons.inj heq).1, List.forall_mem_singleton.mpr h⟩

theorem nested_writable (T : UnicodeTable) : Writable T nested := by
  have hname : Writable T (.named ["c"] none : TypeSpec Empty) :=
    .named (isPath_single (by decide) rfl)
  have htuple : Writable T (.tuple [.named ["c"] none, .wildcard] : TypeSpec Empty) :=
    .tuple (List.forall_mem_cons.mpr ⟨hname, List.forall_mem_singleton.mpr .wildcard⟩)
  have hinner : Writable T (.named ["b"] (some
      [.typeSpec (.tuple [.named ["c"] none, .wildcard]), .integer 12]) : TypeSpec Empty) :=
    .generic (isPath_single (by decide) rfl) (List.forall_mem_cons.mpr
      ⟨.typeSpec htuple, List.forall_mem_singleton.mpr (.integer 12)⟩)
  exact .generic (isPath_single (by decide) rfl) (List.forall_mem_singleton.mpr (.typeSpec hinner))

theorem nested_roundTrips :
    nested.text = "a < b < ( c , _ ) , 12 >> ".toList ∧
      RoundTrips ⟨fun _ => false, fun _ => false⟩ ⟨fun _ => none⟩ nested :=
  ⟨by decide, (roundTrips_iff (nested_writable _)).mpr rfl⟩

/-- `&_` -/
theorem wireWildcard_not_roundTrips :
    (TypeSpec.wire .wildcard : TypeSpec Empty).text = "& _ ".toList ∧
      (∀ T, Writable T (TypeSpec.wire .wildcard : TypeSpec Empty)) ∧
        ¬ ∀ T C, RoundTrips T C (TypeSpec.wire .wildcard : TypeSpec Empty) := by
  refine ⟨rfl, fun T => .wire .wildcard rfl, fun h => ?_⟩
  have htrips := h ⟨fun _ => false, fun _ => false⟩ ⟨fun _ => none⟩
  have hstrip := (roundTrips_iff_strip (.wire .wildcard rfl)).mp htrips
  exact absurd hstrip nofun

end Spade.Parser.TypeSyntax

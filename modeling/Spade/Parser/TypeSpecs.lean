import Spade.Parser.Expression
import Spade.Parser.Lexing
import Spade.Parser.Stream

/-!
# Parsing type specs

`type_spec`, `tuple_spec`, `array_spec`, `type_expression` and `path` of `spade-parser/src/lib.rs`.
The closing brackets of nested arguments can be in one token, which `Parser::eat` splits.

* `Writable.parses`: the tokens of a type spec are read as that type spec without its wires of
  wildcards, however the closing brackets are put together, and nothing behind them is read.
-/

namespace Spade.Parser.TypeSyntax

open Spade.Ast
open Spade.Parser.Stream (expand)

/-! ### Type specs -/

mutual

/-- `TypeSpec`. `O` are the expressions of const generics. -/
inductive TypeSpec (O : Type) where
  | tuple (inner : List (TypeSpec O))
  | array (inner : TypeSpec O) (size : TypeExpression O)
  | named (path : List String) (args : Option (List (TypeExpression O)))
  | unit
  /-- A type in which signals travel in the opposite direction to normal. -/
  | backward (inner : TypeSpec O)
  /-- An inverted port. -/
  | inverted (inner : TypeSpec O)
  | wire (inner : TypeSpec O)
  | wildcard

inductive TypeExpression (O : Type) where
  | typeSpec (inner : TypeSpec O)
  | integer (val : ℤ)
  | constGeneric (expr : O)

end

/-- `as_signed`. -/
def asSigned : IntLiteral → ℤ
  | .unsized val | .signed val _ => val
  | .unsigned val _ => val

/-! ### Parsers -/

/-- `Parser::eat`, with the error left out. -/
def eatSplit (expected : TokenKind) (toks : List TokenKind) : Option (List TokenKind) :=
  (Stream.eat (ε := Empty) expected toks).toOption

def path : List TokenKind → Option (List String × List TokenKind)
  | .identifier name :: .pathSeparator :: toks =>
      (path toks).map fun r => (name :: r.1, r.2)
  | .identifier name :: toks => some ([name], toks)
  | _ => none

/-- What is between the braces of a const generic. -/
structure ConstGeneric (O : Type) where
  expression : List TokenKind → Option (O × List TokenKind)

namespace ConstGeneric

variable {O : Type}

mutual

def typeExpression (C : ConstGeneric O) (toks : List TokenKind) :
    Option (TypeExpression O × List TokenKind) := do
  match ← intLiteral toks with
  | (some val, toks) => some (.integer (asSigned val), toks)
  | (none, toks) =>
    if peek toks = .openBrace then
      let (expr, toks) ← C.expression toks.tail
      let toks ← eatSplit .closeBrace toks
      some (.constGeneric expr, toks)
    else
      let (inner, toks) ← C |>.typeSpec toks
      some (.typeSpec inner, toks)
partial_fixpoint

def typeSpec (C : ConstGeneric O) (toks : List TokenKind) :
    Option (TypeSpec O × List TokenKind) := do
  if peek toks = .tilde then
    let (rest, toks) ← C |>.typeSpec toks.tail
    some (.inverted rest, toks)
  else if peek toks = .ampersand then
    if peek toks.tail = .mut_ then C |>.signedSpec .backward toks.tail.tail
    else C |>.signedSpec .wire toks.tail
  else C |>.signedSpec id toks
partial_fixpoint

/-- `type_spec` behind the sign, which the inner type gets at the end. A wildcard returns before
that. -/
def signedSpec (C : ConstGeneric O) (sign : TypeSpec O → TypeSpec O) (toks : List TokenKind) :
    Option (TypeSpec O × List TokenKind) := do
  match peek toks with
  | .openParen =>
    let (tuple, toks) ← C |>.tupleSpec toks
    some (sign tuple, toks)
  | .openBracket =>
    let (array, toks) ← C |>.arraySpec toks
    some (sign array, toks)
  | _ =>
    -- Single type, maybe with generics
    let (path, toks) ← path toks
    if path = ["_"] then some (.wildcard, toks)
    -- Check if this type has generic params
    else if peek toks = .lt then
      let (typeExprs, toks) ← C |>.typeExpressions toks.tail
      let toks ← eatSplit .gt toks
      some (sign (.named path (some typeExprs)), toks)
    else some (sign (.named path none), toks)
partial_fixpoint

def tupleSpec (C : ConstGeneric O) (toks : List TokenKind) :
    Option (TypeSpec O × List TokenKind) := do
  let toks ← eatSplit .openParen toks
  let (inner, toks) ← C |>.typeSpecs toks
  let toks ← eatSplit .closeParen toks
  some (.tuple inner, toks)
partial_fixpoint

def arraySpec (C : ConstGeneric O) (toks : List TokenKind) :
    Option (TypeSpec O × List TokenKind) := do
  let toks ← eatSplit .openBracket toks
  let (inner, toks) ← C |>.typeSpec toks
  -- missing array size
  if peek toks = .closeBracket then none
  else
    let toks ← eatSplit .semi toks
    let (size, toks) ← C |>.typeExpression toks
    let toks ← eatSplit .closeBracket toks
    some (.array inner size, toks)
partial_fixpoint

/-- `comma_separated` of type specs up to a parenthesis. -/
def typeSpecs (C : ConstGeneric O) (toks : List TokenKind) :
    Option (List (TypeSpec O) × List TokenKind) := do
  if Stream.peekKind .closeParen toks then some ([], toks)
  else
    let (first, toks) ← C |>.typeSpec toks
    if Stream.peekKind .closeParen toks then some ([first], toks)
    else
      let toks ← eatSplit .comma toks
      let (inner, toks) ← C |>.typeSpecs toks
      some (first :: inner, toks)
partial_fixpoint

/-- `comma_separated` of type expressions up to a closing bracket. -/
def typeExpressions (C : ConstGeneric O) (toks : List TokenKind) :
    Option (List (TypeExpression O) × List TokenKind) := do
  if Stream.peekKind .gt toks then some ([], toks)
  else
    let (first, toks) ← C |>.typeExpression toks
    if Stream.peekKind .gt toks then some ([first], toks)
    else
      let toks ← eatSplit .comma toks
      let (inner, toks) ← C |>.typeExpressions toks
      some (first :: inner, toks)
partial_fixpoint

end

end ConstGeneric

export ConstGeneric (typeExpression typeSpec signedSpec tupleSpec arraySpec typeSpecs
  typeExpressions)

/-! ### The tokens of a type spec -/

def pathTail : List String → List TokenKind
  | [] => []
  | name :: path => .pathSeparator :: .identifier name :: pathTail path

def pathTokens : List String → List TokenKind
  | [] => []
  | name :: path => .identifier name :: pathTail path

def integerTokens (val : ℤ) : List TokenKind :=
  if val < 0 then [.minus, .integer val.natAbs .unsized] else [.integer val.natAbs .unsized]

section

variable {O : Type}

mutual

/-- The tokens of a type spec, with single closing brackets. -/
def specTokens : TypeSpec O → List TokenKind
  | .tuple inner => .openParen :: (specsTokens inner ++ [.closeParen])
  | .array inner size =>
      .openBracket :: (specTokens inner ++ .semi :: (expressionTokens size ++ [.closeBracket]))
  | .named path none => pathTokens path
  | .named path (some args) => pathTokens path ++ .lt :: (expressionsTokens args ++ [.gt])
  | .unit => []
  | .backward inner => .ampersand :: .mut_ :: specTokens inner
  | .inverted inner => .tilde :: specTokens inner
  | .wire inner => .ampersand :: specTokens inner
  | .wildcard => [.identifier "_"]

def expressionTokens : TypeExpression O → List TokenKind
  | .typeSpec inner => specTokens inner
  | .integer val => integerTokens val
  | .constGeneric _ => []

def specsTokens : List (TypeSpec O) → List TokenKind
  | [] => []
  | t :: ts => specTokens t ++ specsTail ts

def specsTail : List (TypeSpec O) → List TokenKind
  | [] => []
  | t :: ts => .comma :: (specTokens t ++ specsTail ts)

def expressionsTokens : List (TypeExpression O) → List TokenKind
  | [] => []
  | e :: es => expressionTokens e ++ expressionsTail es

def expressionsTail : List (TypeExpression O) → List TokenKind
  | [] => []
  | e :: es => .comma :: (expressionTokens e ++ expressionsTail es)

end

/-- A wildcard takes no sign. -/
def addSign (sign : TypeSpec O → TypeSpec O) : TypeSpec O → TypeSpec O
  | .wildcard => .wildcard
  | t => sign t

mutual

/-- The type spec without the wires and mutable wires that stand directly before a wildcard. -/
def strip : TypeSpec O → TypeSpec O
  | .tuple inner => .tuple (stripSpecs inner)
  | .array inner size => .array (strip inner) (stripExpression size)
  | .named path none => .named path none
  | .named path (some args) => .named path (some (stripExpressions args))
  | .unit => .unit
  | .backward inner => addSign .backward (strip inner)
  | .inverted inner => .inverted (strip inner)
  | .wire inner => addSign .wire (strip inner)
  | .wildcard => .wildcard

def stripExpression : TypeExpression O → TypeExpression O
  | .typeSpec inner => .typeSpec (strip inner)
  | .integer val => .integer val
  | .constGeneric expr => .constGeneric expr

def stripSpecs : List (TypeSpec O) → List (TypeSpec O)
  | [] => []
  | t :: ts => strip t :: stripSpecs ts

def stripExpressions : List (TypeExpression O) → List (TypeExpression O)
  | [] => []
  | e :: es => stripExpression e :: stripExpressions es

end

/-- What can stand behind the sign of a wire. -/
def isPlain : TypeSpec O → Bool
  | .tuple _ | .array _ _ | .named _ _ | .wildcard => true
  | _ => false

/-- Names with the token of an identifier, other than the wildcard. -/
structure IsPath (T : UnicodeTable) (path : List String) : Prop where
  ne_nil : path ≠ []
  ne_wildcard : path ≠ ["_"]
  identifiers : ∀ name ∈ path, classify T name.toList = some (.token (.identifier name))

mutual

/-- The type specs that have a text. -/
inductive Writable (T : UnicodeTable) : TypeSpec O → Prop
  | tuple {inner : List (TypeSpec O)} :
      (∀ t ∈ inner, Writable T t) → Writable T (.tuple inner)
  | array {inner : TypeSpec O} {size : TypeExpression O} :
      Writable T inner → WritableExpression T size → Writable T (.array inner size)
  | named {path : List String} : IsPath T path → Writable T (.named path none)
  | generic {path : List String} {args : List (TypeExpression O)} :
      IsPath T path → (∀ e ∈ args, WritableExpression T e) → Writable T (.named path (some args))
  | backward {inner : TypeSpec O} :
      Writable T inner → isPlain inner = true → Writable T (.backward inner)
  | inverted {inner : TypeSpec O} : Writable T inner → Writable T (.inverted inner)
  | wire {inner : TypeSpec O} :
      Writable T inner → isPlain inner = true → Writable T (.wire inner)
  | wildcard : Writable T .wildcard

/-- Types and integers. -/
inductive WritableExpression (T : UnicodeTable) : TypeExpression O → Prop
  | typeSpec {inner : TypeSpec O} :
      Writable T inner → WritableExpression T (.typeSpec inner)
  | integer (val : ℤ) : WritableExpression T (.integer val)

end

end

/-! ### Tokens with split brackets -/

theorem eq_cons_of_expand {k : TokenKind} {toks more : List TokenKind}
    (h : expand toks = k :: more) (hk : k ≠ .gt) :
    ∃ rest, toks = k :: rest ∧ expand rest = more := by
  rcases toks with _ | ⟨tok, toks⟩
  · exact absurd h nofun
  rw [Stream.expand_cons] at h
  unfold Stream.parts at h
  split at h
  · exact absurd (List.cons.inj h).1.symm hk
  · exact absurd (List.cons.inj h).1.symm hk
  · obtain ⟨rfl, hmore⟩ := List.cons.inj h
    exact ⟨toks, rfl, hmore⟩

theorem peekKind_of_expand {k : TokenKind} {toks more : List TokenKind}
    (h : expand toks = k :: more) : Stream.peekKind k toks = true := by
  rcases toks with _ | ⟨tok, toks⟩
  · exact absurd h nofun
  rw [Stream.expand_cons] at h
  unfold Stream.parts at h
  split at h
  · rw [← (List.cons.inj h).1]
    rfl
  · rw [← (List.cons.inj h).1]
    rfl
  · rw [(List.cons.inj h).1]
    simp [Stream.peekKind]

theorem peekKind_eq_false {k close : TokenKind} {toks more : List TokenKind} (hk : k ≠ .gt)
    (hne : k ≠ close) (h : expand toks = k :: more) : Stream.peekKind close toks = false := by
  rcases toks with _ | ⟨tok, toks⟩
  · exact absurd h nofun
  rw [Stream.expand_cons] at h
  unfold Stream.parts at h
  split at h
  · exact absurd (List.cons.inj h).1.symm hk
  · exact absurd (List.cons.inj h).1.symm hk
  · next hright harith =>
    obtain ⟨rfl, -⟩ := List.cons.inj h
    unfold Stream.peekKind
    rw [peek_cons, decide_eq_false hne, decide_eq_false hright, decide_eq_false harith]
    simp

theorem eatSplit_cons {k : TokenKind} (toks : List TokenKind) :
    eatSplit k (k :: toks) = some toks := by
  unfold eatSplit Stream.eat
  rw [peek_cons, if_pos rfl]
  rfl

/-- A closing bracket is taken off whatever token it is in. -/
theorem eatSplit_gt {toks more : List TokenKind} (h : expand toks = .gt :: more) :
    ∃ rest, eatSplit .gt toks = some rest ∧ expand rest = more := by
  obtain ⟨rest, hrest⟩ := Stream.eat_of_peekKind (ε := Empty) (peekKind_of_expand h)
  refine ⟨rest, ?_, ?_⟩
  · unfold eatSplit
    rw [hrest]
    rfl
  · have hexpand := Stream.expand_of_eat (by decide) hrest
    rw [h] at hexpand
    exact (List.cons.inj hexpand).2.symm

theorem peek_ne_of_expand {k : TokenKind} {toks : List TokenKind} (hk : Stream.parts k = [k])
    (heof : k ≠ .eof) (h : (expand toks).head? ≠ some k) : peek toks ≠ k := by
  rintro rfl
  cases toks with
  | nil => exact heof rfl
  | cons tok toks =>
      apply h
      rw [Stream.expand_cons]
      rw [peek_cons] at hk
      rw [hk]
      rfl

/-! ### What is parsed -/

section

variable {O : Type} {T : UnicodeTable} {C : ConstGeneric O}

/-- Behind a path there are no arguments and no more names. -/
def Ends (rest : List TokenKind) : Prop :=
  rest.head? ≠ some .lt ∧ rest.head? ≠ some .pathSeparator

/-- The tokens of a parser that gives `value` and leaves what follows. -/
def Gives {α : Type} (parser : List TokenKind → Option (α × List TokenKind))
    (tokens : List TokenKind) (value : α) : Prop :=
  ∀ toks rest, expand toks = tokens ++ rest → Ends rest →
    ∃ rest', parser toks = some (value, rest') ∧ expand rest' = rest

/-- The first token of a type spec. -/
def StartsSpec (k : TokenKind) : Prop :=
  k = .openParen ∨ k = .openBracket ∨ k = .ampersand ∨ k = .tilde ∨ ∃ name, k = .identifier name

theorem pathTokens_eq {path : List String} (h : path ≠ []) :
    ∃ name names, pathTokens path = .identifier name :: pathTail names := by
  obtain ⟨name, names, rfl⟩ := List.exists_cons_of_ne_nil h
  exact ⟨name, names, rfl⟩

theorem Writable.starts {t : TypeSpec O} (h : Writable T t) :
    ∃ k ks, specTokens t = k :: ks ∧ StartsSpec k := by
  cases h with
  | tuple _ => exact ⟨_, _, rfl, .inl rfl⟩
  | array _ _ => exact ⟨_, _, rfl, .inr (.inl rfl)⟩
  | named hpath =>
      obtain ⟨name, names, hname⟩ := pathTokens_eq hpath.ne_nil
      exact ⟨_, _, hname, .inr (.inr (.inr (.inr ⟨name, rfl⟩)))⟩
  | generic hpath _ =>
      obtain ⟨name, names, hname⟩ := pathTokens_eq hpath.ne_nil
      exact ⟨_, _, congrArg (· ++ _) hname, .inr (.inr (.inr (.inr ⟨name, rfl⟩)))⟩
  | backward _ _ => exact ⟨_, _, rfl, .inr (.inr (.inl rfl))⟩
  | inverted _ => exact ⟨_, _, rfl, .inr (.inr (.inr (.inl rfl)))⟩
  | wire _ _ => exact ⟨_, _, rfl, .inr (.inr (.inl rfl))⟩
  | wildcard => exact ⟨_, _, rfl, .inr (.inr (.inr (.inr ⟨"_", rfl⟩)))⟩

theorem path_eq {names : List String} (h : names ≠ []) {toks rest : List TokenKind}
    (htoks : expand toks = pathTokens names ++ rest) (hend : rest.head? ≠ some .pathSeparator) :
    ∃ rest', path toks = some (names, rest') ∧ expand rest' = rest := by
  induction names generalizing toks with
  | nil => exact absurd rfl h
  | cons name names ih =>
      obtain ⟨toks, rfl, hrest⟩ := eq_cons_of_expand htoks nofun
      rcases names with _ | ⟨name', names⟩
      · have hpeek : peek toks ≠ .pathSeparator :=
          peek_ne_of_expand rfl (by decide) (by rw [hrest]; exact hend)
        refine ⟨toks, ?_, hrest⟩
        rw [path]
        rintro toks' rfl
        exact hpeek rfl
      · obtain ⟨toks, rfl, hnames⟩ := eq_cons_of_expand hrest nofun
        obtain ⟨rest', hparse, hexpand⟩ := ih (List.cons_ne_nil _ _) hnames
        refine ⟨rest', ?_, hexpand⟩
        rw [path, hparse]
        rfl

/-- Where type specs start, there is no integer literal and no brace. -/
theorem intLiteral_of_starts {k : TokenKind} (h : StartsSpec k) (toks : List TokenKind) :
    intLiteral (k :: toks) = some (none, k :: toks) ∧ k ≠ .openBrace ∧ k ≠ .gt ∧
      k ≠ .closeParen := by
  obtain rfl | rfl | rfl | rfl | ⟨name, rfl⟩ := h
  all_goals exact ⟨rfl, nofun, nofun, nofun⟩

/-- An argument or a size that is a type. -/
theorem gives_typeSpec {t : TypeSpec O} (ht : Writable T t)
    (h : Gives (typeSpec C) (specTokens t) (strip t)) :
    Gives (typeExpression C) (specTokens t) (.typeSpec (strip t)) := by
  intro toks rest htoks hend
  obtain ⟨rest', hparse, hrest⟩ := h toks rest htoks hend
  refine ⟨rest', ?_, hrest⟩
  obtain ⟨k, ks, hk, hstarts⟩ := ht.starts
  rw [hk] at htoks
  obtain ⟨toks, rfl, -⟩ := eq_cons_of_expand htoks (intLiteral_of_starts hstarts []).2.2.1
  obtain ⟨hint, hbrace, -⟩ := intLiteral_of_starts hstarts toks
  rw [typeExpression, hint]
  refine (if_neg hbrace).trans ?_
  rw [hparse]
  rfl

theorem gives_integer (val : ℤ) :
    Gives (typeExpression C) (integerTokens val) (.integer val) := by
  intro toks rest htoks _
  unfold integerTokens at htoks
  split at htoks
  · next hneg =>
    obtain ⟨toks, rfl, hrest⟩ := eq_cons_of_expand htoks nofun
    obtain ⟨toks, rfl, hrest⟩ := eq_cons_of_expand hrest nofun
    have hval : -(val.natAbs : ℤ) = val := by omega
    refine ⟨toks, ?_, by assumption⟩
    rw [typeExpression]
    exact congrArg (fun v => some (TypeExpression.integer v, toks)) hval
  · next hneg =>
    obtain ⟨toks, rfl, hrest⟩ := eq_cons_of_expand htoks nofun
    have hval : (val.natAbs : ℤ) = val := by omega
    refine ⟨toks, ?_, hrest⟩
    rw [typeExpression]
    exact congrArg (fun v => some (TypeExpression.integer v, toks)) hval

/-- Items with commas between them. -/
def separatedTail {α : Type} (tokens : α → List TokenKind) : List α → List TokenKind
  | [] => []
  | x :: xs => .comma :: (tokens x ++ separatedTail tokens xs)

def separatedTokens {α : Type} (tokens : α → List TokenKind) : List α → List TokenKind
  | [] => []
  | x :: xs => tokens x ++ separatedTail tokens xs

/-- What a comma-separated list gives, up to the token that closes it. -/
theorem list_gives {α β : Type} {close : TokenKind}
    {parser : List TokenKind → Option (β × List TokenKind)}
    {listParser : List TokenKind → Option (List β × List TokenKind)}
    (hparser : ∀ toks, listParser toks =
      if Stream.peekKind close toks then some ([], toks)
      else do
        let (first, toks) ← parser toks
        if Stream.peekKind close toks then some ([first], toks)
        else
          let toks ← eatSplit .comma toks
          let (inner, toks) ← listParser toks
          some (first :: inner, toks))
    (hclose : close = .closeParen ∨ close = .gt) {tokens : α → List TokenKind} {value : α → β}
    {xs : List α} (h : ∀ x ∈ xs, Gives parser (tokens x) (value x))
    (hstart : ∀ x ∈ xs, ∃ k ks, tokens x = k :: ks ∧ k ≠ .gt ∧ k ≠ close)
    {toks rest : List TokenKind}
    (htoks : expand toks = separatedTokens tokens xs ++ close :: rest) :
    ∃ rest', listParser toks = some (xs.map value, rest') ∧ expand rest' = close :: rest := by
  induction xs generalizing toks with
  | nil =>
      refine ⟨toks, ?_, htoks⟩
      rw [hparser, if_pos (peekKind_of_expand htoks)]
      rfl
  | cons x xs ih =>
      obtain ⟨hx, hxs⟩ := List.forall_mem_cons.mp h
      obtain ⟨⟨k, ks, hk, hgt, hne⟩, hstarts⟩ := List.forall_mem_cons.mp hstart
      have hfirst : Stream.peekKind close toks = false := by
        have hmore : expand toks = k :: (ks ++ separatedTail tokens xs ++ close :: rest) := by
          rw [htoks, separatedTokens, hk]
          rfl
        exact peekKind_eq_false hgt hne hmore
      rw [hparser, hfirst, if_neg Bool.false_ne_true]
      rw [separatedTokens, List.append_assoc] at htoks
      rcases xs with _ | ⟨y, ys⟩
      · have hend : Ends (close :: rest) := by
          obtain rfl | rfl := hclose <;> exact ⟨nofun, nofun⟩
        obtain ⟨rest', hparse, hrest⟩ := hx _ _ htoks hend
        refine ⟨rest', ?_, hrest⟩
        rw [hparse]
        exact if_pos (peekKind_of_expand hrest)
      · obtain ⟨mid, hparse, hmid⟩ := hx _ _ htoks ⟨nofun, nofun⟩
        obtain ⟨after, rfl, hafter⟩ := eq_cons_of_expand hmid nofun
        obtain ⟨rest', hlist, hrest⟩ := ih hxs hstarts hafter
        refine ⟨rest', ?_, hrest⟩
        rw [hparse]
        refine (if_neg ?_).trans ?_
        · obtain rfl | rfl := hclose <;> exact Bool.false_ne_true
        · rw [eatSplit_cons, Option.bind_eq_bind, Option.bind_some, hlist]
          rfl

theorem specsTokens_eq (ts : List (TypeSpec O)) :
    specsTokens ts = separatedTokens specTokens ts := by
  have htail : ∀ ts : List (TypeSpec O), specsTail ts = separatedTail specTokens ts := by
    intro ts
    induction ts with
    | nil => rfl
    | cons t ts ih => rw [specsTail, separatedTail, ih]
  rcases ts with _ | ⟨t, ts⟩
  · rfl
  · rw [specsTokens, separatedTokens, htail]

theorem expressionsTokens_eq (es : List (TypeExpression O)) :
    expressionsTokens es = separatedTokens expressionTokens es := by
  have htail : ∀ es : List (TypeExpression O),
      expressionsTail es = separatedTail expressionTokens es := by
    intro es
    induction es with
    | nil => rfl
    | cons e es ih => rw [expressionsTail, separatedTail, ih]
  rcases es with _ | ⟨e, es⟩
  · rfl
  · rw [expressionsTokens, separatedTokens, htail]

theorem stripSpecs_eq (ts : List (TypeSpec O)) : stripSpecs ts = ts.map strip := by
  induction ts with
  | nil => rfl
  | cons t ts ih => exact congrArg (strip t :: ·) ih

theorem stripExpressions_eq (es : List (TypeExpression O)) :
    stripExpressions es = es.map stripExpression := by
  induction es with
  | nil => rfl
  | cons e es ih => exact congrArg (stripExpression e :: ·) ih

theorem typeSpec_backward (toks : List TokenKind) :
    typeSpec C (.ampersand :: .mut_ :: toks) = signedSpec C .backward toks := by
  rw [typeSpec]
  rfl

theorem typeSpec_wire {k : TokenKind} (h : k ≠ .mut_) (toks : List TokenKind) :
    typeSpec C (.ampersand :: k :: toks) = signedSpec C .wire (k :: toks) := by
  rw [typeSpec, peek_cons, List.tail_cons, peek_cons, if_neg nofun, if_pos rfl, if_neg h]

theorem typeSpec_plain {k : TokenKind} (htilde : k ≠ .tilde) (hwire : k ≠ .ampersand)
    (toks : List TokenKind) : typeSpec C (k :: toks) = signedSpec C id (k :: toks) := by
  rw [typeSpec, peek_cons, if_neg htilde, if_neg hwire]

theorem typeSpec_inverted (toks : List TokenKind) :
    typeSpec C (.tilde :: toks) = (typeSpec C toks).map fun r => (.inverted r.1, r.2) := by
  rw [typeSpec, peek_cons, List.tail_cons, if_pos rfl]
  rcases typeSpec C toks with _ | r <;> rfl

/-- The list of a tuple or of arguments, whose items are written. -/
theorem starts_list {t : TypeSpec O} (ht : Writable T t) :
    ∃ k ks, specTokens t = k :: ks ∧ k ≠ .gt ∧ k ≠ .closeParen := by
  obtain ⟨k, ks, hk, hstarts⟩ := ht.starts
  obtain ⟨-, -, hgt, hclose⟩ := intLiteral_of_starts hstarts []
  exact ⟨k, ks, hk, hgt, hclose⟩

theorem starts_expression {e : TypeExpression O} (he : WritableExpression T e) :
    ∃ k ks, expressionTokens e = k :: ks ∧ k ≠ .gt ∧ k ≠ .gt := by
  rcases he with ht | val
  · obtain ⟨k, ks, hk, hgt, -⟩ := starts_list ht
    exact ⟨k, ks, hk, hgt, hgt⟩
  · rw [expressionTokens, integerTokens]
    split
    · exact ⟨_, _, rfl, nofun, nofun⟩
    · exact ⟨_, _, rfl, nofun, nofun⟩

/-- A tuple gets its sign. -/
theorem signedSpec_tuple {sign : TypeSpec O → TypeSpec O} {ts : List (TypeSpec O)}
    (hwritable : ∀ t ∈ ts, Writable T t)
    (h : ∀ t ∈ ts, Gives (typeSpec C) (specTokens t) (strip t)) :
    Gives (signedSpec C sign) (specTokens (.tuple ts)) (sign (strip (.tuple ts))) := by
  intro toks rest htoks _
  obtain ⟨toks, rfl, hinner⟩ := eq_cons_of_expand htoks nofun
  replace hinner : expand toks = (specsTokens ts ++ [.closeParen]) ++ rest := hinner
  rw [specsTokens_eq, List.append_assoc] at hinner
  obtain ⟨mid, hlist, hmid⟩ := list_gives (ConstGeneric.typeSpecs.eq_1 C) (.inl rfl) h
    (fun t ht => starts_list (hwritable t ht)) hinner
  obtain ⟨rest', rfl, hrest⟩ := eq_cons_of_expand hmid nofun
  refine ⟨rest', ?_, hrest⟩
  have htuple : tupleSpec C (.openParen :: toks) = some (.tuple (stripSpecs ts), rest') := by
    rw [tupleSpec, eatSplit_cons]
    change (typeSpecs C toks).bind _ = _
    rw [hlist, stripSpecs_eq]
    rfl
  rw [signedSpec, peek_cons]
  change (tupleSpec C _).bind _ = _
  rw [htuple]
  rfl

theorem signedSpec_array {sign : TypeSpec O → TypeSpec O} {inner : TypeSpec O}
    {size : TypeExpression O} (hinner : Gives (typeSpec C) (specTokens inner) (strip inner))
    (hsize : Gives (typeExpression C) (expressionTokens size) (stripExpression size)) :
    Gives (signedSpec C sign) (specTokens (.array inner size))
      (sign (strip (.array inner size))) := by
  intro toks rest htoks _
  obtain ⟨toks, rfl, hopen⟩ := eq_cons_of_expand htoks nofun
  replace hopen : expand toks =
    (specTokens inner ++ .semi :: (expressionTokens size ++ [.closeBracket])) ++ rest := hopen
  rw [List.append_assoc, List.cons_append, List.append_assoc] at hopen
  obtain ⟨mid, hparse, hmid⟩ := hinner _ _ hopen ⟨nofun, nofun⟩
  obtain ⟨mid, rfl, hsemi⟩ := eq_cons_of_expand hmid nofun
  obtain ⟨last, hsizes, hlast⟩ := hsize _ _ hsemi ⟨nofun, nofun⟩
  obtain ⟨rest', rfl, hrest⟩ := eq_cons_of_expand hlast nofun
  refine ⟨rest', ?_, hrest⟩
  have harray : arraySpec C (.openBracket :: toks) =
      some (.array (strip inner) (stripExpression size), rest') := by
    rw [arraySpec, eatSplit_cons]
    change (typeSpec C toks).bind _ = _
    rw [hparse]
    change (typeExpression C mid).bind _ = _
    rw [hsizes]
    rfl
  rw [signedSpec, peek_cons]
  change (arraySpec C _).bind _ = _
  rw [harray]
  rfl

/-- A path is no tuple and no array. -/
theorem signedSpec_path {sign : TypeSpec O → TypeSpec O} {name : String}
    {toks : List TokenKind} :
    signedSpec C sign (.identifier name :: toks) =
      (path (.identifier name :: toks)).bind fun r =>
        if r.1 = ["_"] then some (.wildcard, r.2)
        else if peek r.2 = .lt then do
          let (typeExprs, toks) ← typeExpressions C r.2.tail
          let toks ← eatSplit .gt toks
          some (sign (.named r.1 (some typeExprs)), toks)
        else some (sign (.named r.1 none), r.2) := by
  rw [signedSpec, peek_cons]
  rfl

theorem signedSpec_named {sign : TypeSpec O → TypeSpec O} {names : List String}
    (hpath : IsPath T names) :
    Gives (signedSpec C sign) (specTokens (.named names none : TypeSpec O))
      (sign (strip (.named names none))) := by
  intro toks rest htoks hend
  replace htoks : expand toks = pathTokens names ++ rest := htoks
  obtain ⟨rest', hparse, hrest⟩ := path_eq hpath.ne_nil htoks hend.2
  refine ⟨rest', ?_, hrest⟩
  obtain ⟨name, more, hname⟩ := pathTokens_eq hpath.ne_nil
  rw [hname] at htoks
  obtain ⟨toks, rfl, -⟩ := eq_cons_of_expand htoks nofun
  have hlt : peek rest' ≠ .lt := peek_ne_of_expand rfl (by decide) (by rw [hrest]; exact hend.1)
  rw [signedSpec_path, hparse, Option.bind_some, if_neg hpath.ne_wildcard, if_neg hlt]
  rfl

theorem signedSpec_generic {sign : TypeSpec O → TypeSpec O} {names : List String}
    {args : List (TypeExpression O)} (hpath : IsPath T names)
    (hwritable : ∀ e ∈ args, WritableExpression T e)
    (h : ∀ e ∈ args, Gives (typeExpression C) (expressionTokens e) (stripExpression e)) :
    Gives (signedSpec C sign) (specTokens (.named names (some args)))
      (sign (strip (.named names (some args)))) := by
  intro toks rest htoks _
  replace htoks : expand toks =
    (pathTokens names ++ .lt :: (expressionsTokens args ++ [.gt])) ++ rest := htoks
  rw [expressionsTokens_eq, List.append_assoc, List.cons_append, List.append_assoc] at htoks
  obtain ⟨mid, hparse, hmid⟩ := path_eq hpath.ne_nil htoks nofun
  obtain ⟨mid, rfl, hargs⟩ := eq_cons_of_expand hmid nofun
  obtain ⟨last, hlist, hlast⟩ := list_gives (ConstGeneric.typeExpressions.eq_1 C) (.inr rfl) h
    (fun e he => starts_expression (hwritable e he)) hargs
  obtain ⟨rest', heat, hrest⟩ := eatSplit_gt hlast
  refine ⟨rest', ?_, hrest⟩
  obtain ⟨name, more, hname⟩ := pathTokens_eq hpath.ne_nil
  rw [hname] at htoks
  obtain ⟨toks, rfl, -⟩ := eq_cons_of_expand htoks nofun
  rw [signedSpec_path, hparse, Option.bind_some, if_neg hpath.ne_wildcard, peek_cons,
    List.tail_cons, if_pos rfl]
  change (typeExpressions C mid).bind _ = _
  rw [hlist, ← stripExpressions_eq]
  change (eatSplit .gt last).bind _ = _
  rw [heat]
  rfl

/-- A wildcard drops the sign. -/
theorem signedSpec_wildcard (sign : TypeSpec O → TypeSpec O) :
    Gives (signedSpec C sign) [.identifier "_"] .wildcard := by
  intro toks rest htoks hend
  obtain ⟨rest', hparse, hrest⟩ := path_eq (List.cons_ne_nil "_" []) htoks hend.2
  refine ⟨rest', ?_, hrest⟩
  obtain ⟨toks, rfl, -⟩ := eq_cons_of_expand htoks nofun
  rw [signedSpec_path, hparse, Option.bind_some, if_pos rfl]

/-- What is parsed of a type spec, behind the sign of a wire as well. -/
structure Parses (C : ConstGeneric O) (t : TypeSpec O) : Prop where
  signed : isPlain t = true → ∀ sign : TypeSpec O → TypeSpec O,
    Gives (signedSpec C sign) (specTokens t) (addSign sign (strip t))
  gives : Gives (typeSpec C) (specTokens t) (strip t)

theorem addSign_id (t : TypeSpec O) : addSign id t = t := by
  rcases t with _ | _ | _ | _ | _ | _ | _ | _ <;> rfl

theorem Writable.starts_plain {t : TypeSpec O} (h : Writable T t) (hplain : isPlain t = true) :
    ∃ k ks, specTokens t = k :: ks ∧ k ≠ .gt ∧ k ≠ .tilde ∧ k ≠ .ampersand ∧ k ≠ .mut_ := by
  rcases h with _ | _ | hpath | hpath | ⟨_, _⟩ | _ | ⟨_, _⟩ | _
  · exact ⟨_, _, rfl, nofun, nofun, nofun, nofun⟩
  · exact ⟨_, _, rfl, nofun, nofun, nofun, nofun⟩
  · obtain ⟨name, names, hname⟩ := pathTokens_eq hpath.ne_nil
    exact ⟨_, _, hname, nofun, nofun, nofun, nofun⟩
  · obtain ⟨name, names, hname⟩ := pathTokens_eq hpath.ne_nil
    exact ⟨_, _, congrArg (· ++ _) hname, nofun, nofun, nofun, nofun⟩
  · exact absurd hplain Bool.false_ne_true
  · exact absurd hplain Bool.false_ne_true
  · exact absurd hplain Bool.false_ne_true
  · exact ⟨_, _, rfl, nofun, nofun, nofun, nofun⟩

theorem Parses.of_plain {t : TypeSpec O} (ht : Writable T t) (hplain : isPlain t = true)
    (h : ∀ sign : TypeSpec O → TypeSpec O,
      Gives (signedSpec C sign) (specTokens t) (addSign sign (strip t))) : Parses C t where
  signed _ := h
  gives := by
    intro toks rest htoks hend
    obtain ⟨rest', hparse, hrest⟩ := h id toks rest htoks hend
    obtain ⟨k, ks, hk, hgt, htilde, hwire, -⟩ := ht.starts_plain hplain
    rw [hk] at htoks
    obtain ⟨toks, rfl, -⟩ := eq_cons_of_expand htoks hgt
    refine ⟨rest', ?_, hrest⟩
    rw [typeSpec_plain htilde hwire, hparse, addSign_id]

theorem parses_inverted {t : TypeSpec O} (h : Parses C t) : Parses C (.inverted t) where
  signed hplain := absurd hplain Bool.false_ne_true
  gives := by
    intro toks rest htoks hend
    obtain ⟨toks, rfl, hinner⟩ := eq_cons_of_expand htoks nofun
    obtain ⟨rest', hparse, hrest⟩ := h.gives toks rest hinner hend
    refine ⟨rest', ?_, hrest⟩
    rw [typeSpec_inverted, hparse]
    rfl

theorem parses_backward {t : TypeSpec O} (hplain : isPlain t = true) (h : Parses C t) :
    Parses C (.backward t) where
  signed hplain := absurd hplain Bool.false_ne_true
  gives := by
    intro toks rest htoks hend
    obtain ⟨toks, rfl, hmut⟩ := eq_cons_of_expand htoks nofun
    obtain ⟨toks, rfl, hinner⟩ := eq_cons_of_expand hmut nofun
    obtain ⟨rest', hparse, hrest⟩ := h.signed hplain .backward toks rest hinner hend
    refine ⟨rest', ?_, hrest⟩
    exact (typeSpec_backward toks).trans hparse

theorem parses_wire {t : TypeSpec O} (ht : Writable T t) (hplain : isPlain t = true)
    (h : Parses C t) : Parses C (.wire t) where
  signed hplain := absurd hplain Bool.false_ne_true
  gives := by
    intro toks rest htoks hend
    obtain ⟨toks, rfl, hinner⟩ := eq_cons_of_expand htoks nofun
    obtain ⟨rest', hparse, hrest⟩ := h.signed hplain .wire toks rest hinner hend
    obtain ⟨k, ks, hk, hgt, -, -, hmut⟩ := ht.starts_plain hplain
    replace hinner : expand toks = specTokens t ++ rest := hinner
    rw [hk] at hinner
    obtain ⟨toks, rfl, -⟩ := eq_cons_of_expand hinner hgt
    refine ⟨rest', ?_, hrest⟩
    exact (typeSpec_wire hmut toks).trans hparse

mutual

theorem Writable.parses {t : TypeSpec O} (h : Writable T t) : Parses C t := by
  rcases h with hinner | ⟨hinner, hsize⟩ | hpath | ⟨hpath, hargs⟩ | ⟨hinner, hplain⟩ | hinner |
    ⟨hinner, hplain⟩ | _
  · apply Parses.of_plain (.tuple hinner) rfl
    exact fun sign => signedSpec_tuple hinner fun t ht => (hinner t ht).parses.gives
  · apply Parses.of_plain (.array hinner hsize) rfl
    exact fun sign => signedSpec_array hinner.parses.gives hsize.gives
  · apply Parses.of_plain (.named hpath) rfl
    exact fun sign => signedSpec_named hpath
  · apply Parses.of_plain (.generic hpath hargs) rfl
    exact fun sign => signedSpec_generic hpath hargs fun e he => (hargs e he).gives
  · exact parses_backward hplain hinner.parses
  · exact parses_inverted hinner.parses
  · exact parses_wire hinner hplain hinner.parses
  · apply Parses.of_plain (T := T) .wildcard rfl
    exact fun sign => signedSpec_wildcard sign

theorem WritableExpression.gives {e : TypeExpression O} (h : WritableExpression T e) :
    Gives (typeExpression C) (expressionTokens e) (stripExpression e) := by
  rcases h with hinner | val
  · exact gives_typeSpec hinner hinner.parses.gives
  · exact gives_integer val

end

end

end Spade.Parser.TypeSyntax

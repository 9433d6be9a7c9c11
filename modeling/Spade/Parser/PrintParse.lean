import Spade.Parser.Regroup

/-!
# Reading printed expressions back

* `expression_tokens`: from the tokens of an expression, in front of everything that does not
  continue an expression, its regrouping is read.
* **Round trip** (`expression_tokens_iff`): the expression itself is read back just if its
  dereferences are closed.

The statement about one expression is `Reads`: from its tokens on, a parser goes on as if it had
just read the expression, in the operand of the last open dereference if there is one. There is one
lemma for each kind of expression.
-/

namespace Spade.Parser

open Spade.Ast

variable {T O : Type} {G : Grammar T O} {toks rest : List TokenKind}
  {expr lhs rhs : Expression T O} {minPower : OpBindingPower}

/-! ### Steps of the parser -/

theorem exprBp_of_unop {op : UnaryOperator} (hop : unopFromKind (peek toks) = some op)
    (hrhs : exprBp G (unopBindingPower op) toks.tail = some (rhs, rest))
    (hlhs : inlineNegativeLiteral op rhs = some lhs) :
    exprBp G minPower toks = exprLoop G minPower lhs rest := by
  rw [exprBp, hop]
  simp only [hrhs, hlhs, Option.bind_eq_bind, Option.bind_some]

theorem exprBp_of_base (hop : unopFromKind (peek toks) = none)
    (hbase : baseExpression G toks = some (lhs, rest)) :
    exprBp G minPower toks = exprLoop G minPower lhs rest := by
  rw [exprBp, hop]
  simp only [hbase, Option.bind_eq_bind, Option.bind_some]

theorem exprLoop_stop
    (h : ∀ op, binopFromKind (peek toks) = some op → binopBindingPower op ≤ minPower) :
    exprLoop G minPower lhs toks = some (lhs, toks) := by
  rw [exprLoop]
  split
  · rfl
  · next op hop => rw [if_pos (h op hop)]

theorem exprLoop_step {op : BinaryOperator} (hop : binopFromKind (peek toks) = some op)
    (hpower : minPower < binopBindingPower op)
    (hrhs : exprBp G (binopBindingPower op) toks.tail = some (rhs, rest)) :
    exprLoop G minPower lhs toks = exprLoop G minPower (.binaryOperator lhs op rhs) rest := by
  rw [exprLoop, hop]
  simp only [if_neg hpower.not_ge, hrhs, Option.bind_eq_bind, Option.bind_some]

/-- The tokens do not go on with a suffix or with a custom infix operator. -/
def NoSuffix (toks : List TokenKind) : Prop :=
  peek toks ≠ .hash ∧ peek toks ≠ .dot ∧ peek toks ≠ .openBracket ∧
    peek toks ≠ .infixOperatorSeparator

/-- The tokens do not go on with the path or the arguments of a call. -/
def NoCall (toks : List TokenKind) : Prop :=
  peek toks ≠ .openParen ∧ peek toks ≠ .dollar ∧ peek toks ≠ .pathSeparator

/-- The tokens do not go on with an expression. -/
structure Stops (toks : List TokenKind) : Prop where
  noSuffix : NoSuffix toks
  noCall : NoCall toks
  noBinop : binopFromKind (peek toks) = none

theorem expressionSuffix_stop (h : NoSuffix toks) :
    expressionSuffix G expr toks = some (expr, toks) := by
  obtain ⟨hhash, hdot, hbracket, -⟩ := h
  rw [expressionSuffix]
  split
  · next hpeek => exact absurd hpeek hhash
  · next hpeek => exact absurd hpeek hdot
  · next hpeek => exact absurd hpeek hbracket
  · rfl

theorem customInfixOperator_stop (hbp : exprBp G .none toks = some (expr, rest))
    (h : peek rest ≠ .infixOperatorSeparator) :
    customInfixOperator G toks = some (expr, rest) := by
  rw [customInfixOperator, hbp]
  simp only [Option.bind_eq_bind, Option.bind_some, if_neg h]

theorem expression_of_exprBp (hbp : exprBp G .none toks = some (expr, rest))
    (hstart : peek toks ≠ .comptimeIf) (h : peek rest ≠ .infixOperatorSeparator) :
    expression G toks = some (expr, rest) := by
  rw [expression]
  split
  · next hpeek => exact absurd hpeek hstart
  · exact customInfixOperator_stop hbp h

/-! ### The first token -/

/-- The tokens that an expression of operators, literals, paths and brackets can start with. -/
def Starter : TokenKind → Prop
  | .openParen | .openBracket | .true_ | .false_ | .low | .high | .highImp | .integer _ _
  | .identifier _ | .minus | .not | .tilde | .ampersand | .asterisk => True
  | _ => False

theorem Starter.ne {tok tok' : TokenKind} (h : Starter tok) (h' : ¬ Starter tok') : tok ≠ tok' := by
  rintro rfl
  exact h' h

theorem peek_pathTokens {path : List String} (h : path ≠ []) :
    ∃ name, peek (pathTokens path ++ rest) = .identifier name := by
  match path, h with
  | [name], _ => exact ⟨name, rfl⟩
  | name :: _ :: _, _ => exact ⟨name, rfl⟩

theorem peek_surround (c : Prop) [Decidable c] :
    peek (surround c toks ++ rest) = .openParen ∨ surround c toks = toks ∧ ¬ c := by
  unfold surround
  split
  · exact .inl rfl
  · next h => exact .inr ⟨rfl, h⟩

variable {typeTokens : T → List TokenKind}

/-- The expression starts with one of the starters, and with no prefix operator if it is not one of
operators. -/
def StartsWell (typeTokens : T → List TokenKind) (expr : Expression T O) : Prop :=
  ∀ rest, Starter (peek (tokens typeTokens expr ++ rest)) ∧
    (bindingPower expr = none → unopFromKind (peek (tokens typeTokens expr ++ rest)) = none)

/-- The target of a suffix starts with one of the starters and with no prefix operator. -/
theorem StartsWell.target (h : StartsWell typeTokens expr) (rest : List TokenKind) :
    Starter (peek (surround (bindingPower expr).isSome (tokens typeTokens expr) ++ rest)) ∧
      unopFromKind
        (peek (surround (bindingPower expr).isSome (tokens typeTokens expr) ++ rest)) = none := by
  rcases peek_surround ((bindingPower expr).isSome = true) with hparen | ⟨hsame, hnone⟩
  · rw [hparen]
    exact ⟨trivial, rfl⟩
  · rw [hsame]
    exact ⟨(h rest).1, (h rest).2 (Option.not_isSome_iff_eq_none.mp hnone)⟩

/-- What an expression starts with is what the target of its suffix starts with. -/
theorem StartsWell.of_target {target : Expression T O} {suffix : List TokenKind}
    (h : StartsWell typeTokens target)
    (htokens : tokens typeTokens expr =
      surround (bindingPower target).isSome (tokens typeTokens target) ++ suffix) :
    StartsWell typeTokens expr := by
  intro rest
  rw [htokens, List.append_assoc]
  exact ⟨(h.target _).1, fun _ => (h.target _).2⟩

theorem startsWell : ∀ expr : Expression T O, Parsed expr → StartsWell typeTokens expr
  | .identifier path, h => by
      intro rest
      obtain ⟨name, hname⟩ : ∃ name, peek (pathTokens path ++ rest) = .identifier name :=
        peek_pathTokens h
      rw [tokens, hname]
      exact ⟨trivial, fun _ => rfl⟩
  | .intLiteral (.unsized val), _ | .intLiteral (.signed val _), _ => by
      intro rest
      rw [tokens, literalTokens, signedTokens]
      split
      · next hneg =>
        refine ⟨trivial, fun h => ?_⟩
        simp [bindingPower, IntLiteral.isNegative, hneg] at h
      · exact ⟨trivial, fun _ => rfl⟩
  | .intLiteral (.unsigned _ _), _ => fun _ => ⟨trivial, fun _ => rfl⟩
  | .boolLiteral val, _ => by cases val <;> exact fun _ => ⟨trivial, fun _ => rfl⟩
  | .bitLiteral val, _ => by cases val <;> exact fun _ => ⟨trivial, fun _ => rfl⟩
  | .arrayLiteral _, _ => fun _ => ⟨trivial, fun _ => rfl⟩
  | .arrayShorthandLiteral _ _, _ => fun _ => ⟨trivial, fun _ => rfl⟩
  | .tupleLiteral _, _ => fun _ => ⟨trivial, fun _ => rfl⟩
  | .index target _, h => (startsWell target h.1).of_target rfl
  | .rangeIndex target _ _, h => (startsWell target h).of_target rfl
  | .tupleIndex target _, h => (startsWell target h).of_target rfl
  | .fieldAccess target _, h => (startsWell target h).of_target rfl
  | .methodCall target _ _ _ _, h => (startsWell target h.1).of_target rfl
  | .call _ callee _ _, h => by
      intro rest
      rw [tokens, List.append_assoc, List.append_assoc]
      obtain ⟨name, hname⟩ := peek_pathTokens h.2.1
      rw [hname]
      exact ⟨trivial, fun _ => rfl⟩
  | .unaryOperator op _, _ => by
      cases op <;> exact fun _ => ⟨trivial, fun h => absurd h (by simp [bindingPower])⟩
  | .binaryOperator lhs op _, h => by
      intro rest
      refine ⟨?_, fun h => absurd h (by simp [bindingPower])⟩
      rw [tokens, List.append_assoc]
      rcases peek_surround (Looser lhs (binopBindingPower op)) with hparen | ⟨hsame, -⟩
      · rw [hparen]
        trivial
      · rw [hsame]
        exact (startsWell lhs h.1 _).1
  | .other _, h => h.elim

/-! ### Reading one expression -/

/-- The parser goes on after what has been read: with the loop over binary operators, in the operand
of the open dereference if there is one, up to where an expression ends. -/
def GoesOn (G : Grammar T O) (s : Split (Expression T O)) (minPower : OpBindingPower)
    (rest : List TokenKind) (result : Option (Expression T O × List TokenKind)) : Prop :=
  match s.before with
  | none => result = exprLoop G minPower s.after rest
  | some before => ∀ operand stop, exprLoop G .none s.after rest = some (operand, stop) →
      NoSuffix stop → binopFromKind (peek stop) = none → result = some (before operand, stop)

variable {P : TypeArgumentTokens G} {s : Split (Expression T O)}
  {result : Option (Expression T O × List TokenKind)}

theorem GoesOn.of_none (h : s.before = none) :
    GoesOn G s minPower rest result ↔ result = exprLoop G minPower s.after rest := by
  unfold GoesOn
  rw [h]

theorem GoesOn.of_some {before : Expression T O → Expression T O} (h : s.before = some before) :
    GoesOn G s minPower rest result ↔
      ∀ operand stop, exprLoop G .none s.after rest = some (operand, stop) → NoSuffix stop →
        binopFromKind (peek stop) = none → result = some (before operand, stop) := by
  unfold GoesOn
  rw [h]

/-- Where the loop ends at once, what has been read is the result. -/
theorem GoesOn.fill {operand : Expression T O} {stop : List TokenKind}
    (h : GoesOn G s .none rest result)
    (hloop : exprLoop G .none s.after rest = some (operand, stop)) (hsuffix : NoSuffix stop)
    (hnone : binopFromKind (peek stop) = none) : result = some (s.fill operand, stop) := by
  cases hbefore : s.before with
  | none => rw [(GoesOn.of_none hbefore).mp h, hloop, Split.fill_of_none hbefore]
  | some before =>
      rw [(GoesOn.of_some hbefore).mp h operand stop hloop hsuffix hnone,
        Split.fill_of_some hbefore]

theorem exprLoop_end (h : binopFromKind (peek toks) = none) :
    exprLoop G minPower lhs toks = some (lhs, toks) :=
  exprLoop_stop fun _ hop => absurd (h.symm.trans hop) nofun

/-- From the tokens of the expression on, the parser goes on after them, with the suffixes where a
base expression is read. -/
structure Reads (P : TypeArgumentTokens G) (expr : Expression T O) : Prop where
  exprBp : ∀ minPower rest, NoSuffix rest → NoCall rest →
    (∀ lhs op rhs, expr = .binaryOperator lhs op rhs → minPower < binopBindingPower op) →
    (∀ op, binopFromKind (peek rest) = some op → ¬ Looser expr (binopBindingPower op)) →
    GoesOn G (split expr) minPower rest (exprBp G minPower (tokens P.tokens expr ++ rest))
  base : bindingPower expr = none → ∀ rest, NoCall rest →
    baseExpression G (tokens P.tokens expr ++ rest) = expressionSuffix G (regroup expr) rest

theorem Reads.expression (h : Reads P expr) (hstart : StartsWell P.tokens expr)
    (hstops : Stops rest) :
    expression G (tokens P.tokens expr ++ rest) = some (regroup expr, rest) := by
  refine expression_of_exprBp ?_ ((hstart rest).1.ne id) hstops.noSuffix.2.2.2
  have hgoes := h.exprBp .none rest hstops.noSuffix hstops.noCall
    (fun _ _ _ _ => lt_binopBindingPower) fun op hop => absurd (hstops.noBinop.symm.trans hop) nofun
  exact hgoes.fill (exprLoop_end hstops.noBinop) hstops.noSuffix hstops.noBinop

theorem stops_closeParen : Stops (.closeParen :: rest) := by
  constructor <;> simp [NoSuffix, NoCall, binopFromKind]

theorem stops_closeBracket : Stops (.closeBracket :: rest) := by
  constructor <;> simp [NoSuffix, NoCall, binopFromKind]

theorem stops_comma : Stops (.comma :: rest) := by
  constructor <;> simp [NoSuffix, NoCall, binopFromKind]

theorem stops_semi : Stops (.semi :: rest) := by
  constructor <;> simp [NoSuffix, NoCall, binopFromKind]

theorem stops_colon : Stops (.colon :: rest) := by
  constructor <;> simp [NoSuffix, NoCall, binopFromKind]

/-- An expression in parentheses is a base expression. -/
theorem Reads.parens (h : Reads P expr) (hstart : StartsWell P.tokens expr) :
    baseExpression G (.openParen :: (tokens P.tokens expr ++ [.closeParen]) ++ rest) =
      expressionSuffix G (regroup expr) rest := by
  have hexpr : Parser.expression G (tokens P.tokens expr ++ .closeParen :: rest) =
      some (regroup expr, .closeParen :: rest) := h.expression hstart stops_closeParen
  have hpeek : peek (tokens P.tokens expr ++ .closeParen :: rest) ≠ .closeParen :=
    (hstart _).1.ne id
  have htuple : tupleLiteral G (.openParen :: (tokens P.tokens expr ++ .closeParen :: rest)) =
      some (regroup expr, rest) := by
    have hinner : commaSeparated G .closeParen (tokens P.tokens expr ++ .closeParen :: rest) =
        some ([regroup expr], .closeParen :: rest) := by
      rw [commaSeparated, if_neg hpeek, hexpr]
      rfl
    rw [tupleLiteral]
    simp only [eat_cons, Option.bind_eq_bind, Option.bind_some, hinner]
  rw [List.cons_append, List.append_assoc, List.singleton_append, baseExpression]
  simp only [peek_cons, htuple, Option.bind_eq_bind, Option.bind_some]

theorem Reads.target (h : Reads P expr) (hstart : StartsWell P.tokens expr) (hcall : NoCall rest) :
    baseExpression G
      (surround (bindingPower expr).isSome (tokens P.tokens expr) ++ rest) =
      expressionSuffix G (regroup expr) rest := by
  unfold surround
  split
  · exact h.parens hstart
  · next hnone => exact h.base (Option.not_isSome_iff_eq_none.mp hnone) rest hcall

/-- An operand, in parentheses where it has to be. -/
theorem Reads.operand (h : Reads P expr) (hstart : StartsWell P.tokens expr) {c : Prop}
    [Decidable c] (hsuffix : NoSuffix rest) (hcall : NoCall rest)
    (hpower : ¬ c → ∀ lhs op rhs, expr = .binaryOperator lhs op rhs →
      minPower < binopBindingPower op)
    (hnext : ¬ c → ∀ op, binopFromKind (peek rest) = some op →
      ¬ Looser expr (binopBindingPower op)) :
    GoesOn G ((split expr).surround c) minPower rest
      (Parser.exprBp G minPower (surround c (tokens P.tokens expr) ++ rest)) := by
  unfold surround Split.surround
  split
  · refine exprBp_of_base rfl ?_
    rw [h.parens hstart, expressionSuffix_stop hsuffix]
    rfl
  · next hc => exact h.exprBp minPower rest hsuffix hcall (hpower hc) (hnext hc)

/-- What is read as a base expression is read as an operand. -/
theorem Reads.of_base (expr' : Expression T O) (hsplit : split expr = ⟨none, expr'⟩)
    (hnone : bindingPower expr = none) (hstart : StartsWell P.tokens expr)
    (hbase : ∀ rest, NoCall rest →
      baseExpression G (tokens P.tokens expr ++ rest) = expressionSuffix G expr' rest) :
    Reads P expr where
  exprBp minPower rest hsuffix hcall _ _ := by
    rw [hsplit]
    refine exprBp_of_base ((hstart rest).2 hnone) ?_
    rw [hbase rest hcall, expressionSuffix_stop hsuffix]
  base _ := by
    rw [regroup, hsplit]
    exact hbase

/-! ### Lists and arguments -/

/-- The expression is read back and starts well. -/
def Readable (P : TypeArgumentTokens G) (expr : Expression T O) : Prop :=
  Reads P expr ∧ StartsWell P.tokens expr

theorem commaSeparated_separated {endMarker : TokenKind} (hend : ¬ Starter endMarker)
    (hcomma : endMarker ≠ .comma) (hstops : Stops (endMarker :: rest)) :
    ∀ {inner : List (Expression T O)}, (∀ expr ∈ inner, Readable P expr) →
      commaSeparated G endMarker (separated P.tokens inner ++ endMarker :: rest) =
        some (regroupAll inner, endMarker :: rest)
  | [], _ => by
      rw [commaSeparated]
      exact if_pos rfl
  | [first], h => by
      obtain ⟨hfirst, hstart⟩ := h first List.mem_cons_self
      have hexpr : expression G (tokens P.tokens first ++ endMarker :: rest) =
          some (regroup first, endMarker :: rest) := hfirst.expression hstart hstops
      rw [separated, List.isEmpty_nil, if_pos rfl, List.append_nil, commaSeparated,
        if_neg ((hstart _).1.ne hend), hexpr]
      exact if_pos rfl
  | first :: second :: inner, h => by
      obtain ⟨hfirst, hinner⟩ := List.forall_mem_cons.mp h
      obtain ⟨hfirst, hstart⟩ := hfirst
      have ih := commaSeparated_separated hend hcomma hstops hinner
      rw [separated, List.isEmpty_cons, if_neg Bool.false_ne_true, List.append_assoc,
        List.cons_append]
      have hexpr : expression G (tokens P.tokens first ++
          .comma :: (separated P.tokens (second :: inner) ++ endMarker :: rest)) =
          some (regroup first, .comma :: (separated P.tokens (second :: inner) ++
            endMarker :: rest)) := hfirst.expression hstart stops_comma
      rw [commaSeparated, if_neg ((hstart _).1.ne hend), hexpr]
      simp only [Option.bind_eq_bind, Option.bind_some, peek_cons, if_neg hcomma.symm, eat_cons, ih]
      rfl

/-- The value of a named argument is readable. -/
def ReadableArgument (P : TypeArgumentTokens G) : NamedArgument (Expression T O) → Prop
  | .full _ value => Readable P value
  | .short _ => True

def namedArgumentTokens (typeTokens : T → List TokenKind) :
    NamedArgument (Expression T O) → List TokenKind
  | .full name value => .identifier name :: .colon :: tokens typeTokens value
  | .short name => [.identifier name]

theorem separatedNamed_cons {arg : NamedArgument (Expression T O)}
    {args : List (NamedArgument (Expression T O))} :
    separatedNamed typeTokens (arg :: args) = namedArgumentTokens typeTokens arg ++
      if args.isEmpty then [] else .comma :: separatedNamed typeTokens args := by
  cases arg <;> rfl

def regroupNamedArgument : NamedArgument (Expression T O) → NamedArgument (Expression T O)
  | .full name value => .full name (regroup value)
  | .short name => .short name

theorem regroupNamed_cons {arg : NamedArgument (Expression T O)}
    {args : List (NamedArgument (Expression T O))} :
    regroupNamed (arg :: args) = regroupNamedArgument arg :: regroupNamed args := by
  cases arg <;> rfl

theorem namedArgument_tokens {arg : NamedArgument (Expression T O)} (h : ReadableArgument P arg)
    (hstops : Stops rest) (hcolon : peek rest ≠ .colon) :
    namedArgument G (namedArgumentTokens P.tokens arg ++ rest) =
      some (regroupNamedArgument arg, rest) := by
  cases arg with
  | full name value =>
      have hexpr : expression G (tokens P.tokens value ++ rest) = some (regroup value, rest) :=
        h.1.expression h.2 hstops
      rw [namedArgument]
      simp only [namedArgumentTokens, List.cons_append, identifier, Option.bind_eq_bind,
        Option.bind_some, peek_cons, if_pos, List.tail_cons, hexpr]
      rfl
  | short name =>
      rw [namedArgument]
      simp only [namedArgumentTokens, List.cons_append, List.nil_append, identifier,
        Option.bind_eq_bind, Option.bind_some, if_neg hcolon]
      rfl

theorem peek_namedArgumentTokens {arg : NamedArgument (Expression T O)} :
    ∃ name, peek (namedArgumentTokens typeTokens arg ++ rest) = .identifier name := by
  cases arg with
  | full name _ => exact ⟨name, rfl⟩
  | short name => exact ⟨name, rfl⟩

theorem namedArguments_separatedNamed :
    ∀ {args : List (NamedArgument (Expression T O))}, (∀ arg ∈ args, ReadableArgument P arg) →
      namedArguments G (separatedNamed P.tokens args ++ .closeParen :: rest) =
        some (regroupNamed args, .closeParen :: rest)
  | [], _ => by
      rw [namedArguments]
      exact if_pos rfl
  | [first], h => by
      have hfirst : namedArgument G (namedArgumentTokens P.tokens first ++ .closeParen :: rest) =
          some (regroupNamedArgument first, .closeParen :: rest) :=
        namedArgument_tokens (h first List.mem_cons_self) stops_closeParen nofun
      obtain ⟨name, hname⟩ : ∃ name, peek (namedArgumentTokens P.tokens first ++
          .closeParen :: rest) = .identifier name := peek_namedArgumentTokens
      rw [separatedNamed_cons, List.isEmpty_nil, if_pos rfl, List.append_nil, namedArguments,
        hname, if_neg nofun, hfirst, regroupNamed_cons]
      simp only [Option.bind_eq_bind, Option.bind_some, peek_cons, if_pos]
      rfl
  | first :: second :: args, h => by
      obtain ⟨hfirst, hargs⟩ := List.forall_mem_cons.mp h
      have ih : namedArguments G (separatedNamed P.tokens (second :: args) ++
          .closeParen :: rest) = some (regroupNamed (second :: args), .closeParen :: rest) :=
        namedArguments_separatedNamed hargs
      rw [separatedNamed_cons, List.isEmpty_cons, if_neg Bool.false_ne_true, List.append_assoc,
        List.cons_append]
      have hread : namedArgument G (namedArgumentTokens P.tokens first ++
          .comma :: (separatedNamed P.tokens (second :: args) ++ .closeParen :: rest)) =
          some (regroupNamedArgument first,
            .comma :: (separatedNamed P.tokens (second :: args) ++ .closeParen :: rest)) :=
        namedArgument_tokens hfirst stops_comma nofun
      obtain ⟨name, hname⟩ : ∃ name, peek (namedArgumentTokens P.tokens first ++
          .comma :: (separatedNamed P.tokens (second :: args) ++ .closeParen :: rest)) =
          .identifier name := peek_namedArgumentTokens
      rw [namedArguments, hname, if_neg nofun, hread, regroupNamed_cons]
      simp only [Option.bind_eq_bind, Option.bind_some, peek_cons, eat_cons, ih]
      exact if_neg nofun

/-- The arguments are readable. -/
def ReadableArguments (P : TypeArgumentTokens G) : ArgumentList (Expression T O) → Prop
  | .positional args => ∀ expr ∈ args, Readable P expr
  | .named args => ∀ arg ∈ args, ReadableArgument P arg

theorem argumentList_argumentTokens {args : ArgumentList (Expression T O)}
    (h : ReadableArguments P args) :
    argumentList G (argumentTokens P.tokens args ++ rest) =
      some (some (regroupArguments args), rest) := by
  cases args with
  | positional args =>
      have hargs : commaSeparated G .closeParen (separated P.tokens args ++ .closeParen :: rest) =
          some (regroupAll args, .closeParen :: rest) :=
        commaSeparated_separated id (by decide) stops_closeParen h
      rw [argumentTokens, List.cons_append, List.append_assoc, List.singleton_append, argumentList,
        peek_cons, if_neg nofun, if_pos rfl]
      simp only [List.tail_cons, hargs, Option.bind_eq_bind, Option.bind_some, eat_cons,
        regroupArguments]
  | named args =>
      have hargs : namedArguments G (separatedNamed P.tokens args ++ .closeParen :: rest) =
          some (regroupNamed args, .closeParen :: rest) := namedArguments_separatedNamed h
      rw [argumentTokens, List.cons_append, List.cons_append, List.append_assoc,
        List.singleton_append, argumentList, peek_cons, if_pos rfl, List.tail_cons, peek_cons,
        if_pos rfl]
      simp only [List.tail_cons, hargs, Option.bind_eq_bind, Option.bind_some, eat_cons,
        regroupArguments]

/-! ### Paths and type arguments -/

theorem turbofish_turbofishTokens {t : Option T} (hnone : peek rest ≠ .pathSeparator)
    (hsome : t.isSome → peek rest = .openParen ∨ peek rest = .dollar) :
    turbofish G (turbofishTokens P.tokens t ++ rest) = some (t, rest) := by
  cases t with
  | none =>
      rw [turbofishTokens, List.nil_append]
      unfold turbofish
      split
      · exact absurd rfl hnone
      · rfl
  | some t =>
      rw [turbofishTokens, List.cons_append, turbofish, if_pos (P.starts t rest),
        P.reads t rest (hsome rfl)]
      rfl

theorem pathWithTurbofish_tokens {t : Option T} (hnone : peek rest ≠ .pathSeparator)
    (hsome : t.isSome → peek rest = .openParen ∨ peek rest = .dollar) :
    ∀ {path : List String}, path ≠ [] →
      pathWithTurbofish G (pathTokens path ++ (turbofishTokens P.tokens t ++ rest)) =
        some ((path, t), rest)
  | [name], _ => by
      cases t with
      | none =>
          rw [turbofishTokens, pathTokens, List.nil_append, List.singleton_append]
          unfold pathWithTurbofish
          split
          · next heq =>
            obtain ⟨-, rfl⟩ := List.cons.inj heq
            exact absurd rfl hnone
          · next heq =>
            obtain ⟨hname, rfl⟩ := List.cons.inj heq
            rw [TokenKind.identifier.inj hname]
          · next hother => exact absurd rfl (hother name rest)
      | some t =>
          rw [turbofishTokens, pathTokens, List.cons_append, List.cons_append, List.nil_append,
            pathWithTurbofish, if_pos (P.starts t rest), P.reads t rest (hsome rfl)]
          rfl
  | name :: second :: path, _ => by
      have hne : second :: path ≠ [] := List.cons_ne_nil _ _
      have ih := pathWithTurbofish_tokens hnone hsome hne
      have htokens : pathTokens (name :: second :: path) =
          .identifier name :: .pathSeparator :: pathTokens (second :: path) := rfl
      obtain ⟨name', hname⟩ : ∃ name', peek (pathTokens (second :: path) ++
          (turbofishTokens P.tokens t ++ rest)) = .identifier name' :=
        peek_pathTokens hne
      rw [htokens, List.cons_append, List.cons_append, pathWithTurbofish, hname,
        if_neg (by simp), ih]
      rfl

/-! ### Reading each kind of expression -/

theorem argumentList_stop (hcall : NoCall rest) : argumentList G rest = some (none, rest) := by
  rw [argumentList, if_neg hcall.2.1, if_neg hcall.1]

theorem reads_identifier {path : List String} (h : path ≠ []) :
    Reads P (.identifier path : Expression T O) := by
  refine .of_base (.identifier path) rfl rfl (startsWell _ h) fun rest hcall => ?_
  have hpath : pathWithTurbofish G (pathTokens path ++ rest) = some ((path, none), rest) :=
    pathWithTurbofish_tokens (t := none) (P := P) hcall.2.2 (fun h => nomatch h) h
  obtain ⟨name, hname⟩ : ∃ name, peek (pathTokens path ++ rest) = .identifier name :=
    peek_pathTokens h
  rw [tokens, baseExpression, hname]
  simp only [hpath, argumentList_stop hcall, Option.bind_eq_bind, Option.bind_some]

theorem peek_argumentTokens {args : ArgumentList (Expression T O)} :
    peek (argumentTokens typeTokens args ++ rest) = .openParen ∨
      peek (argumentTokens typeTokens args ++ rest) = .dollar := by
  cases args with
  | positional _ => exact .inl rfl
  | named _ => exact .inr rfl

theorem peek_argumentTokens_ne {args : ArgumentList (Expression T O)} :
    peek (argumentTokens typeTokens args ++ rest) ≠ .pathSeparator := by
  cases args <;> exact nofun

theorem reads_call {callee : List String} {args : ArgumentList (Expression T O)} {t : Option T}
    (h : callee ≠ []) (hparsed : ParsedArguments args) (hargs : ReadableArguments P args) :
    Reads P (.call .function callee args t) := by
  refine .of_base (.call .function callee (regroupArguments args) t)
    rfl rfl (startsWell _ ⟨rfl, h, hparsed⟩)
    fun rest _ => ?_
  have hpath : pathWithTurbofish G (pathTokens callee ++
      (turbofishTokens P.tokens t ++ (argumentTokens P.tokens args ++ rest))) =
      some ((callee, t), argumentTokens P.tokens args ++ rest) :=
    pathWithTurbofish_tokens peek_argumentTokens_ne (fun _ => peek_argumentTokens) h
  obtain ⟨name, hname⟩ : ∃ name, peek (pathTokens callee ++
      (turbofishTokens P.tokens t ++ (argumentTokens P.tokens args ++ rest))) = .identifier name :=
    peek_pathTokens h
  rw [tokens, List.append_assoc, List.append_assoc, baseExpression, hname]
  simp only [hpath, argumentList_argumentTokens hargs, Option.bind_eq_bind, Option.bind_some]

theorem baseExpression_integer {n : ℕ} {kind : LiteralKind} :
    baseExpression G (.integer n kind :: rest) =
      expressionSuffix G (.intLiteral (literalOf false n kind)) rest := by
  rw [baseExpression]
  rfl

/-- A negative literal is read as a minus and a literal, which are made one. -/
theorem exprBp_negative {n : ℕ} {kind : LiteralKind} {val : IntLiteral} (hsuffix : NoSuffix rest)
    (hfold : inlineNegativeLiteral .sub (.intLiteral (literalOf false n kind) : Expression T O) =
      some (.intLiteral val)) :
    exprBp G minPower (.minus :: .integer n kind :: rest) =
      exprLoop G minPower (.intLiteral val) rest := by
  refine exprBp_of_unop rfl ?_ hfold
  rw [List.tail_cons, exprBp_of_base rfl
    (baseExpression_integer.trans (expressionSuffix_stop hsuffix))]
  exact exprLoop_stop fun op _ => binopBindingPower_lt.le

theorem natAbs_of_not_neg {val : ℤ} (h : ¬ val < 0) : (val.natAbs : ℤ) = val :=
  Int.natAbs_of_nonneg (Int.not_lt.mp h)

theorem neg_natAbs_of_neg {val : ℤ} (h : val < 0) : -(val.natAbs : ℤ) = val := by
  omega

theorem reads_intLiteral {val : IntLiteral} : Reads P (.intLiteral val : Expression T O) := by
  by_cases hneg : val.isNegative = true
  · have hpower : bindingPower (.intLiteral val : Expression T O) = some .prefixUnary := if_pos hneg
    refine ⟨fun minPower rest hsuffix _ _ _ => ?_, fun hnone => ?_⟩
    swap
    · exact absurd (hpower.symm.trans hnone) nofun
    cases val with
    | unsized val =>
        have hval : val < 0 := of_decide_eq_true hneg
        rw [tokens, literalTokens, signedTokens, if_pos hval]
        refine exprBp_negative hsuffix ?_
        simp only [literalOf, inlineNegativeLiteral, neg_natAbs_of_neg hval, Bool.false_eq_true,
          if_false]
    | signed val size =>
        have hval : val < 0 := of_decide_eq_true hneg
        rw [tokens, literalTokens, signedTokens, if_pos hval]
        refine exprBp_negative hsuffix ?_
        simp only [literalOf, inlineNegativeLiteral, neg_natAbs_of_neg hval, Bool.false_eq_true,
          if_false]
    | unsigned val size => exact absurd hneg Bool.false_ne_true
  · refine .of_base (.intLiteral val) rfl (if_neg hneg) (startsWell _ trivial) fun rest _ => ?_
    cases val with
    | unsized val =>
        have hval : ¬ val < 0 := fun h => hneg (decide_eq_true h)
        rw [tokens, literalTokens, signedTokens, if_neg hval, List.singleton_append,
          baseExpression_integer]
        simp only [literalOf, natAbs_of_not_neg hval, Bool.false_eq_true, if_false]
    | signed val size =>
        have hval : ¬ val < 0 := fun h => hneg (decide_eq_true h)
        rw [tokens, literalTokens, signedTokens, if_neg hval, List.singleton_append,
          baseExpression_integer]
        simp only [literalOf, natAbs_of_not_neg hval, Bool.false_eq_true, if_false]
    | unsigned val size => exact baseExpression_integer

theorem reads_boolLiteral {val : Bool} : Reads P (.boolLiteral val : Expression T O) := by
  refine .of_base (.boolLiteral val) rfl rfl (startsWell _ trivial) fun rest _ => ?_
  rw [baseExpression]
  cases val <;> rfl

theorem reads_bitLiteral {val : BitLiteral} : Reads P (.bitLiteral val : Expression T O) := by
  refine .of_base (.bitLiteral val) rfl rfl (startsWell _ trivial) fun rest _ => ?_
  rw [baseExpression]
  cases val <;> rfl

theorem reads_arrayLiteral {inner : List (Expression T O)} (hparsed : ParsedAll inner)
    (h : ∀ expr ∈ inner, Readable P expr) : Reads P (.arrayLiteral inner) := by
  refine .of_base (.arrayLiteral (regroupAll inner)) rfl rfl (startsWell _ hparsed) fun rest _ => ?_
  have harray : arrayLiteral G (.openBracket :: (separated P.tokens inner ++
      .closeBracket :: rest)) = some (.arrayLiteral (regroupAll inner), rest) := by
    rw [arrayLiteral]
    simp only [eat_cons, Option.bind_eq_bind, Option.bind_some]
    match inner, h with
    | [], _ => exact if_pos rfl
    | [first], h =>
        obtain ⟨hfirst, hstart⟩ := h first List.mem_cons_self
        have hexpr : expression G (tokens P.tokens first ++ .closeBracket :: rest) =
            some (regroup first, .closeBracket :: rest) :=
          hfirst.expression hstart stops_closeBracket
        have hinner : commaSeparated G .closeBracket (.closeBracket :: rest) =
            some ([], .closeBracket :: rest) := by
          rw [commaSeparated]
          exact if_pos rfl
        rw [separated, List.isEmpty_nil, if_pos rfl, List.append_nil,
          if_neg ((hstart _).1.ne id), hexpr]
        simp [hinner, regroupAll_eq_map]
    | first :: second :: inner, h =>
        obtain ⟨⟨hfirst, hstart⟩, hinner⟩ := List.forall_mem_cons.mp h
        have hrest : commaSeparated G .closeBracket (separated P.tokens (second :: inner) ++
            .closeBracket :: rest) = some (regroupAll (second :: inner), .closeBracket :: rest) :=
          commaSeparated_separated id (by decide) stops_closeBracket hinner
        have hexpr : expression G (tokens P.tokens first ++
            .comma :: (separated P.tokens (second :: inner) ++ .closeBracket :: rest)) =
            some (regroup first, .comma :: (separated P.tokens (second :: inner) ++
              .closeBracket :: rest)) := hfirst.expression hstart stops_comma
        rw [separated, List.isEmpty_cons, if_neg Bool.false_ne_true, List.append_assoc,
          List.cons_append, if_neg ((hstart _).1.ne id), hexpr]
        simp [hrest, regroupAll_eq_map]
  rw [tokens, List.cons_append, List.append_assoc, List.singleton_append, baseExpression]
  simp only [peek_cons, harray, Option.bind_eq_bind, Option.bind_some]

theorem reads_arrayShorthandLiteral {inner : Expression T O} {amount : ℕ}
    (hparsed : Parsed inner) (h : Readable P inner) :
    Reads P (.arrayShorthandLiteral inner amount) := by
  refine .of_base (.arrayShorthandLiteral (regroup inner) amount) rfl rfl (startsWell _ hparsed)
    fun rest _ => ?_
  have hexpr : expression G (tokens P.tokens inner ++
      .semi :: .integer amount .unsized :: .closeBracket :: rest) =
      some (regroup inner, .semi :: .integer amount .unsized :: .closeBracket :: rest) :=
    h.1.expression h.2 stops_semi
  have hpeek : peek (tokens P.tokens inner ++
      .semi :: .integer amount .unsized :: .closeBracket :: rest) ≠ .closeBracket :=
    (h.2 _).1.ne id
  have harray : arrayLiteral G (.openBracket :: (tokens P.tokens inner ++
      .semi :: .integer amount .unsized :: .closeBracket :: rest)) =
      some (.arrayShorthandLiteral (regroup inner) amount, rest) := by
    rw [arrayLiteral]
    simp only [eat_cons, Option.bind_eq_bind, Option.bind_some, if_neg hpeek, hexpr]
    rfl
  rw [tokens, List.cons_append, List.append_assoc, baseExpression]
  simp only [peek_cons, List.cons_append, List.nil_append, harray, Option.bind_eq_bind,
    Option.bind_some]

theorem reads_tupleLiteral {inner : List (Expression T O)} (hlength : 2 ≤ inner.length)
    (hparsed : ParsedAll inner) (h : ∀ expr ∈ inner, Readable P expr) :
    Reads P (.tupleLiteral inner) := by
  refine .of_base (.tupleLiteral (regroupAll inner)) rfl rfl (startsWell _ ⟨hlength, hparsed⟩)
    fun rest _ => ?_
  have hinner : commaSeparated G .closeParen (separated P.tokens inner ++ .closeParen :: rest) =
      some (regroupAll inner, .closeParen :: rest) :=
    commaSeparated_separated id (by decide) stops_closeParen h
  have htuple : tupleLiteral G (.openParen :: (separated P.tokens inner ++ .closeParen :: rest)) =
      some (.tupleLiteral (regroupAll inner), rest) := by
    rw [tupleLiteral]
    simp only [eat_cons, Option.bind_eq_bind, Option.bind_some, hinner]
    match inner, hlength with
    | _ :: _ :: _, _ => rfl
  rw [tokens, List.cons_append, List.append_assoc, List.singleton_append, baseExpression]
  simp only [peek_cons, htuple, Option.bind_eq_bind, Option.bind_some]

theorem reads_index {target idx : Expression T O} (htarget : Readable P target)
    (hidx : Readable P idx) : Reads P (.index target idx) := by
  refine .of_base (.index (regroup target) (regroup idx)) rfl rfl (htarget.2.of_target rfl)
    fun rest _ => ?_
  have hexpr : expression G (tokens P.tokens idx ++ .closeBracket :: rest) =
      some (regroup idx, .closeBracket :: rest) := hidx.1.expression hidx.2 stops_closeBracket
  rw [tokens, List.append_assoc, htarget.1.target htarget.2 (by simp [NoCall]), List.cons_append,
    List.append_assoc, List.singleton_append, expressionSuffix]
  simp only [peek_cons, List.tail_cons, hexpr, Option.bind_eq_bind, Option.bind_some, eat_cons]
  exact if_neg (by decide)

theorem reads_rangeIndex {target : Expression T O} {start stop : ℕ}
    (htarget : Readable P target) : Reads P (.rangeIndex target start stop) := by
  refine .of_base (.rangeIndex (regroup target) start stop) rfl rfl (htarget.2.of_target rfl)
    fun rest _ => ?_
  have hstart : expression G (.integer start .unsized :: .colon :: .integer stop .unsized ::
      .closeBracket :: rest) = some (.intLiteral (.unsized start),
        .colon :: .integer stop .unsized :: .closeBracket :: rest) := by
    have hnonneg : ¬ ((start : ℤ) < 0) := Int.not_lt.mpr (Int.natCast_nonneg start)
    have h : expression G (tokens P.tokens (.intLiteral (.unsized start)) ++
        .colon :: .integer stop .unsized :: .closeBracket :: rest) = _ :=
      reads_intLiteral.expression (startsWell _ trivial) stops_colon
    rwa [tokens, literalTokens, signedTokens, if_neg hnonneg, Int.natAbs_natCast] at h
  rw [tokens, List.append_assoc, htarget.1.target htarget.2 (by simp [NoCall]), expressionSuffix]
  have hnonneg : ¬ ((start : ℤ) < 0) := Int.not_lt.mpr (Int.natCast_nonneg start)
  simp [hstart, intLiteral, unsignedIntLiteral, literalOf, IntLiteral.asUnsigned,
    IntLiteral.isNegative, hnonneg]

theorem reads_tupleIndex {target : Expression T O} {idx : Fin (2 ^ 128)}
    (htarget : Readable P target) : Reads P (.tupleIndex target idx) := by
  refine .of_base (.tupleIndex (regroup target) idx) rfl rfl (htarget.2.of_target rfl)
    fun rest _ => ?_
  rw [tokens, List.append_assoc, htarget.1.target htarget.2 (by simp [NoCall]), expressionSuffix]
  simp [intLiteral, unsignedIntLiteral, literalOf, IntLiteral.asUnsigned]

theorem reads_fieldAccess {target : Expression T O} {field : String}
    (htarget : Readable P target) : Reads P (.fieldAccess target field) := by
  refine .of_base (.fieldAccess (regroup target) field) rfl rfl (htarget.2.of_target rfl)
    fun rest hcall => ?_
  have hturbofish : turbofish G rest = some (none, rest) :=
    turbofish_turbofishTokens (t := none) (P := P) hcall.2.2 (fun h => nomatch h)
  rw [tokens, List.append_assoc, htarget.1.target htarget.2 (by simp [NoCall]), expressionSuffix]
  simp [identifier, hturbofish, argumentList_stop hcall]

theorem reads_methodCall {target : Expression T O} {name : String}
    {args : ArgumentList (Expression T O)} {kind : CallKind} {t : Option T}
    (htarget : Readable P target) (hargs : ReadableArguments P args) :
    Reads P (.methodCall target name args kind t) := by
  refine .of_base (.methodCall (regroup target) name (regroupArguments args) kind t)
    rfl rfl (htarget.2.of_target rfl)
    fun rest _ => ?_
  have hturbofish : turbofish G (turbofishTokens P.tokens t ++
      (argumentTokens P.tokens args ++ rest)) = some (t, argumentTokens P.tokens args ++ rest) :=
    turbofish_turbofishTokens peek_argumentTokens_ne fun _ => peek_argumentTokens
  rw [tokens, List.append_assoc, htarget.1.target htarget.2 (by simp [NoCall]), expressionSuffix]
  cases kind <;>
    simp [kindTokens, identifier, hturbofish, argumentList_argumentTokens hargs]

theorem unopBindingPower_eq {op : UnaryOperator} : unopBindingPower op = .prefixUnary := by
  cases op <;> rfl

theorem unopFromKind_unopToken {op : UnaryOperator} (h : op ≠ .dereference) :
    unopFromKind (unopToken op) = some op := by
  cases op <;> first | rfl | exact absurd rfl h

theorem inlineNegativeLiteral_eq {op : UnaryOperator}
    (h : op = .sub → ∀ val, expr ≠ .intLiteral val) :
    inlineNegativeLiteral op expr = some (.unaryOperator op expr) := by
  unfold inlineNegativeLiteral
  split
  · exact absurd rfl (h rfl _)
  · exact absurd rfl (h rfl _)
  · exact absurd rfl (h rfl _)
  · rfl

/-- The operand of a dereference is a whole expression. -/
theorem GoesOn.dereference (h : GoesOn G s .none rest (exprBp G .none toks))
    (hstart : peek toks ≠ .comptimeIf) :
    GoesOn G (s.unary .dereference) minPower rest (exprBp G minPower (.asterisk :: toks)) := by
  intro operand stop hloop hstop hnone
  have hexpr : expression G toks = some (s.fill operand, stop) :=
    expression_of_exprBp (h.fill hloop hstop hnone) hstart hstop.2.2.2
  have hunary : unaryOperator G (.asterisk :: toks) =
      some (.unaryOperator .dereference (s.fill operand), stop) := by
    rw [unaryOperator]
    simp only [peek_cons, List.tail_cons, hexpr, Option.bind_eq_bind, Option.bind_some]
  refine (exprBp_of_base rfl ?_).trans (exprLoop_end hnone)
  rw [baseExpression]
  simp only [peek_cons, hunary, Option.bind_eq_bind, Option.bind_some]
  exact expressionSuffix_stop hstop

/-- The operand of another unary operator ends in front of a binary operator. -/
theorem GoesOn.unary {op : UnaryOperator} (hop : op ≠ .dereference)
    (h : GoesOn G s (unopBindingPower op) rest (exprBp G (unopBindingPower op) toks))
    (hliteral : op = .sub → ∀ val, s.whole ≠ .intLiteral val)
    (hbefore : ∀ before, s.before = some before → ∀ operand val,
      before operand ≠ .intLiteral val) :
    GoesOn G (s.unary op) minPower rest (exprBp G minPower (unopToken op :: toks)) := by
  have hpeek : unopFromKind (peek (unopToken op :: toks)) = some op := unopFromKind_unopToken hop
  cases hs : s.before with
  | none =>
      rw [Split.whole, Split.fill_of_none hs] at hliteral
      rw [Split.unary_of_none hop hs]
      refine exprBp_of_unop hpeek (((GoesOn.of_none hs).mp h).trans (exprLoop_stop fun op' _ => ?_))
        (inlineNegativeLiteral_eq hliteral)
      rw [unopBindingPower_eq]
      exact binopBindingPower_lt.le
  | some before =>
      rw [Split.unary_of_some hop hs]
      intro operand stop hloop hstop hnone
      have hrhs := (GoesOn.of_some hs).mp h operand stop hloop hstop hnone
      exact (exprBp_of_unop hpeek hrhs
        (inlineNegativeLiteral_eq fun _ => hbefore before hs operand)).trans (exprLoop_end hnone)

/-- The right operand of a binary operator ends in front of an operator that does not bind
tighter. -/
theorem GoesOn.binary {op : BinaryOperator} {l r : Split (Expression T O)}
    (hmin : minPower < binopBindingPower op)
    (hleft : GoesOn G l minPower (binopToken op :: toks) result)
    (hright : GoesOn G r (binopBindingPower op) rest (exprBp G (binopBindingPower op) toks))
    (hnext : ∀ op', binopFromKind (peek rest) = some op' →
      binopBindingPower op' ≤ binopBindingPower op) :
    GoesOn G (l.binary op r) minPower rest result := by
  have hop : binopFromKind (peek (binopToken op :: toks)) = some op := binopFromKind_binopToken
  cases hr : r.before with
  | none =>
      have hread := ((GoesOn.of_none hr).mp hright).trans (exprLoop_stop hnext)
      rw [Split.binary_of_none hr]
      cases hl : l.before with
      | none => exact ((GoesOn.of_none hl).mp hleft).trans (exprLoop_step hop hmin hread)
      | some before =>
          intro operand stop hloop hstop hnone
          exact (GoesOn.of_some hl).mp hleft operand stop
            ((exprLoop_step hop lt_binopBindingPower hread).trans hloop) hstop hnone
  | some before =>
      rw [Split.binary_of_some hr]
      intro operand stop hloop hstop hnone
      -- The loops that are left end where the operand of the dereference does.
      have hread := (GoesOn.of_some hr).mp hright operand stop hloop hstop hnone
      have hstep : ∀ power, power < binopBindingPower op →
          exprLoop G power l.after (binopToken op :: toks) =
            some (.binaryOperator l.after op (before operand), stop) := fun power hlt =>
        (exprLoop_step hop hlt hread).trans (exprLoop_end hnone)
      show result = some (l.fill _, stop)
      cases hl : l.before with
      | none =>
          rw [Split.fill_of_none hl]
          exact ((GoesOn.of_none hl).mp hleft).trans (hstep minPower hmin)
      | some before' =>
          rw [Split.fill_of_some hl]
          exact (GoesOn.of_some hl).mp hleft _ stop (hstep .none lt_binopBindingPower) hstop hnone

theorem reads_unaryOperator {op : UnaryOperator} {operand : Expression T O}
    (hsub : op = .sub → ∀ val, operand ≠ .intLiteral val) (h : Readable P operand) :
    Reads P (.unaryOperator op operand) := by
  refine ⟨fun minPower rest hsuffix hcall _ _ => ?_, fun hnone => nomatch hnone⟩
  have hoperand : ∀ power, GoesOn G
      ((split operand).surround (Looser operand (unopBindingPower op))) power rest
      (exprBp G power (surround (Looser operand (unopBindingPower op)) (tokens P.tokens operand) ++
        rest)) := by
    intro power
    refine h.1.operand h.2 hsuffix hcall ?_ ?_
    · rintro hloose lhs op' rhs rfl
      refine absurd ⟨_, rfl, ?_⟩ hloose
      rw [unopBindingPower_eq]
      exact binopBindingPower_lt
    · rintro hloose op' - ⟨power, hpower, hlt⟩
      refine hloose ⟨power, hpower, hlt.trans ?_⟩
      rw [unopBindingPower_eq]
      exact binopBindingPower_lt
  rw [split, tokens, List.cons_append]
  by_cases hop : op = .dereference
  · subst hop
    refine (hoperand .none).dereference ?_
    rcases peek_surround (Looser operand (unopBindingPower .dereference)) with hparen | ⟨hsame, -⟩
    · rw [hparen]
      exact nofun
    · rw [hsame]
      exact (h.2 rest).1.ne id
  · refine (hoperand _).unary hop ?_ fun before hbefore => surround_before_ne_intLiteral hbefore
    rw [Split.whole_surround]
    exact fun hminus => regroup_ne_intLiteral (hsub hminus)

theorem reads_binaryOperator {op : BinaryOperator} (hlhs : Readable P lhs)
    (hrhs : Readable P rhs) : Reads P (.binaryOperator lhs op rhs) := by
  refine ⟨fun minPower rest hsuffix hcall hpower hnext => ?_, fun hnone => nomatch hnone⟩
  have hmin : minPower < binopBindingPower op := hpower lhs op rhs rfl
  have hnosuffix : ∀ toks, NoSuffix (binopToken op :: toks) := by
    intro toks
    cases op <;> simp [NoSuffix, binopToken]
  have hnocall : ∀ toks, NoCall (binopToken op :: toks) := by
    intro toks
    cases op <;> simp [NoCall, binopToken]
  rw [tokens, List.append_assoc, List.cons_append, split]
  apply GoesOn.binary hmin
  · refine hlhs.1.operand hlhs.2 (hnosuffix _) (hnocall _) ?_ ?_
    · rintro hc lhs' op' rhs' rfl
      by_contra hle
      exact hc ⟨_, rfl, lt_of_le_of_lt (not_lt.mp hle) hmin⟩
    · intro hc op' hop'
      obtain rfl := Option.some.inj (binopFromKind_binopToken.symm.trans hop')
      exact hc
  · refine hrhs.1.operand hrhs.2 hsuffix hcall ?_ ?_
    · rintro hc lhs' op' rhs' rfl
      by_contra hle
      exact hc ⟨_, rfl, not_lt.mp hle⟩
    · rintro hc op' hop' ⟨power, hpower, hlt⟩
      refine hc ⟨power, hpower, hlt.le.trans ?_⟩
      by_contra hle
      exact hnext op' hop' ⟨_, rfl, not_le.mp hle⟩
  · intro op' hop'
    by_contra hlt
    exact hnext op' hop' ⟨_, rfl, not_le.mp hlt⟩

/-! ### All expressions -/

/- All expressions are readable, by induction on the expression. -/
mutual

theorem readable : ∀ expr : Expression T O, Parsed expr → Readable P expr
  | .identifier _, h => ⟨reads_identifier h, startsWell _ h⟩
  | .intLiteral _, h => ⟨reads_intLiteral, startsWell _ h⟩
  | .boolLiteral _, h => ⟨reads_boolLiteral, startsWell _ h⟩
  | .bitLiteral _, h => ⟨reads_bitLiteral, startsWell _ h⟩
  | .arrayLiteral inner, h => ⟨reads_arrayLiteral h (readableAll inner h), startsWell _ h⟩
  | .arrayShorthandLiteral inner _, h =>
      ⟨reads_arrayShorthandLiteral h (readable inner h), startsWell _ h⟩
  | .index target idx, h =>
      ⟨reads_index (readable target h.1) (readable idx h.2), startsWell _ h⟩
  | .rangeIndex target _ _, h => ⟨reads_rangeIndex (readable target h), startsWell _ h⟩
  | .tupleLiteral inner, h => ⟨reads_tupleLiteral h.1 h.2 (readableAll inner h.2), startsWell _ h⟩
  | .tupleIndex target _, h => ⟨reads_tupleIndex (readable target h), startsWell _ h⟩
  | .fieldAccess target _, h => ⟨reads_fieldAccess (readable target h), startsWell _ h⟩
  | .call .function _ args _, h =>
      ⟨reads_call h.2.1 h.2.2 (readableArguments args h.2.2), startsWell _ h⟩
  | .call .entity _ _ _, h => nomatch h.1
  | .methodCall target _ args _ _, h =>
      ⟨reads_methodCall (readable target h.1) (readableArguments args h.2), startsWell _ h⟩
  | .unaryOperator _ operand, h =>
      ⟨reads_unaryOperator h.2 (readable operand h.1), startsWell _ h⟩
  | .binaryOperator lhs _ rhs, h =>
      ⟨reads_binaryOperator (readable lhs h.1) (readable rhs h.2), startsWell _ h⟩
  | .other _, h => h.elim

theorem readableAll : ∀ inner : List (Expression T O), ParsedAll inner →
    ∀ expr ∈ inner, Readable P expr
  | [], _ => fun _ hexpr => absurd hexpr List.not_mem_nil
  | first :: inner, h =>
      List.forall_mem_cons.mpr ⟨readable first h.1, readableAll inner h.2⟩

theorem readableArguments : ∀ args : ArgumentList (Expression T O), ParsedArguments args →
    ReadableArguments P args
  | .positional args, h => readableAll args h
  | .named args, h => readableNamed args h

theorem readableNamed : ∀ args : List (NamedArgument (Expression T O)), ParsedNamed args →
    ∀ arg ∈ args, ReadableArgument P arg
  | [], _ => fun _ harg => absurd harg List.not_mem_nil
  | .full _ value :: args, h =>
      List.forall_mem_cons.mpr ⟨readable value h.1, readableNamed args h.2⟩
  | .short _ :: args, h => List.forall_mem_cons.mpr ⟨trivial, readableNamed args h⟩

end

/-- From the tokens of an expression its regrouping is read. -/
theorem expression_tokens (hparsed : Parsed expr) (hstops : Stops rest) :
    expression G (tokens P.tokens expr ++ rest) = some (regroup expr, rest) := by
  obtain ⟨hreads, hstart⟩ := readable (P := P) expr hparsed
  exact hreads.expression hstart hstops

/-- **Round trip.** An expression is read back from its tokens just if its dereferences are
closed. -/
theorem expression_tokens_iff (hparsed : Parsed expr) (hstops : Stops rest) :
    expression G (tokens P.tokens expr ++ rest) = some (expr, rest) ↔ ClosedDereferences expr := by
  rw [expression_tokens hparsed hstops, ← regroup_eq_iff]
  simp only [Option.some.injEq, Prod.mk.injEq, and_true]

/-- A grammar without type arguments and without other expressions. -/
def operatorGrammar : Grammar Empty Empty := ⟨fun _ => none, fun _ => none⟩

def noTypeArguments : TypeArgumentTokens operatorGrammar where
  tokens t := nomatch t
  starts t := nomatch t
  reads t := nomatch t

theorem stops_nil : Stops [] := by
  constructor <;> simp [NoSuffix, NoCall, binopFromKind]

/-- `-a * (b + *c)` is read back. -/
theorem expression_tokens_iff_product :
    let expr : Expression Empty Empty := .binaryOperator (.unaryOperator .sub (.identifier ["a"]))
      .mul (.binaryOperator (.identifier ["b"]) .add
        (.unaryOperator .dereference (.identifier ["c"])))
    expression operatorGrammar (tokens noTypeArguments.tokens expr ++ []) = some (expr, []) := by
  intro expr
  refine (expression_tokens_iff ?_ stops_nil).mpr ?_
  · simp [expr, Parsed]
  · simp [expr, ClosedDereferences, EndsInDereference, Looser, bindingPower]

/-- `*a + b`, a sum whose left operand is a dereference, is read as the dereference of a sum. -/
theorem expression_tokens_dereference :
    let expr : Expression Empty Empty := .binaryOperator
      (.unaryOperator .dereference (.identifier ["a"])) .add (.identifier ["b"])
    Parsed expr ∧
    tokens noTypeArguments.tokens expr = [.asterisk, .identifier "a", .plus, .identifier "b"] ∧
    expression operatorGrammar (tokens noTypeArguments.tokens expr) =
      some (.unaryOperator .dereference
        (.binaryOperator (.identifier ["a"]) .add (.identifier ["b"])), []) ∧
    expression operatorGrammar (tokens noTypeArguments.tokens expr) ≠ some (expr, []) := by
  intro expr
  have hparsed : Parsed expr := by simp [expr, Parsed]
  have hread : expression operatorGrammar (tokens noTypeArguments.tokens expr ++ []) =
      some (regroup expr, []) := expression_tokens hparsed stops_nil
  rw [List.append_nil] at hread
  refine ⟨hparsed, rfl, hread, fun h => ?_⟩
  have hsame : Expression.unaryOperator .dereference
      (.binaryOperator (.identifier ["a"]) .add (.identifier ["b"])) = expr :=
    (Prod.mk.inj (Option.some.inj (hread.symm.trans h))).1
  exact nomatch hsame

end Spade.Parser

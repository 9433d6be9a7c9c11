import Mathlib.Order.Lattice
import Mathlib.Order.Nat
import Spade.Ast
import Spade.Parser.Lexer

/-!
# Parsing expressions

The embedding of `spade-parser/src/expression.rs` and of the functions of `spade-parser/src/lib.rs`
it uses: a Pratt parser for binary and prefix operators over base expressions with suffixes. A
parser takes the tokens that are left and returns what it has read with the tokens after it, or
`none` for an error. The functions call each other without a measure that decreases, like those of
the source; a call that never ends has no result either.

The expressions that start with a keyword or a block and the type arguments of calls are read by
parameters (`Grammar`).
-/

namespace Spade.Parser

open Spade.Ast

/-! ### Operators -/

inductive OpBindingPower where
  | none
  | logicalOr
  | logicalAnd
  | logicalXor
  | bitwiseOr
  | bitwiseXor
  | bitwiseAnd
  | equality
  | relationalCmp
  | shift
  | addLike
  | mulLike
  /-- Unary operator appearing before the expression it applies to such as - and ! -/
  | prefixUnary
  deriving DecidableEq, Repr

/-- The derived order: the one of the declaration. -/
instance : LinearOrder OpBindingPower :=
  LinearOrder.lift' OpBindingPower.ctorIdx fun a b h => by
    cases a <;> cases b <;> first | rfl | cases h

def binopBindingPower : BinaryOperator → OpBindingPower
  | .add => .addLike
  | .sub => .addLike
  | .mul => .mulLike
  | .div => .mulLike
  | .mod => .mulLike
  | .equals => .equality
  | .notEquals => .equality
  | .lt => .relationalCmp
  | .gt => .relationalCmp
  | .le => .relationalCmp
  | .ge => .relationalCmp
  | .logicalAnd => .logicalAnd
  | .logicalOr => .logicalOr
  | .logicalXor => .logicalXor
  | .leftShift => .shift
  | .rightShift => .shift
  | .arithmeticRightShift => .shift
  | .bitwiseAnd => .bitwiseAnd
  | .bitwiseOr => .bitwiseOr
  | .bitwiseXor => .bitwiseXor

def unopBindingPower : UnaryOperator → OpBindingPower
  | .sub => .prefixUnary
  | .not => .prefixUnary
  | .bitwiseNot => .prefixUnary
  | .dereference => .prefixUnary
  | .reference => .prefixUnary

def binopFromKind : TokenKind → Option BinaryOperator
  | .plus => some .add
  | .minus => some .sub
  | .asterisk => some .mul
  | .slash => some .div
  | .percentage => some .mod
  | .equals => some .equals
  | .notEquals => some .notEquals
  | .lt => some .lt
  | .gt => some .gt
  | .le => some .le
  | .ge => some .ge
  | .rightShift => some .rightShift
  | .arithmeticRightShift => some .arithmeticRightShift
  | .leftShift => some .leftShift
  | .logicalOr => some .logicalOr
  | .logicalAnd => some .logicalAnd
  | .logicalXor => some .logicalXor
  | .ampersand => some .bitwiseAnd
  | .bitwiseOr => some .bitwiseOr
  | .bitwiseXor => some .bitwiseXor
  | _ => none

def unopFromKind : TokenKind → Option UnaryOperator
  | .minus => some .sub
  | .not => some .not
  | .tilde => some .bitwiseNot
  | .ampersand => some .reference
  | _ => none

/-- If `op` is a subtraction, and `rhs` is an integer literal, construct a negative integer literal
instead. -/
def inlineNegativeLiteral {T O : Type} : UnaryOperator → Expression T O → Option (Expression T O)
  | .sub, .intLiteral (.unsized val) => some (.intLiteral (.unsized (-val)))
  | .sub, .intLiteral (.signed val size) => some (.intLiteral (.signed (-val) size))
  -- Cannot apply unary minus to unsigned integer literal
  | .sub, .intLiteral (.unsigned _ _) => none
  | op, rhs => some (.unaryOperator op rhs)

/-! ### Literals and paths -/

/-- The literal of a token. The sign of an unsigned one is dropped. -/
def literalOf (negative : Bool) (val : ℕ) : LiteralKind → IntLiteral
  | .unsized => .unsized (if negative then -val else val)
  | .signed size => .signed (if negative then -val else val) size
  | .unsigned size => .unsigned val size

/-- `int_literal` after its sign. -/
def unsignedIntLiteral (negative : Bool) :
    List TokenKind → Option (Option IntLiteral × List TokenKind)
  | .integer val kind :: toks => some (some (literalOf negative val kind), toks)
  | .hexInteger val kind :: toks => some (some (literalOf negative val kind), toks)
  | .binInteger val kind :: toks => some (some (literalOf negative val kind), toks)
  | toks => some (none, toks)

def intLiteral (toks : List TokenKind) : Option (Option IntLiteral × List TokenKind) :=
  match peek toks with
  -- expected a number after the sign
  | .plus => (unsignedIntLiteral false toks.tail).filter (·.1.isSome)
  | .minus => (unsignedIntLiteral true toks.tail).filter (·.1.isSome)
  | _ => unsignedIntLiteral false toks

/-- The number of an integer token, `eat_cond(is_integer)` with `as_biguint`. -/
def integerToken : List TokenKind → Option (ℕ × List TokenKind)
  | .integer val _ :: toks | .hexInteger val _ :: toks | .binInteger val _ :: toks =>
      some (val, toks)
  | _ => none

def identifier : List TokenKind → Option (String × List TokenKind)
  | .identifier name :: toks => some (name, toks)
  | _ => none

/-- The parsers of what is not modelled. -/
structure Grammar (T O : Type) where
  /-- The type arguments of a call, from the `<` or the `$`. -/
  typeArguments : List TokenKind → Option (T × List TokenKind)
  /-- An expression that starts with a keyword or a block. -/
  other : List TokenKind → Option (O × List TokenKind)

section

variable {T O : Type} (G : Grammar T O)

/-- `path_with_turbofish`, where there is an identifier. -/
def pathWithTurbofish : List TokenKind → Option ((List String × Option T) × List TokenKind)
  | .identifier name :: .pathSeparator :: toks =>
      if peek toks = .lt ∨ peek toks = .dollar then
        (G.typeArguments toks).map fun r => (([name], some r.1), r.2)
      else (pathWithTurbofish toks).map fun r => ((name :: r.1.1, r.1.2), r.2)
  | .identifier name :: toks => some (([name], none), toks)
  | _ => none

def turbofish : List TokenKind → Option (Option T × List TokenKind)
  | .pathSeparator :: toks =>
      if peek toks = .lt ∨ peek toks = .dollar then
        (G.typeArguments toks).map fun r => (some r.1, r.2)
      else none
  | toks => some (none, toks)

end

/-! ### Expressions -/

namespace Grammar

variable {T O : Type}

mutual

def expression (G : Grammar T O) (toks : List TokenKind) :
    Option (Expression T O × List TokenKind) :=
  match peek toks with
  | .comptimeIf => (G.other toks).map fun r => (.other r.1, r.2)
  | _ => G |>.customInfixOperator toks
partial_fixpoint

def customInfixOperator (G : Grammar T O) (toks : List TokenKind) :
    Option (Expression T O × List TokenKind) := do
  let (lhs, toks) ← G |>.exprBp .none toks
  if peek toks = .infixOperatorSeparator then
    let ((callee, turbofish), toks) ← pathWithTurbofish G toks.tail
    let toks ← eat .infixOperatorSeparator toks
    let (rhs, toks) ← G |>.customInfixOperator toks
    some (.call .function callee (.positional [lhs, rhs]) turbofish, toks)
  else some (lhs, toks)
partial_fixpoint

def exprBp (G : Grammar T O) (minPower : OpBindingPower) (toks : List TokenKind) :
    Option (Expression T O × List TokenKind) := do
  match unopFromKind (peek toks) with
  | some op =>
      let (rhs, toks) ← G |>.exprBp (unopBindingPower op) toks.tail
      let lhs ← inlineNegativeLiteral op rhs
      G |>.exprLoop minPower lhs toks
  | none =>
      let (lhs, toks) ← G |>.baseExpression toks
      G |>.exprLoop minPower lhs toks
partial_fixpoint

/-- The loop of `expr_bp` over the binary operators. -/
def exprLoop (G : Grammar T O) (minPower : OpBindingPower) (lhs : Expression T O)
    (toks : List TokenKind) :
    Option (Expression T O × List TokenKind) :=
  match binopFromKind (peek toks) with
  | none => some (lhs, toks)
  | some op =>
      if binopBindingPower op ≤ minPower then some (lhs, toks)
      else do
        let (rhs, toks) ← G |>.exprBp (binopBindingPower op) toks.tail
        G |>.exprLoop minPower (.binaryOperator lhs op rhs) toks
partial_fixpoint

/-- `base_expression`. Its alternatives start with different tokens, so they are one match. -/
def baseExpression (G : Grammar T O) (toks : List TokenKind) :
    Option (Expression T O × List TokenKind) := do
  match peek toks with
  | .openParen =>
      let (expr, toks) ← G |>.tupleLiteral toks
      G |>.expressionSuffix expr toks
  | .openBracket =>
      let (expr, toks) ← G |>.arrayLiteral toks
      G |>.expressionSuffix expr toks
  | .true_ => G |>.expressionSuffix (.boolLiteral true) toks.tail
  | .false_ => G |>.expressionSuffix (.boolLiteral false) toks.tail
  | .low => G |>.expressionSuffix (.bitLiteral .low) toks.tail
  | .high => G |>.expressionSuffix (.bitLiteral .high) toks.tail
  | .highImp => G |>.expressionSuffix (.bitLiteral .highImp) toks.tail
  | .plus | .minus | .integer _ _ | .hexInteger _ _ | .binInteger _ _ =>
      let (val, toks) ← intLiteral toks
      let val ← val
      G |>.expressionSuffix (.intLiteral val) toks
  | .instance_ | .openBrace | .if_ | .match_ | .stage | .port =>
      let (expr, toks) ← G.other toks
      G |>.expressionSuffix (.other expr) toks
  | .not | .tilde | .asterisk =>
      let (expr, toks) ← G |>.unaryOperator toks
      G |>.expressionSuffix expr toks
  | .identifier _ =>
      let ((path, turbofish), toks) ← pathWithTurbofish G toks
      let (args, toks) ← G |>.argumentList toks
      match turbofish, args with
      | none, none => G |>.expressionSuffix (.identifier path) toks
      -- Type parameters can only be specified on function calls
      | some _, none => none
      | turbofish, some args => G |>.expressionSuffix (.call .function path args turbofish) toks
  | _ => none
partial_fixpoint

/-- `unary_operator`, where there is an operator. `base_expression` takes a minus for the sign of a
literal, so it does not come here with one. -/
def unaryOperator (G : Grammar T O) (toks : List TokenKind) :
    Option (Expression T O × List TokenKind) := do
  let op ← match peek toks with
    | .minus => some UnaryOperator.sub
    | .not => some .not
    | .tilde => some .bitwiseNot
    | .asterisk => some .dereference
    | _ => none
  let (expr, toks) ← G |>.expression toks.tail
  some (.unaryOperator op expr, toks)
partial_fixpoint

def expressionSuffix (G : Grammar T O) (expr : Expression T O) (toks : List TokenKind) :
    Option (Expression T O × List TokenKind) := do
  match peek toks with
  | .hash =>
      let (idx, toks) ← intLiteral toks.tail
      -- expected an index after #
      let idx ← idx
      -- Tuple indices must be non-negative
      let idx ← idx.asUnsigned
      -- Tuple index too large
      if h : idx < 2 ^ 128 then G |>.expressionSuffix (.tupleIndex expr ⟨idx, h⟩) toks else none
  | .dot =>
      let (kind, toks) :=
        if peek toks.tail = .instance_ then (CallKind.entity, toks.tail.tail)
        else (CallKind.function, toks.tail)
      let (field, toks) ← identifier toks
      let (turbofish, toks) ← turbofish G toks
      let (args, toks) ← G |>.argumentList toks
      match args with
      | some args => G |>.expressionSuffix (.methodCall expr field args kind turbofish) toks
      | none =>
          if kind = .function ∧ turbofish.isNone then
            G |>.expressionSuffix (.fieldAccess expr field) toks
          else none
  | .openBracket =>
      let (start, toks) ← G |>.expression toks.tail
      if peek toks = .colon then
        -- Range indices must be integers
        let start ← match start with
          | .intLiteral start => if start.isNegative then none else start.asUnsigned
          | _ => none
        let (stop, toks) ← intLiteral toks.tail
        let stop ← stop
        let stop ← stop.asUnsigned
        let toks ← eat .closeBracket toks
        G |>.expressionSuffix (.rangeIndex expr start stop) toks
      else
        let toks ← eat .closeBracket toks
        G |>.expressionSuffix (.index expr start) toks
  | _ => some (expr, toks)
partial_fixpoint

def arrayLiteral (G : Grammar T O) (toks : List TokenKind) :
    Option (Expression T O × List TokenKind) := do
  let toks ← eat .openBracket toks
  if peek toks = .closeBracket then some (.arrayLiteral [], toks.tail)
  else
    let (first, toks) ← G |>.expression toks
    if peek toks = .semi then
      let (amount, toks) ← integerToken toks.tail
      let toks ← eat .closeBracket toks
      some (.arrayShorthandLiteral first amount, toks)
    else
      -- eat comma, if any
      let (inner, toks) ←
        G |>.commaSeparated .closeBracket (if peek toks = .comma then toks.tail else toks)
      let toks ← eat .closeBracket toks
      some (.arrayLiteral (first :: inner), toks)
partial_fixpoint

def tupleLiteral (G : Grammar T O) (toks : List TokenKind) :
    Option (Expression T O × List TokenKind) := do
  let toks ← eat .openParen toks
  let (inner, toks) ← G |>.commaSeparated .closeParen toks
  match inner with
  -- Tuples with no elements are not supported
  | [] => none
  | [expr] =>
      let toks ← eat .closeParen toks
      some (expr, toks)
  | inner =>
      let toks ← eat .closeParen toks
      some (.tupleLiteral inner, toks)
partial_fixpoint

/-- `argument_list`. A `$` is eaten also where no list follows. -/
def argumentList (G : Grammar T O) (toks : List TokenKind) :
    Option (Option (ArgumentList (Expression T O)) × List TokenKind) := do
  if peek toks = .dollar then
    if peek toks.tail = .openParen then
      let (args, toks) ← G |>.namedArguments toks.tail.tail
      let toks ← eat .closeParen toks
      some (some (.named args), toks)
    else some (none, toks.tail)
  else if peek toks = .openParen then
    let (args, toks) ← G |>.commaSeparated .closeParen toks.tail
    let toks ← eat .closeParen toks
    some (some (.positional args), toks)
  else some (none, toks)
partial_fixpoint

/-- `comma_separated` of expressions. -/
def commaSeparated (G : Grammar T O) (endMarker : TokenKind) (toks : List TokenKind) :
    Option (List (Expression T O) × List TokenKind) := do
  if peek toks = endMarker then some ([], toks)
  else
    let (first, toks) ← G |>.expression toks
    if peek toks = endMarker then some ([first], toks)
    else
      let toks ← eat .comma toks
      let (inner, toks) ← G |>.commaSeparated endMarker toks
      some (first :: inner, toks)
partial_fixpoint

/-- `comma_separated` of named arguments. -/
def namedArguments (G : Grammar T O) (toks : List TokenKind) :
    Option (List (NamedArgument (Expression T O)) × List TokenKind) := do
  if peek toks = .closeParen then some ([], toks)
  else
    let (first, toks) ← G |>.namedArgument toks
    if peek toks = .closeParen then some ([first], toks)
    else
      let toks ← eat .comma toks
      let (inner, toks) ← G |>.namedArguments toks
      some (first :: inner, toks)
partial_fixpoint

def namedArgument (G : Grammar T O) (toks : List TokenKind) :
    Option (NamedArgument (Expression T O) × List TokenKind) := do
  let (name, toks) ← identifier toks
  if peek toks = .colon then
    let (value, toks) ← G |>.expression toks.tail
    some (.full name value, toks)
  else some (.short name, toks)
partial_fixpoint

end

end Grammar

export Grammar (expression customInfixOperator exprBp exprLoop baseExpression unaryOperator
  expressionSuffix arrayLiteral tupleLiteral argumentList commaSeparated namedArguments
  namedArgument)

end Spade.Parser

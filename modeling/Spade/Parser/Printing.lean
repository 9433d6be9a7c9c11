import Spade.Parser.Expression

/-!
# Printing expressions with few parentheses

The tokens of an expression (`Expression.tokens`) with only the parentheses that the binding powers
of the operators require: prefix operators bind tightest, binary operators of one level associate to
the left, and suffixes bind tighter than all operators. This is a statement of what the table of
binding powers means, not a function of the compiler.

* `Expression.Parsed`: the expressions that a parser can give back. In them a minus in front of an
  integer literal is part of the literal.
* `Expression.ClosedDereferences`: no dereference ends the tokens of a left operand.
-/

namespace Spade.Parser

open Spade.Ast

/-! ### Tokens of operators, literals and paths -/

def binopToken : BinaryOperator → TokenKind
  | .add => .plus
  | .sub => .minus
  | .mul => .asterisk
  | .div => .slash
  | .mod => .percentage
  | .equals => .equals
  | .notEquals => .notEquals
  | .lt => .lt
  | .gt => .gt
  | .le => .le
  | .ge => .ge
  | .logicalAnd => .logicalAnd
  | .logicalOr => .logicalOr
  | .logicalXor => .logicalXor
  | .leftShift => .leftShift
  | .rightShift => .rightShift
  | .arithmeticRightShift => .arithmeticRightShift
  | .bitwiseAnd => .ampersand
  | .bitwiseOr => .bitwiseOr
  | .bitwiseXor => .bitwiseXor

def unopToken : UnaryOperator → TokenKind
  | .sub => .minus
  | .not => .not
  | .bitwiseNot => .tilde
  | .dereference => .asterisk
  | .reference => .ampersand

@[simp] theorem binopFromKind_binopToken {op : BinaryOperator} :
    binopFromKind (binopToken op) = some op := by
  cases op <;> rfl

theorem binopBindingPower_lt {op : BinaryOperator} :
    binopBindingPower op < OpBindingPower.prefixUnary := by
  cases op <;> decide

theorem lt_binopBindingPower {op : BinaryOperator} :
    OpBindingPower.none < binopBindingPower op := by
  cases op <;> decide

/-- The tokens of an integer, with a minus if it is negative. -/
def signedTokens (val : ℤ) (kind : LiteralKind) : List TokenKind :=
  if val < 0 then [.minus, .integer val.natAbs kind] else [.integer val.natAbs kind]

def literalTokens : IntLiteral → List TokenKind
  | .unsized val => signedTokens val .unsized
  | .signed val size => signedTokens val (.signed size)
  | .unsigned val size => [.integer val (.unsigned size)]

def boolToken : Bool → TokenKind
  | true => .true_
  | false => .false_

def bitToken : BitLiteral → TokenKind
  | .low => .low
  | .high => .high
  | .highImp => .highImp

def pathTokens : List String → List TokenKind
  | [] => []
  | [name] => [.identifier name]
  | name :: path => .identifier name :: .pathSeparator :: pathTokens path

def kindTokens : CallKind → List TokenKind
  | .function => []
  | .entity => [.instance_]

/-- The tokens, in parentheses if the condition holds. -/
def surround (cond : Prop) [Decidable cond] (toks : List TokenKind) : List TokenKind :=
  if cond then .openParen :: (toks ++ [.closeParen]) else toks

/-- How type arguments are written and read back. -/
structure TypeArgumentTokens {T O : Type} (G : Grammar T O) where
  tokens : T → List TokenKind
  starts : ∀ t toks, peek (tokens t ++ toks) = .lt ∨ peek (tokens t ++ toks) = .dollar
  /-- They are read back in front of an argument list. -/
  reads : ∀ t toks, peek toks = .openParen ∨ peek toks = .dollar →
    G.typeArguments (tokens t ++ toks) = some (t, toks)

/-! ### Tokens of expressions -/

section

variable {T O : Type}

/-- The binding power of an expression that starts or ends with an operator. -/
def bindingPower : Expression T O → Option OpBindingPower
  | .binaryOperator _ op _ => some (binopBindingPower op)
  | .unaryOperator op _ => some (unopBindingPower op)
  | .intLiteral val => if val.isNegative then some .prefixUnary else none
  | _ => none

/-- The expression binds looser than the given power. -/
def Looser (expr : Expression T O) (power : OpBindingPower) : Prop :=
  ∃ p ∈ bindingPower expr, p < power

/-- The expression binds at most as tight as the given power. -/
def NotTighter (expr : Expression T O) (power : OpBindingPower) : Prop :=
  ∃ p ∈ bindingPower expr, p ≤ power

instance {expr : Expression T O} {power : OpBindingPower} : Decidable (Looser expr power) :=
  inferInstanceAs (Decidable (∃ p ∈ bindingPower expr, p < power))

instance {expr : Expression T O} {power : OpBindingPower} : Decidable (NotTighter expr power) :=
  inferInstanceAs (Decidable (∃ p ∈ bindingPower expr, p ≤ power))

variable (typeTokens : T → List TokenKind)

def turbofishTokens : Option T → List TokenKind
  | none => []
  | some t => .pathSeparator :: typeTokens t

mutual

/-- The tokens of an expression, not counting parentheses around it. -/
def tokens : Expression T O → List TokenKind
  | .identifier path => pathTokens path
  | .intLiteral val => literalTokens val
  | .boolLiteral val => [boolToken val]
  | .bitLiteral val => [bitToken val]
  | .arrayLiteral inner => .openBracket :: (separated inner ++ [.closeBracket])
  | .arrayShorthandLiteral inner amount =>
      .openBracket :: (tokens inner ++ [.semi, .integer amount .unsized, .closeBracket])
  | .index target idx =>
      surround (bindingPower target).isSome (tokens target) ++
        .openBracket :: (tokens idx ++ [.closeBracket])
  | .rangeIndex target start stop =>
      surround (bindingPower target).isSome (tokens target) ++
        [.openBracket, .integer start .unsized, .colon, .integer stop .unsized, .closeBracket]
  | .tupleLiteral inner => .openParen :: (separated inner ++ [.closeParen])
  | .tupleIndex target idx =>
      surround (bindingPower target).isSome (tokens target) ++ [.hash, .integer idx .unsized]
  | .fieldAccess target field =>
      surround (bindingPower target).isSome (tokens target) ++ [.dot, .identifier field]
  | .call _ callee args turbofish =>
      pathTokens callee ++ turbofishTokens typeTokens turbofish ++ argumentTokens args
  | .methodCall target name args kind turbofish =>
      surround (bindingPower target).isSome (tokens target) ++
        .dot :: (kindTokens kind ++
          .identifier name :: (turbofishTokens typeTokens turbofish ++ argumentTokens args))
  | .unaryOperator op operand =>
      unopToken op :: surround (Looser operand (unopBindingPower op)) (tokens operand)
  | .binaryOperator lhs op rhs =>
      surround (Looser lhs (binopBindingPower op)) (tokens lhs) ++
        binopToken op :: surround (NotTighter rhs (binopBindingPower op)) (tokens rhs)
  | .other _ => []
termination_by structural expr => expr

/-- Expressions with commas between them. -/
def separated : List (Expression T O) → List TokenKind
  | [] => []
  | first :: inner =>
      tokens first ++ if inner.isEmpty then [] else .comma :: separated inner
termination_by structural inner => inner

def argumentTokens : ArgumentList (Expression T O) → List TokenKind
  | .positional args => .openParen :: (separated args ++ [.closeParen])
  | .named args => .dollar :: .openParen :: (separatedNamed args ++ [.closeParen])
termination_by structural args => args

/-- Named arguments with commas between them. -/
def separatedNamed : List (NamedArgument (Expression T O)) → List TokenKind
  | [] => []
  | .full name value :: args =>
      .identifier name :: .colon :: (tokens value ++
        if args.isEmpty then [] else .comma :: separatedNamed args)
  | .short name :: args =>
      .identifier name :: if args.isEmpty then [] else .comma :: separatedNamed args
termination_by structural args => args

end

/-! ### Expressions that can be given back -/

/- What the parser promises of the expressions it returns, one function for every container. -/
mutual

/-- Paths are not empty, tuples have several elements, functions are called without `inst`, a minus
before an integer literal belongs to the literal, and no part is one of the other expressions. -/
def Parsed : Expression T O → Prop
  | .identifier path => path ≠ []
  | .intLiteral _ | .boolLiteral _ | .bitLiteral _ => True
  | .arrayLiteral inner => ParsedAll inner
  | .arrayShorthandLiteral inner _ => Parsed inner
  | .index target idx => Parsed target ∧ Parsed idx
  | .rangeIndex target _ _ => Parsed target
  | .tupleLiteral inner => 2 ≤ inner.length ∧ ParsedAll inner
  | .tupleIndex target _ => Parsed target
  | .fieldAccess target _ => Parsed target
  | .call kind callee args _ => kind = .function ∧ callee ≠ [] ∧ ParsedArguments args
  | .methodCall target _ args _ _ => Parsed target ∧ ParsedArguments args
  | .unaryOperator op operand =>
      Parsed operand ∧ (op = .sub → ∀ val, operand ≠ .intLiteral val)
  | .binaryOperator lhs _ rhs => Parsed lhs ∧ Parsed rhs
  | .other _ => False
termination_by structural expr => expr

def ParsedAll : List (Expression T O) → Prop
  | [] => True
  | first :: inner => Parsed first ∧ ParsedAll inner
termination_by structural inner => inner

def ParsedArguments : ArgumentList (Expression T O) → Prop
  | .positional args => ParsedAll args
  | .named args => ParsedNamed args
termination_by structural args => args

def ParsedNamed : List (NamedArgument (Expression T O)) → Prop
  | [] => True
  | .full _ value :: args => Parsed value ∧ ParsedNamed args
  | .short _ :: args => ParsedNamed args
termination_by structural args => args

end

/-- The tokens of the expression end with a dereference and its operand. -/
def EndsInDereference : Expression T O → Prop
  | .unaryOperator .dereference _ => True
  | .unaryOperator op operand =>
      ¬ Looser operand (unopBindingPower op) ∧ EndsInDereference operand
  | .binaryOperator _ op rhs => ¬ NotTighter rhs (binopBindingPower op) ∧ EndsInDereference rhs
  | _ => False

/- The dereferences in an expression, one function for every container. -/
mutual

/-- Where the left operand of a binary operator is not in parentheses, its tokens do not end with a
dereference and its operand. -/
def ClosedDereferences : Expression T O → Prop
  | .identifier _ | .intLiteral _ | .boolLiteral _ | .bitLiteral _ | .other _ => True
  | .arrayLiteral inner => ClosedAll inner
  | .arrayShorthandLiteral inner _ => ClosedDereferences inner
  | .index target idx => ClosedDereferences target ∧ ClosedDereferences idx
  | .rangeIndex target _ _ => ClosedDereferences target
  | .tupleLiteral inner => ClosedAll inner
  | .tupleIndex target _ => ClosedDereferences target
  | .fieldAccess target _ => ClosedDereferences target
  | .call _ _ args _ => ClosedArguments args
  | .methodCall target _ args _ _ => ClosedDereferences target ∧ ClosedArguments args
  | .unaryOperator _ operand => ClosedDereferences operand
  | .binaryOperator lhs op rhs =>
      ClosedDereferences lhs ∧ ClosedDereferences rhs ∧
        (EndsInDereference lhs → Looser lhs (binopBindingPower op))
termination_by structural expr => expr

def ClosedAll : List (Expression T O) → Prop
  | [] => True
  | first :: inner => ClosedDereferences first ∧ ClosedAll inner
termination_by structural inner => inner

def ClosedArguments : ArgumentList (Expression T O) → Prop
  | .positional args => ClosedAll args
  | .named args => ClosedNamed args
termination_by structural args => args

def ClosedNamed : List (NamedArgument (Expression T O)) → Prop
  | [] => True
  | .full _ value :: args => ClosedDereferences value ∧ ClosedNamed args
  | .short _ :: args => ClosedNamed args
termination_by structural args => args

end

end

end Spade.Parser

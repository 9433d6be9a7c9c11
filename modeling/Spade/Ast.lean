import Mathlib.Algebra.Group.Nat.Defs
import Mathlib.Data.Nat.Notation
import Mathlib.Data.Int.Notation

/-!
# The abstract syntax of expressions

The expressions of `spade-ast` that `spade-parser` builds from operators, literals, identifiers,
calls and suffixes. Locations are left out. The expressions that start with a keyword or a block are
one constructor over a parameter, and so are the type arguments of calls.
-/

namespace Spade.Ast

inductive BinaryOperator where
  | add | sub | mul | div | mod
  | equals | notEquals | lt | gt | le | ge
  | logicalAnd | logicalOr | logicalXor
  | leftShift | rightShift | arithmeticRightShift
  | bitwiseAnd | bitwiseOr | bitwiseXor
  deriving DecidableEq, Repr

inductive UnaryOperator where
  | sub | not | bitwiseNot | dereference | reference
  deriving DecidableEq, Repr

inductive BitLiteral where
  | low | high | highImp
  deriving DecidableEq, Repr

inductive IntLiteral where
  | unsized (val : ℤ)
  | signed (val : ℤ) (size : ℕ)
  | unsigned (val : ℕ) (size : ℕ)
  deriving DecidableEq, Repr

namespace IntLiteral

/-- The value of a literal that is not negative. -/
def asUnsigned : IntLiteral → Option ℕ
  | unsized val | signed val _ => if 0 ≤ val then some val.toNat else none
  | unsigned val _ => some val

def isNegative : IntLiteral → Bool
  | unsized val | signed val _ => val < 0
  | unsigned .. => false

end IntLiteral

/-- The kinds of calls that expressions of operators and suffixes can contain. -/
inductive CallKind where
  | function | entity
  deriving DecidableEq, Repr

inductive NamedArgument (ε : Type) where
  | full (name : String) (value : ε)
  /-- Binds a local variable to an argument with the same name. -/
  | short (name : String)

inductive ArgumentList (ε : Type) where
  | positional (args : List ε)
  | named (args : List (NamedArgument ε))

/-- `Expression`. `T` are the type arguments of calls, `O` the other expressions: instances, blocks,
conditionals, matches, references to stages, ports and compile time conditions. -/
inductive Expression (T O : Type) where
  | identifier (path : List String)
  | intLiteral (val : IntLiteral)
  | boolLiteral (val : Bool)
  | bitLiteral (val : BitLiteral)
  | arrayLiteral (inner : List (Expression T O))
  /-- `[<expr>; <amount>]` -/
  | arrayShorthandLiteral (inner : Expression T O) (amount : ℕ)
  | index (target idx : Expression T O)
  | rangeIndex (target : Expression T O) (start stop : ℕ)
  | tupleLiteral (inner : List (Expression T O))
  /-- The index is a `u128`. -/
  | tupleIndex (target : Expression T O) (idx : Fin (2 ^ 128))
  | fieldAccess (target : Expression T O) (field : String)
  | call (kind : CallKind) (callee : List String) (args : ArgumentList (Expression T O))
      (turbofish : Option T)
  | methodCall (target : Expression T O) (name : String) (args : ArgumentList (Expression T O))
      (kind : CallKind) (turbofish : Option T)
  | unaryOperator (op : UnaryOperator) (operand : Expression T O)
  | binaryOperator (lhs : Expression T O) (op : BinaryOperator) (rhs : Expression T O)
  | other (expr : O)

end Spade.Ast

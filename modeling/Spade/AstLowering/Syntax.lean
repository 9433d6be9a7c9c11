import Spade.Ast
import Spade.Hir.SymbolTable

/-!
# The abstract syntax of items

The syntax tree that `spade-ast-lowering` lowers: expressions with their blocks and match arms,
statements, units, type declarations, trait definitions, impl blocks and modules. Locations are left
out. The parts in which no scope can be opened are parameters (`Parts`).

`consume_no_mangle` empties the attribute list of a parameter before it is checked, so that the
attributes of parameters are left out too.
-/

namespace Spade.AstLowering

open Spade.Hir (Path)

/-- The parts of the syntax tree in which no scope is opened, and the lowered types. -/
structure Parts where
  TypeExpression : Type
  TraitSpec : Type
  WhereClause : Type
  Pattern : Type
  Turbofish : Type
  HirTypeSpec : Type

variable (P : Parts)

inductive TypeSpec where
  | tuple (inner : List TypeSpec)
  | array (inner : TypeSpec) (size : P.TypeExpression)
  | named (path : Path) (args : Option (List P.TypeExpression))
  | unit
  | backward (inner : TypeSpec)
  | inverted (inner : TypeSpec)
  | wire (inner : TypeSpec)
  | wildcard

/-- `is_self`. -/
def TypeSpec.isSelf {P : Parts} : TypeSpec P → Bool
  | .named path _ => path = ["Self"]
  | _ => false

inductive TypeParam where
  | typeName (name : String) (traits : List P.TraitSpec)
  | typeWithMeta (metaType name : String)

def TypeParam.name {P : Parts} : TypeParam P → String
  | .typeName name _ | .typeWithMeta _ name => name

/-! ### Compile time conditions -/

inductive ComptimeCondOp where
  | eq | lt | gt | le | ge
  deriving DecidableEq, Repr

def ComptimeCondOp.holds : ComptimeCondOp → ℤ → ℤ → Bool
  | .eq, a, b => a = b
  | .lt, a, b => a < b
  | .gt, a, b => a > b
  | .le, a, b => a ≤ b
  | .ge, a, b => a ≥ b

/-- The condition of a `ComptimeCondition`. -/
structure Condition where
  var : Path
  op : ComptimeCondOp
  val : ℤ

inductive MaybeComptime (τ : Type) where
  | raw (inner : τ)
  | comptime (condition : Condition) (onTrue : τ) (onFalse : Option τ)

/-! ### Expressions and statements -/

inductive CallKind where
  | function
  | entity
  | pipeline (depth : MaybeComptime P.TypeExpression)

inductive PipelineStageReference where
  | relative (offset : P.TypeExpression)
  | absolute (name : String)

mutual

inductive Expression where
  | identifier (path : Path)
  | intLiteral (val : Ast.IntLiteral)
  | boolLiteral (val : Bool)
  | bitLiteral (val : Ast.BitLiteral)
  | arrayLiteral (inner : List Expression)
  /-- `[<expr>; <amount>]` -/
  | arrayShorthandLiteral (inner : Expression) (amount : ℕ)
  | index (target idx : Expression)
  | rangeIndex (target : Expression) (start stop : ℕ)
  | tupleLiteral (inner : List Expression)
  | tupleIndex (target : Expression) (idx : ℕ)
  | fieldAccess (target : Expression) (field : String)
  | createPorts
  | call (kind : CallKind P) (callee : Path) (args : Ast.ArgumentList Expression)
      (turbofish : Option P.Turbofish)
  | methodCall (target : Expression) (name : String) (args : Ast.ArgumentList Expression)
      (kind : CallKind P) (turbofish : Option P.Turbofish)
  | ite (cond onTrue onFalse : Expression)
  | matchOn (expression : Expression) (branches : List (P.Pattern × Expression))
  | unaryOperator (op : Ast.UnaryOperator) (operand : Expression)
  | binaryOperator (lhs : Expression) (op : Ast.BinaryOperator) (rhs : Expression)
  | block (statements : List Statement) (result : Option Expression)
  | pipelineReference (stage : PipelineStageReference P) (name : String)
  | stageValid
  | stageReady
  | comptime (condition : Condition) (onTrue : Expression) (onFalse : Option Expression)

inductive Statement where
  | label (name : String)
  | declaration (names : List String)
  | binding (pattern : P.Pattern) (ty : Option (TypeSpec P)) (value : Expression)
      (attrs : List Attribute)
  | pipelineRegMarker (count : Option P.TypeExpression) (cond : Option Expression)
  | register (pattern : P.Pattern) (clock : Expression) (reset : Option (Expression × Expression))
      (initial : Option Expression) (value : Expression) (valueType : Option (TypeSpec P))
      (attributes : List Attribute)
  | set (target value : Expression)
  | assert (expr : Expression)
  | comptime (condition : Condition) (onTrue : List Statement) (onFalse : Option (List Statement))

inductive Attribute where
  | optimize (passes : List String)
  | noMangle
  | fsm (state : Option String)
  | walTraceable (suffix : Option String) (usesClk usesRst : Bool)
  | walTrace (clk rst : Option Expression)
  /-- Create a copy of the marked signal with the specified suffix applied. -/
  | walSuffix (suffix : String)

end

def Attribute.name {P : Parts} : Attribute P → String
  | .optimize _ => "optimize"
  | .noMangle => "no_mangle"
  | .fsm _ => "fsm"
  | .walTraceable .. => "wal_traceable"
  | .walTrace .. => "wal_trace"
  | .walSuffix _ => "wal_suffix"

/-! ### Units -/

structure ParameterList where
  takesSelf : Bool
  args : List (String × TypeSpec P)

inductive UnitKind where
  | function
  | entity
  | pipeline (depth : MaybeComptime P.TypeExpression)

structure UnitHead where
  attributes : List (Attribute P)
  unitKind : UnitKind P
  name : String
  inputs : ParameterList P
  outputType : Option (TypeSpec P)
  typeParams : Option (List (TypeParam P))
  whereClauses : List P.WhereClause

/-- `Unit`. A unit without a body is `__builtin__`. -/
structure UnitDef where
  head : UnitHead P
  body : Option (Expression P)

/-! ### Items -/

structure TraitDef where
  name : String
  typeParams : Option (List (TypeParam P))
  whereClauses : List P.WhereClause
  methods : List (UnitHead P)

structure ImplBlock where
  trait : Option P.TraitSpec
  typeParams : Option (List (TypeParam P))
  whereClauses : List P.WhereClause
  target : TypeSpec P
  units : List (UnitDef P)

inductive TypeDeclKind where
  | enum (name : String) (options : List (String × Option (ParameterList P)))
  | struct (attributes : List (Attribute P)) (name : String) (members : ParameterList P)
      (isPort : Bool)

structure TypeDeclaration where
  name : String
  kind : TypeDeclKind P
  genericArgs : Option (List (TypeParam P))

structure UseStatement where
  path : Path
  aliasName : Option String

structure ComptimeConfig where
  name : String
  val : ℤ

inductive Item where
  | unit (u : UnitDef P)
  | traitDef (t : TraitDef P)
  | type (t : TypeDeclaration P)
  | module (name : String) (members : List Item)
  | use (u : UseStatement)
  | config (c : ComptimeConfig)
  | implBlock (b : ImplBlock P)

/-- `ModuleBody`: its members. -/
abbrev ModuleBody : Type := List (Item P)

end Spade.AstLowering

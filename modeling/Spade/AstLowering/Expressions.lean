import Spade.AstLowering.Context

/-!
# Lowering of expressions and statements

`visit_expression`, `visit_block` and `visit_statement` from `spade-ast-lowering`. A block and an
arm of a match open a scope and close it at their end; an error in between leaves it open. Of a
lowered expression only its kind is kept, as far as the lowering of units asks for it.
-/

namespace Spade.AstLowering

open Spade.Lib
open Spade.Hir (Path)

/-- The kind of a lowered expression. -/
inductive ExprKind where
  | block
  | other
  deriving DecidableEq, Repr

variable {P : Parts} (C : Checks P)

def visitCallKind : CallKind P → Lower C PUnit
  | .function | .entity => pure ⟨⟩
  | .pipeline depth => do
    match ← depth.maybeUnpack (C := C) with
    | none => throw "Expected pipeline depth"
    | some e => check (C.visitTypeExpression e .pipelineDepth)

def visitTurbofish : Option P.Turbofish → Lower C PUnit
  | none => pure ⟨⟩
  | some t => check (C.visitTurbofish t)

def visitOptionalType (kind : TypeSpecKind) : Option (TypeSpec P) → Lower C PUnit
  | none => pure ⟨⟩
  | some t => do
    let _ ← check (C.visitTypeSpec t kind)

def visitStage : PipelineStageReference P → Lower C PUnit
  | .relative offset => check (C.visitTypeExpression offset .pipelineDepth)
  | .absolute name => check (C.lookupTypeSymbol [name])

/-- `report_unused`. -/
def reportUnused (attr : Attribute P) (on : String) : Diagnostic :=
  s!"{attr.name} is not a valid attribute for {on}"

/-- The attributes of a register. -/
def visitRegisterAttribute (pattern : P.Pattern) (attr : Attribute P) : Lower C PUnit :=
  match attr with
  | .fsm state => check (C.lookupFsmState state pattern)
  | .walSuffix _ => pure ⟨⟩
  | _ => throw (reportUnused attr "a register")

mutual

def visitExpression : Expression P → Lower C ExprKind
  | .intLiteral _ | .boolLiteral _ | .bitLiteral _ | .createPorts | .stageReady | .stageValid =>
    pure .other
  | .identifier path => do
    check (C.visitIdentifier path)
    return .other
  | .binaryOperator lhs _ rhs => do
    let _ ← visitExpression lhs
    let _ ← visitExpression rhs
    return .other
  | .unaryOperator _ operand => do
    let _ ← visitExpression operand
    return .other
  | .tupleLiteral exprs | .arrayLiteral exprs => do
    visitExpressions exprs
    return .other
  | .arrayShorthandLiteral expr _ => do
    let _ ← visitExpression expr
    return .other
  | .index target idx => do
    let _ ← visitExpression target
    let _ ← visitExpression idx
    return .other
  | .rangeIndex target _ _ | .tupleIndex target _ | .fieldAccess target _ => do
    let _ ← visitExpression target
    return .other
  | .methodCall target _ args kind turbofish => do
    let _ ← visitExpression target
    visitArgumentList args
    visitCallKind C kind
    visitTurbofish C turbofish
    return .other
  | .ite cond onTrue onFalse => do
    let _ ← visitExpression cond
    let _ ← visitExpression onTrue
    let _ ← visitExpression onFalse
    return .other
  | .matchOn expression branches => do
    let _ ← visitExpression expression
    if branches.isEmpty then throw "Match body has no arms"
    visitBranches branches
    return .other
  | .block statements result => do
    -- visit_block
    inScope do
      visitStatements statements
      visitOptional result
      check C.checkForUndefined
    return .block
  | .call kind callee args turbofish => do
    check (C.lookupCallee callee)
    visitArgumentList args
    visitCallKind C kind
    visitTurbofish C turbofish
    return .other
  | .pipelineReference stage name => do
    visitStage C stage
    check (C.lookupStageName name)
    return .other
  | .comptime condition onTrue onFalse => do
    let varVal ← check (C.lookupComptimeConfig condition.var)
    if condition.op.holds varVal condition.val then
      visitExpression onTrue
    else
      visitOnFalse onFalse

def visitOnFalse : Option (Expression P) → Lower C ExprKind
  | some inner => visitExpression inner
  | none => throw "Missing expression"

def visitExpressions : List (Expression P) → Lower C PUnit
  | [] => pure ⟨⟩
  | e :: es => do
    let _ ← visitExpression e
    visitExpressions es

def visitOptional : Option (Expression P) → Lower C PUnit
  | none => pure ⟨⟩
  | some e => do
    let _ ← visitExpression e

def visitArgumentList : Ast.ArgumentList (Expression P) → Lower C PUnit
  | .positional args => visitExpressions args
  | .named args => visitNamedArguments args

def visitNamedArguments : List (Ast.NamedArgument (Expression P)) → Lower C PUnit
  | [] => pure ⟨⟩
  | arg :: args => do
    visitNamedArgument arg
    visitNamedArguments args

def visitNamedArgument : Ast.NamedArgument (Expression P) → Lower C PUnit
  | .full _ e => do
    let _ ← visitExpression e
  | .short name => check (C.visitIdentifier [name])

/-- The arms of a match, each in a scope of its own. -/
def visitBranches : List (P.Pattern × Expression P) → Lower C PUnit
  | [] => pure ⟨⟩
  | branch :: branches => do
    visitBranch branch
    visitBranches branches

def visitBranch : P.Pattern × Expression P → Lower C PUnit
  | (pattern, result) => inScope do
    check (C.visitPattern pattern)
    let _ ← visitExpression result

def visitStatements : List (Statement P) → Lower C PUnit
  | [] => pure ⟨⟩
  | s :: ss => do
    visitStatement s
    visitStatements ss

def visitStatement : Statement P → Lower C PUnit
  | .declaration names => forM names fun name => check (C.addDeclaration name)
  | .binding pattern ty value attrs => do
    visitOptionalType C .bindingType ty
    let _ ← visitExpression value
    check (C.visitPattern pattern)
    visitBindingAttributes attrs
  | .register pattern clock reset initial value valueType attributes => do
    check (C.visitPattern pattern)
    let _ ← visitExpression clock
    visitReset reset
    visitOptional initial
    let _ ← visitExpression value
    visitOptionalType C .bindingType valueType
    forM attributes (visitRegisterAttribute C pattern)
  | .pipelineRegMarker count cond => do
    visitOptional cond
    match count, cond with
    | none, _ => pure ⟨⟩
    | some count, none => check (C.visitTypeExpression count .pipelineDepth)
    | some _, some _ => throw "Multiple registers with conditions can not be defined"
  | .label name => check (C.lookupTypeSymbol [name])
  | .assert expr => do
    let _ ← visitExpression expr
  | .comptime condition onTrue onFalse => do
    let varVal ← check (C.lookupComptimeConfig condition.var)
    if condition.op.holds varVal condition.val then
      visitStatements onTrue
    else
      visitStatementsOnFalse onFalse
  | .set target value => do
    let _ ← visitExpression target
    let _ ← visitExpression value

def visitStatementsOnFalse : Option (List (Statement P)) → Lower C PUnit
  | some statements => visitStatements statements
  | none => pure ⟨⟩

/-- The reset of a register: its trigger and its value. -/
def visitReset : Option (Expression P × Expression P) → Lower C PUnit
  | none => pure ⟨⟩
  | some (trig, value) => do
    let _ ← visitExpression trig
    let _ ← visitExpression value

def visitBindingAttributes : List (Attribute P) → Lower C PUnit
  | [] => pure ⟨⟩
  | attr :: attrs => do
    visitBindingAttribute attr
    visitBindingAttributes attrs

def visitBindingAttribute : Attribute P → Lower C PUnit
  | .walTrace clk rst => do
    visitOptional clk
    visitOptional rst
  | .walSuffix _ => pure ⟨⟩
  | .noMangle => throw (reportUnused (P := P) .noMangle "let binding")
  | .fsm state => throw (reportUnused (P := P) (.fsm state) "let binding")
  | .optimize passes => throw (reportUnused (P := P) (.optimize passes) "let binding")
  | .walTraceable suffix usesClk usesRst =>
    throw (reportUnused (P := P) (.walTraceable suffix usesClk usesRst) "let binding")

end

end Spade.AstLowering

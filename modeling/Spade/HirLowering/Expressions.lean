import Spade.Hir.Expression
import Spade.HirLowering.Pipelines

/-!
# Lowering of expressions

The embedding of `ExprLocal::alias`, `ExprLocal::variable` and `ExprLocal::lower` from
`spade-hir-lowering/src/lib.rs`: the variable that has the value of an expression, and the
statements that compute it. A step is `none` where the source panics or reports a diagnostic.

The lowering of calls, ports, matches and blocks is a parameter (`ExpressionContext.lowerRuntime`).
-/

namespace Spade.HirLowering

open Mir hiding Statement
open Hir

/-- `Substitutions::lookup`: a variable in the current stage, which is the variable itself when
there is no substitution for it. Looking into a stage that does not exist panics. -/
def Substitutions.lookup (subs : Substitutions) (currentStage : ℕ) (original : NameID) :
    Option Substitution := do
  let scope ← (subs.past ++ [subs.last])[currentStage]?
  some ((scope original).getD (.available original))

/-- `PipelineContext`: the ready and the valid signal of every stage that has one. -/
structure PipelineContext where
  readySignals : List (Option ValueName)
  validSignals : List (Option ValueName)

/-- What the lowering of an expression reads of `Context`. -/
structure ExpressionContext where
  /-- `type_of_id`. -/
  typeOfId : ℕ → ConcreteType
  /-- The integer that the generic list of the unit gives for a type parameter. -/
  typeLevelInteger : NameID → Option ℤ
  subs : Substitutions
  currentStage : ℕ
  /-- Nothing outside of pipelines. -/
  pipelineContext : Option PipelineContext
  /-- The lowering of the other kinds of expressions, with the substitutions of a stage. -/
  lowerRuntime : Substitutions → ℕ → Expression → Option (List Mir.Statement)

/-! ### Variables -/

/-- The variable that a substitution stands for. A variable that is not defined or not available
yet is an error. -/
def Substitution.variable (original : NameID) : Substitution → Option ValueName
  | .available current => some current.valueName
  | .port | .zeroSized => some original.valueName
  | .waiting _ _ => none

/-- `to_usize` of the number that a type expression has been inferred to be. -/
def inferredUsize : ConcreteType → Option ℕ
  | .integer val => if 0 ≤ val ∧ val < 2 ^ 64 then some val.toNat else none
  | _ => none

/-- `variable`: the variable that `alias` gives, and otherwise the one that is named by the id. -/
def ExpressionContext.variable (ctx : ExpressionContext) : Expression → Option ValueName
  | .identifier _ name => do (← ctx.subs.lookup ctx.currentStage name).variable name
  | .block _ _ (some result) => ctx.variable result
  | .pipelineRef _ _ name _ depthTypeexprId => do
      let depth ← inferredUsize (ctx.typeOfId depthTypeexprId)
      (← ctx.subs.lookupReferenced depth name).variable name
  | .methodCall .. | .null _ => none
  | e => some (.expr e.id)

/-! ### Operators -/

/-- `dual_binop_builder`: the operator for signed or for unsigned operands. -/
def dualBinop (sop uop : Op) : Ty → Option Op
  | .int _ => some sop
  | .uint _ => some uop
  | _ => none

/-- An expression that one can divide by: a literal that is a power of two. -/
def isPowerOfTwo : Expression → Bool
  | .intLiteral _ val _ => (List.range 128).any fun k => val == 2 ^ k
  | _ => false

/-- The operator for a binary operator, from the type of the left operand and the right operand. -/
def binaryOperator (op : BinaryOperator) (lhsTy : Ty) (rhs : Expression) : Option Op :=
  match op with
  | .add => dualBinop .add .unsignedAdd lhsTy
  | .sub => dualBinop .sub .unsignedSub lhsTy
  | .mul => dualBinop .mul .unsignedMul lhsTy
  | .eq => some .eq
  | .notEq => some .notEq
  | .gt => dualBinop .gt .unsignedGt lhsTy
  | .lt => dualBinop .lt .unsignedLt lhsTy
  | .ge => dualBinop .ge .unsignedGe lhsTy
  | .le => dualBinop .le .unsignedLe lhsTy
  | .logicalXor => some .logicalXor
  | .leftShift => some .leftShift
  | .rightShift => some .rightShift
  | .arithmeticRightShift => some .arithmeticRightShift
  | .logicalAnd => some .logicalAnd
  | .logicalOr => some .logicalOr
  | .bitwiseAnd => some .bitwiseAnd
  | .bitwiseOr => some .bitwiseOr
  | .bitwiseXor => some .bitwiseXor
  | .div => if isPowerOfTwo rhs then dualBinop .div .unsignedDiv lhsTy else none
  | .mod => if isPowerOfTwo rhs then dualBinop .mod .unsignedMod lhsTy else none

/-- The operator for a unary operator. -/
def unaryOperator : UnaryOperator → Op
  | .sub => .uSub
  | .not => .not
  | .flipPort => .flipPort
  | .bitwiseNot => .bitwiseNot
  -- A dereference or a reference only changes the type.
  | .dereference => .alias
  | .reference => .alias

/-- The index of the only member of a struct with the given name. -/
def fieldIndex (members : List (String × ConcreteType)) (field : String) : Option ℕ :=
  match (List.range members.length).filter fun i => (members.map Prod.fst)[i]? = some field with
  | [i] => some i
  | _ => none

/-! ### Lowering -/

/-- The statements for `stage.ready` and `stage.valid`: a copy of the signal of the current stage,
or a constant when there is none. -/
def stageSignal (id : ℕ) (signals : List (Option ValueName)) (currentStage : ℕ) :
    Option (List Mir.Statement) := do
  match ← signals[currentStage]? with
  | some signal =>
      some [.binding { name := .expr id, operator := .alias, operands := [signal], ty := .bool }]
  | none => some [.constant id .bool (.bool true)]

/-- The statement that binds the value of an expression. -/
def bindExpression (id : ℕ) (operator : Op) (operands : List ValueName) (ty : Ty) :
    Mir.Statement :=
  .binding { name := .expr id, operator := operator, operands := operands, ty := ty }

mutual

/-- `lower`: the statements that compute the value of an expression. -/
def ExpressionContext.lower (ctx : ExpressionContext) : Expression → Option (List Mir.Statement)
  | .identifier id _ => do
      let _ ← (ctx.typeOfId id).toMirType
      some []
  | .intLiteral id value _ => do
      let selfType ← (ctx.typeOfId id).toMirType
      some [.constant id selfType (.int value)]
  | .typeLevelInteger id name => do
      let selfType ← (ctx.typeOfId id).toMirType
      let value ← ctx.typeLevelInteger name
      some [.constant id selfType (.int value)]
  | .boolLiteral id value => do
      let selfType ← (ctx.typeOfId id).toMirType
      some [.constant id selfType (.bool value)]
  | .bitLiteral id value => do
      let selfType ← (ctx.typeOfId id).toMirType
      some [.constant id selfType
        (match value with
        | .low => .bool false
        | .high => .bool true
        | .highImp => .highImp)]
  | .binaryOperator id lhs op rhs => do
      let selfType ← (ctx.typeOfId id).toMirType
      let lhsStatements ← ctx.lower lhs
      let rhsStatements ← ctx.lower rhs
      let operator ← binaryOperator op (← (ctx.typeOfId lhs.id).toMirType) rhs
      some (lhsStatements ++ rhsStatements ++
        [bindExpression id operator [← ctx.variable lhs, ← ctx.variable rhs] selfType])
  | .unaryOperator id op operand => do
      let selfType ← (ctx.typeOfId id).toMirType
      let statements ← ctx.lower operand
      some (statements ++
        [bindExpression id (unaryOperator op) [← ctx.variable operand] selfType])
  | .tupleLiteral id elems => do
      let selfType ← (ctx.typeOfId id).toMirType
      let statements ← ctx.lowerAll elems
      some (statements ++
        [bindExpression id .constructTuple (← elems.mapM ctx.variable) selfType])
  | .tupleIndex id tup idx => do
      let selfType ← (ctx.typeOfId id).toMirType
      let statements ← ctx.lower tup
      match ← (ctx.typeOfId tup.id).toMirType with
      | .tuple types =>
          some (statements ++
            [bindExpression id (.indexTuple idx types) [← ctx.variable tup] selfType])
      | _ => none
  | .fieldAccess id target field => do
      let selfType ← (ctx.typeOfId id).toMirType
      let statements ← ctx.lower target
      match ctx.typeOfId target.id, ← (ctx.typeOfId target.id).toMirType with
      | .struct members, .struct memberTypes =>
          let index ← fieldIndex members field
          some (statements ++
            [bindExpression id (.indexTuple index (memberTypes.map Prod.snd))
              [← ctx.variable target] selfType])
      | _, _ => none
  | .arrayLiteral id elems => do
      let selfType ← (ctx.typeOfId id).toMirType
      let statements ← ctx.lowerAll elems
      some (statements ++
        [bindExpression id .constructArray (← elems.mapM ctx.variable) selfType])
  | .arrayShorthandLiteral id value amount => do
      let selfType ← (ctx.typeOfId id).toMirType
      if amount < 2 ^ 64 then
        let statements ← ctx.lower value
        some (statements ++
          [bindExpression id .constructArray
            (← (List.replicate amount value).mapM ctx.variable) selfType])
      else none
  | .index id target index => do
      let selfType ← (ctx.typeOfId id).toMirType
      let targetStatements ← ctx.lower target
      let indexStatements ← ctx.lower index
      some (targetStatements ++ indexStatements ++
        [bindExpression id .indexArray [← ctx.variable target, ← ctx.variable index] selfType])
  | .rangeIndex id target start endExclusive => do
      let selfType ← (ctx.typeOfId id).toMirType
      let statements ← ctx.lower target
      match ctx.typeOfId target.id with
      | .array _ size =>
          if (start : ℤ) < size ∧ (endExclusive : ℤ) ≤ size then
            some (statements ++
              [bindExpression id (.rangeIndexArray start endExclusive)
                [← ctx.variable target] selfType])
          else none
      | _ => none
  | .if_ id cond onTrue onFalse => do
      let selfType ← (ctx.typeOfId id).toMirType
      let condStatements ← ctx.lower cond
      let trueStatements ← ctx.lower onTrue
      let falseStatements ← ctx.lower onFalse
      some (condStatements ++ trueStatements ++ falseStatements ++
        [bindExpression id .select
          [← ctx.variable cond, ← ctx.variable onTrue, ← ctx.variable onFalse] selfType])
  | .pipelineRef id _ _ _ _ => do
      let _ ← (ctx.typeOfId id).toMirType
      some []
  | .stageReady id => do
      let _ ← (ctx.typeOfId id).toMirType
      stageSignal id (← ctx.pipelineContext).readySignals ctx.currentStage
  | .stageValid id => do
      let _ ← (ctx.typeOfId id).toMirType
      stageSignal id (← ctx.pipelineContext).validSignals ctx.currentStage
  | .methodCall .. => none
  | .null _ => none
  | e => ctx.lowerRuntime ctx.subs ctx.currentStage e

/-- The statements for several expressions, in order. -/
def ExpressionContext.lowerAll (ctx : ExpressionContext) :
    List Expression → Option (List Mir.Statement)
  | [] => some []
  | e :: es => do some ((← ctx.lower e) ++ (← ctx.lowerAll es))

end

end Spade.HirLowering

import Spade.Hir.Expression
import Spade.Typeinference.Solutions

/-!
# Stages of pipelines in type inference

What type inference does for the stages of a pipeline, from `spade-typeinference/src/lib.rs`,
`expression.rs` and `requirements.rs`: it counts the stages at the type level while it walks over
the body, gives every label the stage it stands in and every reference the stage it goes to, and
checks the depths. `monomorphise` is what `compile_items` of
`spade-hir-lowering/src/monomorphisation.rs` does to the result for an instantiation.

The rules for everything else are a parameter. They are computations whose last state follows the
first one: whatever they unify, add or check, they change no stage.
-/

namespace Spade.Typeinference

open Hir Lib.StateExcept

/-! ### Walking over the body -/

/-- A computation that does not change the stage of the pipeline. -/
structure Rule (ctx : Context) where
  run : Infer Unit
  follows : ∀ (σ : ℕ → Option ℤ) ⦃s t : TypeState⦄, Ends run s () t → Follows ctx σ s t

/-- What inference does for everything but stages: before it visits the part of an expression or a
statement with an index, or after the last one, and for a unit. -/
structure Rules (ctx : Context) where
  expression : GenericListToken → Expression → ℕ → Rule ctx
  statement : GenericListToken → Statement → ℕ → Rule ctx
  unit : ℕ → Rule ctx
  /-- Whether the method call with an id has named arguments. Then `self` is the last one. -/
  namedArguments : ℕ → Bool

/-- What is done on the way. -/
inductive InferenceStep where
  /-- A type for an expression, at the start of `visit_expression`. -/
  | enter (id : ℕ)
  | expression (token : GenericListToken) (e : Expression) (part : ℕ)
  | statement (token : GenericListToken) (s : Statement) (part : ℕ)
  | pipelineRef (token : GenericListToken) (id : ℕ) (stage : PipelineRefKind) (name : NameID)
      (declaresName : Bool) (depthTypeexprId : ℕ)
  | regMarker (token : GenericListToken) (extra : Option PipelineRegMarkerExtra)
  | label (name : NameID)

section steps

variable (named : ℕ → Bool)

/- The steps of `visit_expression`, `visit_statement` and `visit_block`, in their order. The
arguments of a call are visited with the generic list of the call. -/
mutual

/-- The steps of `visit_expression`. -/
def expressionSteps (token : GenericListToken) : Expression → List InferenceStep
  | .identifier id name => [.enter id, .expression token (.identifier id name) 0]
  | .intLiteral id value kind => [.enter id, .expression token (.intLiteral id value kind) 0]
  | .boolLiteral id value => [.enter id, .expression token (.boolLiteral id value) 0]
  | .bitLiteral id value => [.enter id, .expression token (.bitLiteral id value) 0]
  | .typeLevelInteger id name => [.enter id, .expression token (.typeLevelInteger id name) 0]
  | .createPorts id => [.enter id, .expression token (.createPorts id) 0]
  | .tupleLiteral id elems => .enter id :: partSteps token (.tupleLiteral id elems) 0 elems
  | .arrayLiteral id elems => .enter id :: partSteps token (.arrayLiteral id elems) 0 elems
  | .arrayShorthandLiteral id value amount =>
      .enter id :: expressionSteps token value ++
        [.expression token (.arrayShorthandLiteral id value amount) 0]
  | .index id target index =>
      .enter id :: expressionSteps token target ++ expressionSteps token index ++
        [.expression token (.index id target index) 0]
  | .rangeIndex id target start endExclusive =>
      .enter id :: expressionSteps token target ++
        [.expression token (.rangeIndex id target start endExclusive) 0]
  | .tupleIndex id target idx =>
      .enter id :: expressionSteps token target ++ [.expression token (.tupleIndex id target idx) 0]
  | .fieldAccess id target field =>
      .enter id :: expressionSteps token target ++
        [.expression token (.fieldAccess id target field) 0]
  | .methodCall id target name args callKind =>
      let parent := .methodCall id target name args callKind
      if named id then
        .enter id :: partSteps token parent 0 args ++ expressionSteps token target ++
          [.expression token parent (args.length + 1)]
      else .enter id :: expressionSteps token target ++ partSteps token parent 0 args
  | .call id kind callee args =>
      .enter id :: .expression token (.call id kind callee args) 0 ::
        partSteps (.expression id) (.call id kind callee args) 1 args
  | .binaryOperator id lhs op rhs =>
      .enter id :: expressionSteps token lhs ++ expressionSteps token rhs ++
        [.expression token (.binaryOperator id lhs op rhs) 0]
  | .unaryOperator id op operand =>
      .enter id :: expressionSteps token operand ++
        [.expression token (.unaryOperator id op operand) 0]
  | .match_ id operand branches =>
      .enter id :: expressionSteps token operand ++
        branchSteps token (.match_ id operand branches) 0 branches
  | .block id statements result =>
      .enter id :: statementsSteps token statements ++ optionSteps token result ++
        [.expression token (.block id statements result) 0]
  | .if_ id cond onTrue onFalse =>
      .enter id :: expressionSteps token cond ++ expressionSteps token onTrue ++
        expressionSteps token onFalse ++ [.expression token (.if_ id cond onTrue onFalse) 0]
  | .pipelineRef id stage name declaresName depthTypeexprId =>
      [.enter id, .pipelineRef token id stage name declaresName depthTypeexprId]
  | .stageValid id => [.enter id, .expression token (.stageValid id) 0]
  | .stageReady id => [.enter id, .expression token (.stageReady id) 0]
  | .null id => [.enter id]

/-- The steps for the parts of an expression from an index on. -/
def partSteps (token : GenericListToken) (parent : Expression) (part : ℕ) :
    List Expression → List InferenceStep
  | [] => [.expression token parent part]
  | e :: es =>
      .expression token parent part :: expressionSteps token e ++
        partSteps token parent (part + 1) es

/-- The steps for the branches of a match, where the pattern of a branch is visited first. -/
def branchSteps (token : GenericListToken) (parent : Expression) (part : ℕ) :
    List (Pattern × Expression) → List InferenceStep
  | [] => [.expression token parent part]
  | (_, e) :: branches =>
      .expression token parent part :: expressionSteps token e ++
        branchSteps token parent (part + 1) branches

def optionSteps (token : GenericListToken) : Option Expression → List InferenceStep
  | none => []
  | some e => expressionSteps token e

/-- The steps of `visit_statement`. -/
def statementSteps (token : GenericListToken) : Statement → List InferenceStep
  | .binding pattern value none =>
      expressionSteps token value ++ [.statement token (.binding pattern value none) 0]
  | .binding pattern value (some (clk, rst)) =>
      let s := .binding pattern value (some (clk, rst))
      expressionSteps token value ++ .statement token s 0 :: optionSteps token clk ++
        .statement token s 1 :: optionSteps token rst ++ [.statement token s 2]
  | .register pattern clock none initial value =>
      let s := .register pattern clock none initial value
      .statement token s 0 :: expressionSteps token clock ++ expressionSteps token value ++
        .statement token s 1 :: optionSteps token initial ++ [.statement token s 2]
  | .register pattern clock (some (trig, reset)) initial value =>
      let s := .register pattern clock (some (trig, reset)) initial value
      .statement token s 0 :: expressionSteps token clock ++ expressionSteps token value ++
        .statement token s 1 :: expressionSteps token trig ++ expressionSteps token reset ++
          .statement token s 2 :: optionSteps token initial ++ [.statement token s 3]
  | .declaration names => [.statement token (.declaration names) 0]
  | .pipelineRegMarker (some (.condition cond)) =>
      expressionSteps token cond ++
        [.statement token (.pipelineRegMarker (some (.condition cond))) 0,
          .regMarker token (some (.condition cond))]
  | .pipelineRegMarker (some (.count count countTypeexprId)) =>
      [.regMarker token (some (.count count countTypeexprId))]
  | .pipelineRegMarker none => [.regMarker token none]
  | .label name => [.label name]
  | .assert value =>
      expressionSteps token value ++ [.statement token (.assert value) 0]
  | .set target value =>
      expressionSteps token target ++ expressionSteps token value ++
        [.statement token (.set target value) 0]
  | .walSuffixed _ _ => []

def statementsSteps (token : GenericListToken) : List Statement → List InferenceStep
  | [] => []
  | s :: statements => statementSteps token s ++ statementsSteps token statements

end

end steps

/-! ### What is done on the way -/

/-- `get_pipeline_state`, with an internal error where there is none. -/
def getPipelineState : Infer PipelineState := do
  match (← get).pipelineState with
  | some p => pure p
  | none => throw .panic

/-- A result that is unwrapped: its errors are panics. -/
def unwrap {α : Type} (x : Infer α) : Infer α := fun s =>
  match x s with
  | .ok r => .ok r
  | .error .outOfFuel => .error .outOfFuel
  | .error _ => .error .panic

/-- The variable for the stage of a label, which may have been referenced before. -/
def labelVar (name : NameID) : Infer TypeVar := do
  match (← get).equations (.name name) with
  | some var => pure var
  | none => do
      let var ← newGenericTlint
      addEquation (.name name) var
      pure var

section visit

variable (ctx : Context) (fuel : ℕ) (rules : Rules ctx)

/-- The stage that a reference goes to, relative to the current one or by its label. -/
def referencedStage (token : GenericListToken) (depth : TypeVar) : PipelineRefKind → Infer TypeVar
  | .absolute label => do
      let var ← labelVar label
      unwrap (unify ctx fuel (.type depth) (.type var))
  | .relative offset => do
      let exprVar ← inferTypeExpr token offset
      let totalOffset ← newGenericTlint
      let p ← getPipelineState
      addConstraint totalOffset (.sum (.var exprVar) (.var p.currentStageDepth))
      unwrap (unify ctx fuel (.type depth) (.type totalOffset))

/-- `visit_pipeline_ref`. -/
def visitPipelineRef (token : GenericListToken) (id : ℕ) (stage : PipelineRefKind) (name : NameID)
    (declaresName : Bool) (depthTypeexprId : ℕ) : Infer Unit := do
  if declaresName then do
    let newVar ← newGenericWithTraits []
    addEquation (.name name) newVar
  let depth ← newGenericTlint
  addEquation (.id depthTypeexprId) depth
  let depth ← referencedStage ctx fuel token depth stage
  let p ← getPipelineState
  addRequirement (.validPipelineOffset p.totalDepth p.currentStageDepth depth)
  let _ ← unify ctx fuel (.typed (.id id)) (.typed (.name name))

/-- How many stages a `reg` statement is, as a type. -/
def regOffset (token : GenericListToken) : Option PipelineRegMarkerExtra → Infer TypeVar
  | some (.count count countTypeexprId) => do
      let var ← inferTypeExpr token count
      addEquation (.id countTypeexprId) var
      pure var
  | _ => pure (.known (.integer 1) [])

/-- `visit_statement` for a `reg` statement, after its condition. -/
def visitRegMarker (token : GenericListToken) (extra : Option PipelineRegMarkerExtra) :
    Infer Unit := do
  let p ← getPipelineState
  let newDepth ← newGenericTlint
  let offset ← regOffset token extra
  modify fun s =>
    { s with pipelineState := s.pipelineState.map ({ · with currentStageDepth := newDepth }) }
  addConstraint newDepth (.sum (.var offset) (.var p.currentStageDepth))

/-- `visit_statement` for a label. -/
def visitLabel (name : NameID) : Infer Unit := do
  let var ← labelVar name
  let p ← getPipelineState
  let _ ← unwrap (unify ctx fuel (.type var) (.type p.currentStageDepth))

/-- A step. -/
def perform : InferenceStep → Infer Unit
  | .enter id => do
      let newType ← newGenericWithTraits []
      addEquation (.id id) newType
  | .expression token e part => (rules.expression token e part).run
  | .statement token s part => (rules.statement token s part).run
  | .pipelineRef token id stage name declaresName depthTypeexprId =>
      visitPipelineRef ctx fuel token id stage name declaresName depthTypeexprId
  | .regMarker token extra => visitRegMarker token extra
  | .label name => visitLabel ctx fuel name

/-- A pipeline, as far as its stages are concerned. -/
structure PipelineUnit where
  token : GenericListToken
  depth : TypeExpression
  depthTypeexprId : ℕ
  bodyId : ℕ
  statements : List Statement
  result : Option Expression

/-- The body of a pipeline is a block. -/
def PipelineUnit.body (pipeline : PipelineUnit) : Expression :=
  .block pipeline.bodyId pipeline.statements pipeline.result

end visit

end Spade.Typeinference

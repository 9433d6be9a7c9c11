import Spade.HirLowering.Expressions

/-!
# Variables in the stages of a pipeline

The two passes over the body of a pipeline, as far as they look up variables: `lower_pipeline`
builds the table of substitutions and lowers the conditions of the `reg` statements on the way,
and `StatementLocal::lower` lowers the statements afterwards with the finished table. Before them,
`flatten_regs.rs` replaces repeated `reg` statements by single ones.

The parser accepts `reg` statements in the root block of a pipeline only, so the stage that the
second pass is in changes between the statements of the body, never inside of one.
-/

namespace Spade.Hir

/-- A variable that is looked up in the substitutions: an identifier in the current stage, or a
reference to another stage. -/
inductive Lookup where
  | identifier (name : NameID)
  | reference (stage : PipelineRefKind) (name : NameID) (depthTypeexprId : ℕ)

/- The variables that `lower` looks up in an expression, one function for every container the
recursion goes through. -/
mutual

/-- The variables that are looked up when an expression is lowered. -/
def Expression.lookups : Expression → List Lookup
  | .identifier _ name => [.identifier name]
  | .pipelineRef _ stage name _ depthTypeexprId => [.reference stage name depthTypeexprId]
  | .intLiteral .. | .boolLiteral .. | .bitLiteral .. | .typeLevelInteger .. | .createPorts _
  | .stageValid _ | .stageReady _ | .null _ => []
  | .tupleLiteral _ elems | .arrayLiteral _ elems => lookupsAll elems
  | .arrayShorthandLiteral _ e _ | .rangeIndex _ e _ _ | .tupleIndex _ e _ | .fieldAccess _ e _
  | .unaryOperator _ _ e => e.lookups
  | .index _ e e' | .binaryOperator _ e _ e' => e.lookups ++ e'.lookups
  | .methodCall _ target _ args _ => target.lookups ++ lookupsAll args
  | .call _ _ _ args => lookupsAll args
  | .match_ _ operand branches => operand.lookups ++ lookupsBranches branches
  | .block _ statements result => lookupsStatements statements ++ lookupsOption result
  | .if_ _ cond onTrue onFalse => cond.lookups ++ onTrue.lookups ++ onFalse.lookups

def lookupsAll : List Expression → List Lookup
  | [] => []
  | e :: es => e.lookups ++ lookupsAll es

def lookupsBranches : List (Pattern × Expression) → List Lookup
  | [] => []
  | (_, e) :: branches => e.lookups ++ lookupsBranches branches

def lookupsOption : Option Expression → List Lookup
  | none => []
  | some e => e.lookups

/-- The variables that are looked up when a statement is lowered. The condition of a `reg`
statement is not lowered with the statement. -/
def Statement.lookups : Statement → List Lookup
  | .binding _ value none => value.lookups
  | .binding _ value (some (clk, rst)) => value.lookups ++ lookupsOption clk ++ lookupsOption rst
  | .register _ clock none initial value =>
      clock.lookups ++ lookupsOption initial ++ value.lookups
  | .register _ clock (some (trig, reset)) initial value =>
      clock.lookups ++ trig.lookups ++ reset.lookups ++ lookupsOption initial ++ value.lookups
  | .assert value => value.lookups
  | .set target value => target.lookups ++ value.lookups
  | .declaration _ | .pipelineRegMarker _ | .label _ | .walSuffixed _ _ => []

def lookupsStatements : List Statement → List Lookup
  | [] => []
  | s :: statements => s.lookups ++ lookupsStatements statements

end

/-- The variables that are looked up when the condition of a `reg` statement is lowered. -/
def Statement.conditionLookups : Statement → List Lookup
  | .pipelineRegMarker (some (.condition cond)) => cond.lookups
  | _ => []

/-- Whether a statement ends a stage. -/
def Statement.isRegMarker : Statement → Bool
  | .pipelineRegMarker _ => true
  | _ => false

/-- The number of `reg` statements. -/
def regCount (statements : List Statement) : ℕ := statements.countP Statement.isRegMarker

/-- The variables that a statement binds, with the value that is bound. -/
def Statement.bound : Statement → Option (List NameID × Expression)
  | .binding pattern value _ => some (pattern.names, value)
  | .register pattern _ _ _ value => some (pattern.names, value)
  | _ => none

end Spade.Hir

namespace Spade.HirLowering

open Hir

/-! ### Repeated `reg` statements -/

/-- The availability that several expressions have in common. -/
def commonAvailability : List ℕ → Option ℕ
  | [] => some 0
  | a :: as => if as.all (· == a) then some a else none

mutual

/-- `available_in`: in how many cycles the value of an expression is available. -/
def availableIn (typeOfId : ℕ → ConcreteType) : Expression → Option ℕ
  | .identifier .. | .intLiteral .. | .typeLevelInteger .. | .boolLiteral .. | .bitLiteral ..
  | .createPorts _ | .stageReady _ | .stageValid _ | .pipelineRef .. => some 0
  | .tupleLiteral _ inner | .arrayLiteral _ inner => do
      commonAvailability (← availabilities typeOfId inner)
  | .arrayShorthandLiteral _ inner _ | .rangeIndex _ inner _ _ | .tupleIndex _ inner _
  | .fieldAccess _ inner _ | .unaryOperator _ _ inner => availableIn typeOfId inner
  | .index _ lhs rhs | .binaryOperator _ lhs _ rhs | .if_ _ _ lhs rhs => do
      commonAvailability [← availableIn typeOfId lhs, ← availableIn typeOfId rhs]
  | .match_ _ _ branches => do commonAvailability (← branchAvailabilities typeOfId branches)
  | .block _ _ none => some 0
  | .block _ _ (some result) => availableIn typeOfId result
  | .call _ (.pipeline _ depthTypeexprId) _ _ => inferredUsize (typeOfId depthTypeexprId)
  | .call .. => some 0
  | .methodCall .. | .null _ => none

def availabilities (typeOfId : ℕ → ConcreteType) : List Expression → Option (List ℕ)
  | [] => some []
  | e :: es => do some ((← availableIn typeOfId e) :: (← availabilities typeOfId es))

def branchAvailabilities (typeOfId : ℕ → ConcreteType) :
    List (Pattern × Expression) → Option (List ℕ)
  | [] => some []
  | (_, e) :: branches => do
      some ((← availableIn typeOfId e) :: (← branchAvailabilities typeOfId branches))

end

/-! ### The two passes -/

/-- What the lowering of a pipeline knows about types. -/
structure PipelineTypes where
  /-- `type_of_id`. -/
  typeOfId : ℕ → ConcreteType
  /-- `name_type`. -/
  nameType : NameID → VariableType

/-- A variable that is looked up: the table of substitutions at that moment, the stage whose
substitutions are used, and the number of `reg` statements before the expression. -/
structure Site where
  subs : Substitutions
  currentStage : ℕ
  stage : ℕ
  lookup : Lookup

/-- What the first pass leaves behind: the variables that the conditions look up, the registers
that every `reg` statement inserts, and the substitutions. -/
structure FirstPass where
  sites : List Site
  registers : List (List SubRegister)
  subs : Substitutions

/-- `handle_statement`, as far as the substitutions are concerned, with the next id of the symbol
table. The result lists the registers to insert. -/
def handleSubs (ctx : PipelineTypes) (s : Statement) (subs : Substitutions) (next : ℕ) :
    Option (Substitutions × List SubRegister × ℕ) :=
  match s with
  | .binding pattern value _ | .register pattern _ _ _ value => do
      let time ← availableIn ctx.typeOfId value
      some (pattern.names.foldl
        (fun subs name => subs.setAvailable name time (ctx.nameType name)) subs, [], next)
  | .declaration _ => none
  | .pipelineRegMarker (some (.count _ _)) => none
  | .pipelineRegMarker _ => subs.nextStage next
  | .label _ | .assert _ | .set _ _ | .walSuffixed _ _ => some (subs, [], next)

/-- The loop of `lower_pipeline` over the body. The stage of the context is the first one all the
time: only the second pass changes it. -/
def firstPass (ctx : PipelineTypes) : List Statement → ℕ → Substitutions → ℕ → Option FirstPass
  | [], _, subs, _ => some ⟨[], [], subs⟩
  | s :: statements, stage, subs, next => do
      let (subs', registers, next) ← handleSubs ctx s subs next
      let stage' := if s.isRegMarker then stage + 1 else stage
      let rest ← firstPass ctx statements stage' subs' next
      some
        { sites := s.conditionLookups.map (⟨subs, 0, stage, ·⟩) ++ rest.sites
          registers := (if s.isRegMarker then [registers] else []) ++ rest.registers
          subs := rest.subs }

/-- The substitutions of the inputs. -/
def inputSubs (ctx : PipelineTypes) (inputs : List NameID) : Substitutions :=
  inputs.foldl (fun subs name => subs.setAvailable name 0 (ctx.nameType name)) .new

/-- The variables that the second pass looks up in the body and in its result, where
`currentStage` is the stage of the context, which every `reg` statement increments. -/
def secondPass (subs : Substitutions) (result : Option Expression) :
    List Statement → ℕ → ℕ → List Site
  | [], currentStage, stage => (lookupsOption result).map (⟨subs, currentStage, stage, ·⟩)
  | s :: statements, currentStage, stage =>
      s.lookups.map (⟨subs, currentStage, stage, ·⟩) ++
        if s.isRegMarker then secondPass subs result statements (currentStage + 1) (stage + 1)
        else secondPass subs result statements currentStage stage

end Spade.HirLowering

import Spade.HirLowering.Types
import Mathlib.Logic.Function.Basic

/-!
# Lowering of pipelines

The statements that `spade-hir-lowering/src/pipelines.rs` and `substitution.rs` generate for the
stages of a pipeline: a register for every variable that is live at a `reg` statement, the enable
signals that let a stage wait for a condition, and the valid signals that tell which stages hold
data.

The lowering of conditions and of the expressions of the body is a parameter: a condition is given
as its lowered statements and the variable of its value. The table that maps generated names back
to the names of the source program is left out, since only diagnostics read it. A step is `none`
where the source panics or reports a diagnostic.
-/

namespace Spade.HirLowering

open Spade.Mir

/-- What `ctx.types` knows about a variable. -/
structure VariableType where
  isPort : Bool
  mirType : Ty

/-- The id trackers of the symbol table and of the expressions. -/
structure Ids where
  name : ℕ
  expr : ℕ

/-! ### Substitutions -/

/-- `Substitution`: the name of a variable in a stage. A variable without an entry in the table is
`Undefined`. -/
inductive Substitution where
  /-- The value is available in `time` more cycles. -/
  | waiting (time : ℕ) (name : NameID)
  | available (name : NameID)
  /-- Ports are not registered and always available. -/
  | port
  | zeroSized

/-- `SubRegister`. -/
structure SubRegister where
  original : NameID
  previous : NameID
  new : NameID

/-- The substitutions in one stage. -/
abbrev Scope := NameID → Option Substitution

/-- `Substitutions`: the scopes of the stages before the current one, the scope of the current
stage, and the variables that have been made available so far. -/
structure Substitutions where
  past : List Scope
  last : Scope
  liveVars : List NameID

/-- `Substitutions::new`. -/
def Substitutions.new : Substitutions := ⟨[], fun _ => none, []⟩

/-- `Substitutions::set_available`. -/
def Substitutions.setAvailable (subs : Substitutions) (name : NameID) (time : ℕ)
    (ty : VariableType) : Substitutions :=
  let availability : Substitution :=
    if ty.isPort then .port
    else if ty.mirType.size = 0 then .zeroSized
    else if time = 0 then .available name
    else .waiting time name
  { subs with
    last := Function.update subs.last name (some availability)
    liveVars := subs.liveVars ++ [name] }

/-- `Substitutions::lookup_referenced`: a variable in a given stage. -/
def Substitutions.lookupReferenced (subs : Substitutions) (stage : ℕ) (name : NameID) :
    Option Substitution :=
  (subs.past ++ [subs.last])[stage]?.bind fun scope => scope name

/-- The body of the loop of `Substitutions::next_stage`: the substitution of one variable in the
new stage, and the register that carries its value there. -/
def nextSub (stageNum : ℕ) (original : NameID) (next : ℕ) :
    Substitution → Substitution × Option SubRegister × ℕ
  | .waiting 1 name => (.available name, none, next)
  | .waiting time name => (.waiting (time - 1) name, none, next)
  | .available previous =>
      let new : NameID := ⟨next, "s" ++ toString stageNum ++ "_" ++ original.tail⟩
      (.available new, some ⟨original, previous, new⟩, next + 1)
  | .port => (.port, none, next)
  | .zeroSized => (.zeroSized, none, next)

/-- The loop of `Substitutions::next_stage` over the live variables. -/
def nextScope (stageNum : ℕ) (last : Scope) :
    List NameID → Scope → List SubRegister → ℕ → Option (Scope × List SubRegister × ℕ)
  | [], newSubs, result, next => some (newSubs, result, next)
  | original :: vars, newSubs, result, next => do
      let (sub, reg, next) := nextSub stageNum original next (← last original)
      nextScope stageNum last vars (Function.update newSubs original (some sub))
        (result ++ reg.toList) next

/-- `Substitutions::next_stage`: advance to the next stage. The result lists the registers to
insert. -/
def Substitutions.nextStage (subs : Substitutions) (next : ℕ) :
    Option (Substitutions × List SubRegister × ℕ) := do
  let (newSubs, result, next) ←
    nextScope (subs.past.length + 1) subs.last subs.liveVars (fun _ => none) [] next
  some ({ subs with past := subs.past ++ [subs.last], last := newSubs }, result, next)

/-! ### Constant folding -/

/-- `MaybeConst`. -/
inductive MaybeConst where
  | val (name : ValueName)
  | const (value : Bool)

/-- `or_const_true`. -/
def orConstTrue : Option ValueName → MaybeConst
  | some v => .val v
  | none => .const true

/-- `MaybeConst::to_value_name`: the name, the generated statements and the next expression id. -/
def MaybeConst.toValueName (next : ℕ) : MaybeConst → ValueName × List Statement × ℕ
  | .val n => (n, [], next)
  | .const v => (.expr next, [.constant next .bool (.bool v)], next + 1)

/-- A binding of a boolean. -/
def boolBinding (name : ValueName) (operator : Op) (operands : List ValueName) : Statement :=
  .binding { name, operator, operands, ty := .bool }

/-- `constexpr_and`. -/
def constexprAnd (l r : MaybeConst) (next : ℕ) : MaybeConst × List Statement × ℕ :=
  match l, r with
  | .val l, .val r =>
      (.val (.expr next), [boolBinding (.expr next) .logicalAnd [l, r]], next + 1)
  | .const false, _ => (.const false, [], next)
  | _, .const false => (.const false, [], next)
  | l, .const true => (l, [], next)
  | .const true, r => (r, [], next)

/-- `constexpr_select`. -/
def constexprSelect (onTrue onFalse select : MaybeConst) (next : ℕ) :
    MaybeConst × List Statement × ℕ :=
  match select with
  | .val sel =>
      let newName := ValueName.expr next
      let (t, tStatements, next) := onTrue.toValueName (next + 1)
      let (f, fStatements, next) := onFalse.toValueName next
      (.val newName,
        tStatements ++ fStatements ++ [boolBinding newName .select [sel, t, f]], next)
  | .const true => (onTrue, [], next)
  | .const false => (onFalse, [], next)

/-- `constexpr_inv`. -/
def constexprInv (input : MaybeConst) (next : ℕ) : MaybeConst × List Statement × ℕ :=
  match input with
  | .val name => (.val (.expr next), [boolBinding (.expr next) .not [name]], next + 1)
  | .const true => (.const false, [], next)
  | .const false => (.const true, [], next)

/-! ### The body of a pipeline -/

/-- A statement of the body, as far as the lowering of the pipeline looks at it. -/
inductive BodyStatement where
  /-- A binding or a register: the names of its pattern and the time its value is available. -/
  | bind (time : ℕ) (names : List NameID)
  /-- `PipelineRegMarker`, with the lowered statements and the variable of its condition. -/
  | regMarker (cond : Option (List Statement × ValueName))
  /-- A `PipelineRegMarker` with a count, which should have been lowered before. -/
  | regMarkerCount
  | declaration
  /-- Labels, assertions, wal suffixes and sets. -/
  | other

/-- The conditions of the `reg` statements of a body, in order. -/
def regMarkers (body : List BodyStatement) : List (Option ValueName) :=
  body.filterMap fun
    | .regMarker cond => some (cond.map Prod.snd)
    | _ => none

/-- What `handle_statement` changes. -/
structure StageState where
  subs : Substitutions
  ids : Ids
  statements : List Statement
  localConds : List (Option ValueName)
  currentStage : ℕ

/-- The statements for one pipeline register: with an enable signal, a mux that selects the
previous value of the register when the stage does not move. -/
def pipelineRegister (types : NameID → VariableType) (clock : ValueName)
    (enable : Option ValueName) (reg : SubRegister) (next : ℕ) : List Statement × ℕ :=
  let regType := (types reg.original).mirType
  let register (value : ValueName) : Statement :=
    .register
      { name := reg.new.valueName
        ty := regType
        clock := clock
        reset := none
        initial := none
        value := value
        traced := none }
  match enable with
  | some enable =>
      ([.binding
          { name := .expr next
            operator := .select
            operands := [enable, reg.previous.valueName, reg.new.valueName]
            ty := regType },
        register (.expr next)], next + 1)
  | none => ([register reg.previous.valueName], next)

/-- The statements for the registers of a stage. -/
def pipelineRegisters (types : NameID → VariableType) (clock : ValueName)
    (enable : Option ValueName) : List SubRegister → ℕ → List Statement × ℕ
  | [], next => ([], next)
  | reg :: regs, next =>
      let (head, next) := pipelineRegister types clock enable reg next
      let (tail, next) := pipelineRegisters types clock enable regs next
      (head ++ tail, next)

/-- `handle_statement`. -/
def handleStatement (types : NameID → VariableType) (clock : ValueName)
    (stageEnableNames : List (Option ValueName)) (s : BodyStatement) (st : StageState) :
    Option StageState :=
  match s with
  | .bind time names =>
      some { st with
        subs := names.foldl (fun subs name => subs.setAvailable name time (types name)) st.subs }
  | .regMarker cond => do
      let (subs, regs, nextName) ← st.subs.nextStage st.ids.name
      let enable ← stageEnableNames[st.currentStage]?
      let (regStatements, nextExpr) := pipelineRegisters types clock enable regs st.ids.expr
      some
        { subs := subs
          ids := ⟨nextName, nextExpr⟩
          statements := st.statements ++ (cond.map Prod.fst).getD [] ++ regStatements
          localConds := st.localConds ++ [cond.map Prod.snd]
          currentStage := st.currentStage + 1 }
  | .regMarkerCount => none
  | .declaration => none
  | .other => some st

/-- The loop of `lower_pipeline` over the body. -/
def handleStatements (types : NameID → VariableType) (clock : ValueName)
    (stageEnableNames : List (Option ValueName)) : List BodyStatement → StageState →
    Option StageState
  | [], st => some st
  | s :: body, st => do
      handleStatements types clock stageEnableNames body
        (← handleStatement types clock stageEnableNames s st)

/-- The name of the signal `suffix` of a stage, with the next id of the symbol table. -/
def signalName (stage : ℕ) (suffix : String) (next : ℕ) : ValueName :=
  NameID.valueName ⟨next, "#s" ++ toString stage ++ suffix⟩

/-! ### Enable signals -/

/-- The names of the enable signals, allocated from the last stage on. Once the last `reg` with a
condition is encountered, it and all stages before it have one. -/
def stageEnableNames (numStages : ℕ) : List (Option ValueName) → ℕ →
    List (Option ValueName) × Bool × ℕ
  | [], next => ([], false, next)
  | cond :: conds, next =>
      let (names, hasEnable, next) := stageEnableNames numStages conds next
      if hasEnable || cond.isSome then
        (some (signalName (numStages - names.length) "_enable" next) :: names, true, next + 1)
      else (none :: names, hasEnable, next)

/-- The loop of `lower_pipeline` that generates the enable signals, from the last stage on: the
current enable signal and the statements. -/
def enableSignals : List (Option ValueName × Option ValueName) →
    Option (Option ValueName × List Statement)
  | [] => some (none, [])
  | (localCond, enableName) :: stages => do
      let (currentEnable, statements) ← enableSignals stages
      match localCond, currentEnable with
      | some cond, none => do
          let name ← enableName
          some (some name, statements ++ [boolBinding name .alias [cond]])
      | none, some prev => do
          let name ← enableName
          some (some name, statements ++ [boolBinding name .alias [prev]])
      | some cond, some prev => do
          let name ← enableName
          some (some name, statements ++ [boolBinding name .logicalAnd [cond, prev]])
      | none, none => some (none, statements)

/-! ### Valid signals -/

/-- The next value of the valid signal `validName` of a stage: it takes the one of the previous
stage when this one is selected, and becomes false when only this stage stalls. -/
def validNext (prevValid validSelect downstreamEnable localCond : Option ValueName)
    (validName : ValueName) (next : ℕ) : MaybeConst × List Statement × ℕ :=
  let (validMux, s₁, next) :=
    constexprSelect (orConstTrue prevValid) (.val validName) (orConstTrue validSelect) next
  let (localCondInv, s₂, next) := constexprInv (orConstTrue localCond) next
  let (stallHere, s₃, next) := constexprAnd localCondInv (orConstTrue downstreamEnable) next
  let (stallHereInv, s₄, next) := constexprInv stallHere next
  let (validNext, s₅, next) := constexprAnd validMux stallHereInv next
  (validNext, s₁ ++ s₂ ++ s₃ ++ s₄ ++ s₅, next)

/-- The loop of `lower_pipeline` that generates the valid signals, from stage `i` on. -/
def validSignals (clock : ValueName) (readySignals : List (Option ValueName)) :
    List (Option ValueName) → ℕ → Option ValueName → Ids →
    Option (List (Option ValueName) × List Statement × Ids)
  | [], _, _, ids => some ([], [], ids)
  | localCond :: localConds, i, prevValid, ids => do
      let validName := signalName (i + 1) "_valid" ids.name
      let (next, statements, nextExpr) := validNext prevValid (readySignals[i]?.join)
        (readySignals[i + 1]?.join) localCond validName ids.expr
      let ids := ⟨ids.name + 1, nextExpr⟩
      match next with
      | .val next => do
          let register : Statement :=
            .register
              { name := validName
                ty := .bool
                clock := clock
                reset := none
                initial := none
                value := next
                traced := none }
          let (signals, rest, ids) ←
            validSignals clock readySignals localConds (i + 1) (some validName) ids
          some (some validName :: signals, statements ++ [register] ++ rest, ids)
      | .const true => do
          let (signals, rest, ids) ←
            validSignals clock readySignals localConds (i + 1) prevValid ids
          some (none :: signals, statements ++ rest, ids)
      | .const false => none

/-! ### Pipelines -/

/-- What `lower_pipeline` leaves behind: the statements, the `PipelineContext` with the ready and
valid signals of every stage, and the substitutions. -/
structure LoweredPipeline where
  statements : List Statement
  readySignals : List (Option ValueName)
  validSignals : List (Option ValueName)
  subs : Substitutions

/-- `lower_pipeline`. The first input is the clock. -/
def lowerPipeline (types : NameID → VariableType) (inputs : List NameID)
    (body : List BodyStatement) (ids : Ids) : Option LoweredPipeline := do
  let clock := (← inputs.head?).valueName
  let subs := inputs.foldl (fun subs name => subs.setAvailable name 0 (types name))
    Substitutions.new
  let conds := regMarkers body
  let (enableNames, _, nextName) := stageEnableNames conds.length conds ids.name
  let st ← handleStatements types clock enableNames body ⟨subs, ⟨nextName, ids.expr⟩, [], [], 0⟩
  let (_, enables) ← enableSignals (st.localConds.zip enableNames)
  let readySignals := enableNames ++ [none]
  let (valids, validStatements, _) ←
    validSignals clock readySignals st.localConds 0 none st.ids
  some
    { statements := st.statements ++ enables ++ validStatements
      readySignals := readySignals
      validSignals := none :: valids
      subs := st.subs }

end Spade.HirLowering

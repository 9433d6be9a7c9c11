import Spade.Typeinference.TypeVar
import Spade.Hir.TypeSpec
import Spade.Lib.StateExcept

/-!
# The state of type inference

`TypeState` of `spade-typeinference/src/lib.rs`: the tables of types, the constraints on integers at
the type level, the requirements, and the map of the types that have been replaced. A replacement is
carried out in all tables at once; types that are held outside of them are looked up in the map, one
step at a time.

The texts of errors and the trace of the inference are left out, as are the parts of a requirement
that only its check reads: the arguments of a method call and the context it stands in.
-/

namespace Spade.Typeinference

open Hir

/-! ### Types -/

mutual

/-- `==` on types, which does not look at the traits. -/
def TypeVar.same : TypeVar → TypeVar → Bool
  | .known base params, .known base' params' => base == base' && TypeVar.sameAll params params'
  | .unknown id _ metaType, .unknown id' _ metaType' => id == id' && metaType == metaType'
  | _, _ => false

def TypeVar.sameAll : List TypeVar → List TypeVar → Bool
  | [], [] => true
  | t :: ts, u :: us => t.same u && TypeVar.sameAll ts us
  | _, _ => false

end

/-- The comparison of `replace_type_var`: of two unknown types, only the ids matter. -/
def TypeVar.isReplaced (t old : TypeVar) : Bool :=
  match t, old with
  | .unknown id _ _, .unknown id' _ _ => id == id'
  | _, _ => t.same old

/- `replace_type_var`, one function for every container the recursion goes through. The type itself
is compared after its parameters have been replaced. -/
mutual

def TypeVar.replace (t old new : TypeVar) : TypeVar :=
  match t with
  | .known base params =>
      let t := .known base (TypeVar.replaceAll params old new)
      if t.isReplaced old then new else t
  | .unknown id traits metaType =>
      let t := .unknown id (TraitReq.replaceAll traits old new) metaType
      if t.isReplaced old then new else t
termination_by structural t

def TypeVar.replaceAll (ts : List TypeVar) (old new : TypeVar) : List TypeVar :=
  match ts with
  | [] => []
  | t :: ts => t.replace old new :: TypeVar.replaceAll ts old new
termination_by structural ts

def TraitReq.replace (t : TraitReq) (old new : TypeVar) : TraitReq :=
  match t with
  | .mk name typeParams => .mk name (TypeVar.replaceAll typeParams old new)
termination_by structural t

def TraitReq.replaceAll (ts : List TraitReq) (old new : TypeVar) : List TraitReq :=
  match ts with
  | [] => []
  | t :: ts => t.replace old new :: TraitReq.replaceAll ts old new
termination_by structural ts

end

/-- `replacements`: every type with the one it has been replaced by, the last replacement first. -/
abbrev Replacements := List (TypeVar × TypeVar)

/-- The entry of a type. -/
def Replacements.get (replacements : Replacements) (t : TypeVar) : Option TypeVar :=
  (replacements.find? fun r => r.1.same t).map Prod.snd

/- `check_var_for_replacement`. What a type has been replaced by is not looked up again. -/
mutual

def TypeVar.check (replacements : Replacements) : TypeVar → TypeVar
  | .known base params =>
      match replacements.get (.known base params) with
      | some new => new
      | none => .known base (TypeVar.checkAll replacements params)
  | .unknown id traits metaType =>
      match replacements.get (.unknown id traits metaType) with
      | some new => new
      | none => .unknown id (TraitReq.checkAll replacements traits) metaType

def TypeVar.checkAll (replacements : Replacements) : List TypeVar → List TypeVar
  | [] => []
  | t :: ts => t.check replacements :: TypeVar.checkAll replacements ts

def TraitReq.check (replacements : Replacements) : TraitReq → TraitReq
  | .mk name typeParams => .mk name (TypeVar.checkAll replacements typeParams)

def TraitReq.checkAll (replacements : Replacements) : List TraitReq → List TraitReq
  | [] => []
  | t :: ts => t.check replacements :: TraitReq.checkAll replacements ts

end

/-! ### Constraints -/

/-- `ConstraintExpr`. -/
inductive ConstraintExpr where
  | integer (val : ℤ)
  | var (v : TypeVar)
  | sum (lhs rhs : ConstraintExpr)
  | difference (lhs rhs : ConstraintExpr)
  | product (lhs rhs : ConstraintExpr)
  | sub (inner : ConstraintExpr)
  | uintBitsToRepresent (inner : ConstraintExpr)

namespace ConstraintExpr

/-- An operation on two expressions: it is carried out on integers, and otherwise the expression
stays what it is. -/
def evaluateBinary (op : ℤ → ℤ → ℤ) (self : ConstraintExpr) :
    ConstraintExpr → ConstraintExpr → ConstraintExpr
  | integer l, integer r => integer (op l r)
  | _, _ => self

/-- An operation on one expression. -/
def evaluateUnary (op : ℤ → ℤ) (self : ConstraintExpr) : ConstraintExpr → ConstraintExpr
  | integer val => integer (op val)
  | _ => self

/-- `evaluate`, where `bits` is the number of bits that the logarithm of a number is computed to,
in floating point. -/
def evaluate (bits : ℤ → ℤ) : ConstraintExpr → ConstraintExpr
  | integer val => integer val
  | var v => var v
  | sum lhs rhs => evaluateBinary (· + ·) (sum lhs rhs) (lhs.evaluate bits) (rhs.evaluate bits)
  | difference lhs rhs =>
      evaluateBinary (· - ·) (difference lhs rhs) (lhs.evaluate bits) (rhs.evaluate bits)
  | product lhs rhs =>
      evaluateBinary (· * ·) (product lhs rhs) (lhs.evaluate bits) (rhs.evaluate bits)
  | sub inner => evaluateUnary (- ·) (sub inner) (inner.evaluate bits)
  | uintBitsToRepresent inner =>
      evaluateUnary bits (uintBitsToRepresent inner) (inner.evaluate bits)

/-- `check_expr_for_replacement`. -/
def check (replacements : Replacements) : ConstraintExpr → ConstraintExpr
  | integer val => integer val
  | var v => var (v.check replacements)
  | sum lhs rhs => sum (lhs.check replacements) (rhs.check replacements)
  | difference lhs rhs => difference (lhs.check replacements) (rhs.check replacements)
  | product lhs rhs => product (lhs.check replacements) (rhs.check replacements)
  | sub inner => sub (inner.check replacements)
  | uintBitsToRepresent inner => uintBitsToRepresent (inner.check replacements)

/-- `replace_type_var_in_constraint_expr`: a variable that is known becomes an integer. -/
def replace (old new : TypeVar) : ConstraintExpr → ConstraintExpr
  | integer val => integer val
  | var v =>
      match v.replace old new with
      | .known (.integer val) _ => integer val
      | v => var v
  | sum lhs rhs => sum (lhs.replace old new) (rhs.replace old new)
  | difference lhs rhs => difference (lhs.replace old new) (rhs.replace old new)
  | product lhs rhs => product (lhs.replace old new) (rhs.replace old new)
  | sub inner => sub (inner.replace old new)
  | uintBitsToRepresent inner => uintBitsToRepresent (inner.replace old new)

end ConstraintExpr

/-! ### Requirements -/

/-- `ConstantInt`. -/
inductive ConstantInt where
  | generic (var : TypeVar)
  | literal (val : ℤ)

/-- `Requirement`. -/
inductive Requirement where
  | hasField (targetType : TypeVar) (field : String) (expr : TypeVar)
  | hasMethod (exprId : ℕ) (targetType : TypeVar) (traitList : Option (List TraitReq))
      (method : String) (expr : TypeVar)
  | fitsIntLiteral (value : ConstantInt) (targetType : TypeVar)
  | validPipelineOffset (definitionDepth currentStage referenceOffset : TypeVar)
  | positivePipelineDepth (depth : TypeVar)
  | sharedBase (types : List TypeVar)

/-- `Requirement::replace_type_var`. -/
def Requirement.replace (old new : TypeVar) : Requirement → Requirement
  | hasField targetType field expr =>
      hasField (targetType.replace old new) field (expr.replace old new)
  | hasMethod exprId targetType traitList method expr =>
      let traitList := match old with
        | .unknown _ (t :: ts) _ => some (t :: ts)
        | _ => traitList
      hasMethod exprId (targetType.replace old new) traitList method (expr.replace old new)
  | fitsIntLiteral (.generic var) targetType =>
      fitsIntLiteral (.generic (var.replace old new)) (targetType.replace old new)
  | fitsIntLiteral (.literal val) targetType =>
      fitsIntLiteral (.literal val) (targetType.replace old new)
  | validPipelineOffset definitionDepth currentStage referenceOffset =>
      validPipelineOffset (definitionDepth.replace old new) (currentStage.replace old new)
        (referenceOffset.replace old new)
  | positivePipelineDepth depth => positivePipelineDepth (depth.replace old new)
  | sharedBase types => sharedBase (types.map (·.replace old new))

/-- The types of a requirement that is added, looked up in the replacements. -/
def Requirement.check (replacements : Replacements) : Requirement → Requirement
  | hasField targetType field expr =>
      hasField (targetType.check replacements) field (expr.check replacements)
  | hasMethod exprId targetType traitList method expr =>
      hasMethod exprId (targetType.check replacements) traitList method (expr.check replacements)
  | fitsIntLiteral (.generic var) targetType =>
      fitsIntLiteral (.generic (var.check replacements)) (targetType.check replacements)
  | fitsIntLiteral (.literal val) targetType =>
      fitsIntLiteral (.literal val) (targetType.check replacements)
  | validPipelineOffset definitionDepth currentStage referenceOffset =>
      validPipelineOffset (definitionDepth.check replacements) (currentStage.check replacements)
        (referenceOffset.check replacements)
  | positivePipelineDepth depth => positivePipelineDepth (depth.check replacements)
  | sharedBase types => sharedBase (types.map (·.check replacements))

/-! ### The state -/

/-- `TypedExpression`: what has a type. -/
inductive TypedExpression where
  | id (id : ℕ)
  | name (name : NameID)
  deriving DecidableEq

/-- `GenericListToken`. -/
inductive GenericListToken where
  | anonymous (index : ℕ)
  | definition (name : NameID)
  | implBlock (target : NameID) (id : ℕ)
  | expression (id : ℕ)
  deriving DecidableEq

/-- `TraitImpl`. -/
structure TraitImpl where
  name : TraitName
  typeParams : List TypeVar

/-- `PipelineState`. -/
structure PipelineState where
  /-- The depth of the stage we are currently in. -/
  currentStageDepth : TypeVar
  totalDepth : TypeVar

/-- `PipelineState` with a type replaced. -/
def PipelineState.replace (old new : TypeVar) (state : PipelineState) : PipelineState :=
  { currentStageDepth := state.currentStageDepth.replace old new
    totalDepth := state.totalDepth.replace old new }

/-- `TypeState`. -/
structure TypeState where
  equations : TypedExpression → Option TypeVar
  nextTypeid : ℕ
  /-- The mappings between generic parameters and types. -/
  genericLists : GenericListToken → NameID → Option TypeVar
  constraints : List (TypeVar × ConstraintExpr)
  requirements : List Requirement
  replacements : Replacements
  pipelineState : Option PipelineState
  traitImpls : NameID → List TraitImpl

/-- Why type inference stops: the kinds of `UnificationError`, or a panic of the compiler. Recursive
definitions without a bound run out of fuel. -/
inductive InferenceError where
  | normal | metaMismatch | fromConstraints | unsatisfiedTraits | panic | outOfFuel
  deriving DecidableEq

/-- A computation on the state. -/
abbrev Infer := StateT TypeState (Except InferenceError)

namespace TypeState

/-- `TypeState::new`. -/
def new : TypeState where
  equations _ := none
  nextTypeid := 0
  genericLists _ _ := none
  constraints := []
  requirements := []
  replacements := []
  pipelineState := none
  traitImpls _ := []

/-- The loop body of `unify_inner`: `old` is replaced by `new` in all tables. -/
def replace (old new : TypeVar) (state : TypeState) : TypeState where
  equations e := (state.equations e).map (·.replace old new)
  nextTypeid := state.nextTypeid
  genericLists token name := (state.genericLists token name).map (·.replace old new)
  constraints := state.constraints.map fun c => (c.1.replace old new, c.2.replace old new)
  requirements := state.requirements.map (·.replace old new)
  replacements := (old, new) :: state.replacements
  pipelineState := state.pipelineState.map (·.replace old new)
  traitImpls name := (state.traitImpls name).map fun i =>
    { i with typeParams := i.typeParams.map (·.replace old new) }

end TypeState

/-- An unknown type with a fresh id. -/
def newGeneric (traits : List TraitReq) (metaType : MetaType) : Infer TypeVar := do
  let state ← get
  set { state with nextTypeid := state.nextTypeid + 1 }
  pure (.unknown state.nextTypeid traits metaType)

/-- `new_generic_with_meta`. -/
def newGenericWithMeta (metaType : MetaType) : Infer TypeVar := newGeneric [] metaType

/-- `new_generic_any`. -/
def newGenericAny : Infer TypeVar := newGeneric [] .any

/-- `new_generic_tlint`. -/
def newGenericTlint : Infer TypeVar := newGeneric [] .int

/-- `new_generic_tluint`. -/
def newGenericTluint : Infer TypeVar := newGeneric [] .uint

/-- `new_generic_tlnumber`. -/
def newGenericTlnumber : Infer TypeVar := newGeneric [] .number

/-- `new_generic_with_traits`. -/
def newGenericWithTraits (traits : List TraitReq) : Infer TypeVar := newGeneric traits .type

/-- `add_equation`, which panics when there is an equation already. -/
def addEquation (e : TypedExpression) (var : TypeVar) : Infer Unit := do
  let state ← get
  if (state.equations e).isSome then throw .panic
  else
    set { state with
      equations := fun e' => if e' = e then some (var.check state.replacements)
        else state.equations e' }

/-- `add_constraint`. -/
def addConstraint (lhs : TypeVar) (rhs : ConstraintExpr) : Infer Unit :=
  modify fun state =>
    { state with
      constraints := state.constraints ++
        [(lhs.check state.replacements, rhs.check state.replacements)] }

/-- `add_requirement`. -/
def addRequirement (requirement : Requirement) : Infer Unit :=
  modify fun state =>
    { state with requirements := state.requirements ++ [requirement.check state.replacements] }

/-! ### Types from the program -/

/-- `visit_const_generic`. -/
def visitConstGeneric (token : GenericListToken) : ConstGeneric → Infer ConstraintExpr
  | .name n => do
      let state ← get
      match state.genericLists token n with
      | some var => pure (.var (var.check state.replacements))
      | none => throw .panic
  | .const val => pure (.integer val)
  | .add lhs rhs => do
      pure (.sum (← visitConstGeneric token lhs) (← visitConstGeneric token rhs))
  | .sub lhs rhs => do
      pure (.difference (← visitConstGeneric token lhs) (← visitConstGeneric token rhs))
  | .mul lhs rhs => do
      pure (.product (← visitConstGeneric token lhs) (← visitConstGeneric token rhs))
  | .uintBitsToFit inner => do pure (.uintBitsToRepresent (← visitConstGeneric token inner))

/- `hir_type_expr_to_var` and `type_var_from_hir`, with the generic arguments of a list. -/
mutual

def inferTypeExpr (token : GenericListToken) : TypeExpression → Infer TypeVar
  | .integer i => pure (.known (.integer i) [])
  | .typeSpec spec => inferTypeSpec token spec
  | .constGeneric g => do
      let constraint ← visitConstGeneric token g
      let tvar ← newGenericTlnumber
      addConstraint tvar constraint
      pure tvar

def inferTypeSpec (token : GenericListToken) : TypeSpec → Infer TypeVar
  | .declared base params => do pure (.known (.named base) (← inferTypeExprs token params))
  | .generic name => do
      match (← get).genericLists token name with
      | some t => pure t
      | none => throw .panic
  | .tuple inner => do pure (.known .tuple (← inferTypeSpecs token inner))
  | .array inner size => do
      let inner ← inferTypeSpec token inner
      let size ← inferTypeExpr token size
      pure (.known .array [inner, size])
  | .unit => throw .panic
  | .backward inner => do pure (.known .backward [← inferTypeSpec token inner])
  | .wire inner => do pure (.known .wire [← inferTypeSpec token inner])
  | .inverted inner => do pure (.known .inverted [← inferTypeSpec token inner])
  | .wildcard => newGenericAny
  | .traitSelf => throw .panic

def inferTypeSpecs (token : GenericListToken) : List TypeSpec → Infer (List TypeVar)
  | [] => pure []
  | spec :: specs => do
      let t ← inferTypeSpec token spec
      pure (t :: (← inferTypeSpecs token specs))

def inferTypeExprs (token : GenericListToken) : List TypeExpression → Infer (List TypeVar)
  | [] => pure []
  | e :: es => do
      let t ← inferTypeExpr token e
      pure (t :: (← inferTypeExprs token es))

end

end Spade.Typeinference

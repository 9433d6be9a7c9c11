import Spade.Hir.Pattern
import Spade.HirLowering.Pipelines

/-!
# Lowering of patterns and match expressions

The statements that `spade-hir-lowering/src/lib.rs` generates for a pattern: those that take a
value apart and bind the names of the pattern (`Pattern.lower`), and those that compute whether
the pattern matches (`Pattern.condition`). A step is `none` where the source panics.

In a match expression the lowered statements and the variable of every result are given. The check
for missing branches, which only reports a diagnostic, is modelled with the usefulness of patterns.
-/

namespace Spade.HirLowering

open Mir Hir

/-- The loop of `all_conditions`. -/
def andConditions (result : ValueName) : List ValueName → ℕ → List Statement × ValueName × ℕ
  | [], next => ([], result, next)
  | op :: ops, next =>
      let (statements, name, next') := andConditions (.expr next) ops (next + 1)
      (boolBinding (.expr next) .logicalAnd [result, op] :: statements, name, next')

/-- `all_conditions`: a name which is true if all of `ops` are true. -/
def allConditions (ops : List ValueName) (next : ℕ) : List Statement × ValueName × ℕ :=
  match ops with
  | [] => ([.constant next .bool (.bool true)], .expr next, next + 1)
  | [op] => ([], op, next)
  | op :: ops => andConditions op ops next

/-- `ParameterList::arg_index`, unwrapped. -/
def argIndex (params : List String) (target : String) : Option ℕ :=
  match params.findIdxs (· == target) with
  | [i] => some i
  | _ => none

end Spade.HirLowering

namespace Spade.Hir

open Mir HirLowering

/-- `PatternLocal::value_name`. -/
def Pattern.valueName : Pattern → ValueName
  | .name _ n => n.valueName
  | p => .expr p.id

/-- The statements that bind a subpattern, given its index in the pattern, with the next id. -/
abbrev FieldBinding := ℕ → Pattern → ℕ → Option (List Statement × ℕ)

/-- The binding of the name of a subpattern. -/
def PatternContext.fieldBinding (ctx : PatternContext) (p : Pattern) (operator : Op)
    (operands : List ValueName) : Option Statement := do
  some (.binding
    { name := p.valueName
      operator := operator
      operands := operands
      ty := (← (ctx.typeOfId p.id).toMirType) })

/-- The binding of an element of a tuple. -/
def PatternContext.tupleField (ctx : PatternContext) (selfName : ValueName) (innerTypes : List Ty) :
    FieldBinding := fun i p next => do
  some ([← ctx.fieldBinding p (.indexTuple i innerTypes) [selfName]], next)

/-- The binding of an element of an array, with the constant of its index. -/
def PatternContext.arrayField (ctx : PatternContext) (selfName : ValueName) (length : ℕ) :
    FieldBinding := fun i p next => do
  some ([.constant next (.int (Nat.log2 length + 1)) (.int i),
    ← ctx.fieldBinding p .indexArray [selfName, .expr next]], next + 1)

/-- The binding of a field of a struct, by the index of its target. -/
def PatternContext.structField (ctx : PatternContext) (selfName : ValueName) (path : NameID)
    (targets : List String) (innerTypes : List Ty) : FieldBinding := fun i p next => do
  let index ← argIndex (ctx.structById path) (← targets[i]?)
  some ([← ctx.fieldBinding p (.indexTuple index innerTypes) [selfName]], next)

/-- The binding of a member of an enum variant. -/
def PatternContext.enumField (ctx : PatternContext) (selfName : ValueName) (path : NameID)
    (selfType : Ty) : FieldBinding := fun i p next => do
  some ([← ctx.fieldBinding p (.enumMember selfType (ctx.enumVariantById path) i) [selfName]], next)

mutual

/-- `PatternLocal::lower`: lower a pattern to its individual parts. -/
def Pattern.lower (ctx : PatternContext) (selfName : ValueName) :
    Pattern → ℕ → Option (List Statement × ℕ)
  | .integer _ _, next => some ([], next)
  | .bool _ _, next => some ([], next)
  | .name _ _, next => some ([], next)
  | .tuple id inner, next => do
      match ← (ctx.typeOfId id).toMirType with
      | .tuple innerTypes => lowerFields ctx (ctx.tupleField selfName innerTypes) 0 inner next
      | _ => none
  | .array _ inner, next => lowerFields ctx (ctx.arrayField selfName inner.length) 0 inner next
  | .type id path targets args, next =>
      match ctx.patternableTypeById path with
      | .struct => do
          match ← (ctx.typeOfId id).toMirType with
          | .struct inner =>
              lowerFields ctx (ctx.structField selfName path targets (inner.map Prod.snd)) 0 args
                next
          | _ => none
      | .enum => do
          let selfType ← (ctx.typeOfId id).toMirType
          lowerFields ctx (ctx.enumField selfName path selfType) 0 args next

/-- The loops of `PatternLocal::lower` over the subpatterns, from index `i` on. -/
def lowerFields (ctx : PatternContext) (field : FieldBinding) :
    ℕ → List Pattern → ℕ → Option (List Statement × ℕ)
  | _, [], next => some ([], next)
  | i, p :: ps, next => do
      let (binding, next) ← field i p next
      let (inner, next) ← p.lower ctx p.valueName next
      let (rest, next) ← lowerFields ctx field (i + 1) ps next
      some (binding ++ inner ++ rest, next)

end

mutual

/-- `PatternLocal::condition`: the statements and the name of a condition that must hold for the
value `valueName` to satisfy the pattern. -/
def Pattern.condition (ctx : PatternContext) :
    Pattern → ValueName → ℕ → Option (List Statement × ValueName × ℕ)
  | .integer id val, valueName, next => do
      let selfType ← (ctx.typeOfId id).toMirType
      some ([.constant (next + 1) selfType (.int val),
        boolBinding (.expr next) .eq [valueName, .expr (next + 1)]], .expr next, next + 2)
  | .bool _ true, valueName, next => some ([], valueName, next + 1)
  | .bool _ false, valueName, next =>
      some ([boolBinding (.expr next) .logicalNot [valueName]], .expr next, next + 1)
  | .name _ _, _, next => some ([.constant next .bool (.bool true)], .expr next, next + 1)
  | .tuple _ branches, _, next => do
      -- patterns without any subpatterns are unsupported
      if branches.isEmpty then none
      else
        let (statements, conditions, next) ← subConditions ctx branches (next + 1)
        let (newStatements, resultName, next) := allConditions conditions next
        some (statements ++ newStatements, resultName, next)
  | .array _ branches, _, next => do
      if branches.isEmpty then none
      else
        let (statements, conditions, next) ← subConditions ctx branches (next + 1)
        let (newStatements, resultName, next) := allConditions conditions next
        some (statements ++ newStatements, resultName, next)
  | .type id path _ args, valueName, next => do
      let selfType ← (ctx.typeOfId id).toMirType
      let selfCondition : Statement :=
        match ctx.patternableTypeById path with
        | .enum =>
            boolBinding (.expr (next + 1)) (.isEnumVariant (ctx.enumVariantById path) selfType)
              [valueName]
        | .struct => .constant (next + 1) .bool (.bool true)
      let (statements, conditions, next') ← subConditions ctx args (next + 2)
      let (extraStatements, resultName, next') := allConditions (.expr (next + 1) :: conditions) next'
      some (selfCondition :: statements ++ extraStatements, resultName, next')

/-- The conditions of the subpatterns, under the names that `lower` binds them to. -/
def subConditions (ctx : PatternContext) :
    List Pattern → ℕ → Option (List Statement × List ValueName × ℕ)
  | [], next => some ([], [], next)
  | p :: ps, next => do
      let (statements, condition, next) ← p.condition ctx p.valueName next
      let (rest, conditions, next) ← subConditions ctx ps next
      some (statements ++ rest, condition :: conditions, next)

end

end Spade.Hir

namespace Spade.HirLowering

open Mir Hir

end Spade.HirLowering

import Spade.Typeinference.TypeState

/-!
# Unification

`unify_inner` and `unify` of `spade-typeinference/src/lib.rs`. Two known types are unified by their
parameters, an unknown type is replaced by what it is unified with, and two unknown types are both
replaced by a fresh one that has the traits of both. After that the constraints on integers that
have become known are applied.

The recursion of `unify_inner` is bounded by an amount of fuel.
-/

namespace Spade.Typeinference

/-! ### Context -/

/-- `TypeSymbol`, where a generic argument lists the names of its traits. -/
inductive TypeSymbol where
  | declared
  | genericArg (traits : List TraitName)
  | genericMeta (metaType : MetaType)

/-- What type inference knows about names, and the number of bits of a number, which is computed in
floating point. -/
structure Context where
  /-- `type_symbol_by_id`, which panics when there is no such type. -/
  typeSymbol : NameID → Option TypeSymbol
  /-- The trait `Number`. -/
  number : NameID
  /-- The type `int`. -/
  int : NameID
  /-- The type `uint`. -/
  uint : NameID
  uintBits : ℤ → ℤ

/-- `HasType`: what can be unified. -/
inductive HasType where
  | type (t : TypeVar)
  | typed (e : TypedExpression)
  | base (k : KnownType)

/-- `get_type`. -/
def HasType.getType (state : TypeState) : HasType → Option TypeVar
  | type t => some (t.check state.replacements)
  | typed e => state.equations e
  | base k => some (.known k [])

/-! ### Meta types -/

/-- `unify_meta`. -/
def unifyMeta : MetaType → MetaType → Option MetaType
  | .any, other => some other
  | other, .any => some other
  | .number, .int | .int, .number => some .int
  | .number, .uint | .uint, .number => some .uint
  | .type, .type => some .type
  | .int, .int => some .int
  | .number, .number => some .number
  | .uint, .uint => some .uint
  | .type, .int | .type, .uint | .int, .type | .int, .uint | .uint, .type | .uint, .int
  | .type, .number | .number, .type => none

/-- Whether an unknown type of the kind can be the known type. -/
def KnownType.matchesMeta : KnownType → MetaType → Bool
  | _, .any => true
  | .integer _, .int | .integer _, .number => true
  | .integer val, .uint => decide (0 ≤ val)
  | .integer _, .type => false
  | _, .type => true
  | _, .int | _, .number | _, .uint => false

/-! ### Traits -/

/-- The name of a trait that is required. -/
def TraitReq.name : TraitReq → TraitName
  | mk name _ => name

/-- The parameters of a trait that is required. -/
def TraitReq.typeParams : TraitReq → List TypeVar
  | mk _ typeParams => typeParams

/-- `get_trait`. -/
def getTrait (traits : List TraitReq) (name : TraitName) : Option TraitReq :=
  traits.find? fun t => t.name = name

/-- `<` on trait names. -/
def TraitName.before : TraitName → TraitName → Bool
  | .named n, .named n' => decide (n.id < n'.id)
  | .named _, .anonymous _ => true
  | .anonymous _, .named _ => false
  | .anonymous id, .anonymous id' => decide (id < id')

/-- Insertion into a `BTreeSet`. -/
def insertName (name : TraitName) : List TraitName → List TraitName
  | [] => [name]
  | n :: ns =>
      if name = n then n :: ns
      else if TraitName.before name n then name :: n :: ns
      else n :: insertName name ns

/-- The names of the traits of two types, in the order of a `BTreeSet`. -/
def newTraitNames (traits1 traits2 : List TraitReq) : List TraitName :=
  (traits1 ++ traits2).foldl (fun names t => insertName t.name names) []

/-- Whether the named type satisfies what is required. `Number` is special cased. -/
def isSatisfied (ctx : Context) (impls : List TraitImpl) (name : NameID) (required : TraitReq) :
    Bool :=
  if required.name = .named ctx.number then name = ctx.int || name = ctx.uint
  else impls.any fun i => i.name = required.name && TypeVar.sameAll i.typeParams required.typeParams

/-- The error when traits are not satisfied. -/
def implError (ctx : Context) (traitIsExpected : Bool) (required : List TraitReq) :
    InferenceError :=
  if traitIsExpected &&
      !(required.length = 1 && (getTrait required (.named ctx.number)).isSome) then
    .unsatisfiedTraits
  else .normal

/-- `ensure_impls`. -/
def ensureImpls (ctx : Context) (var : TypeVar) (traits : List TraitReq) (traitIsExpected : Bool) :
    Infer Unit := do
  match var with
  | .known (.named name) _ =>
      let state ← get
      let unsatisfied := traits.filter fun t => !isSatisfied ctx (state.traitImpls name) name t
      if unsatisfied.isEmpty then pure () else throw (implError ctx traitIsExpected unsatisfied)
  | .unknown _ _ _ => throw .panic
  | _ => if traits.isEmpty then pure () else throw (implError ctx traitIsExpected traits)

/-! ### Parts of unification

The functions that unify parameters are arguments here: `inner` is `unify_inner` on types, and
`full` is `unify`. -/

section parts

variable (ctx : Context) (inner full : TypeVar → TypeVar → Infer TypeVar)

/-- Unifies types pairwise, as far as both lists go. -/
def unifyZip (f : TypeVar → TypeVar → Infer TypeVar) :
    List TypeVar → List TypeVar → Infer (List TypeVar)
  | t :: ts, u :: us => do
      let r ← f t u
      let rs ← unifyZip f ts us
      pure (r :: rs)
  | _, _ => pure []

/-- `unify_params`. -/
def unifyParams (ps ps' : List TypeVar) : Infer Unit := do
  if ps.length ≠ ps'.length then throw .normal
  else
    let _ ← unifyZip inner ps ps'
    pure ()

/-- `unify_inner` on two known types `v1` and `v2`: the new type and the types it replaces. The type
of the left side is looked up again after its parameters have been unified. -/
def unifyKnown (e1 : HasType) (v1 v2 : TypeVar) (t1 t2 : KnownType) (p1 p2 : List TypeVar) :
    Infer (TypeVar × List TypeVar) := do
  match t1, t2 with
  | .integer val1, .integer val2 => if val1 = val2 then pure (v1, []) else throw .normal
  | .named n1, .named n2 =>
      match ctx.typeSymbol n1, ctx.typeSymbol n2 with
      | some .declared, some .declared =>
          if n1 ≠ n2 then throw .normal
          else
            unifyParams inner p1 p2
            let state ← get
            match e1.getType state with
            | some v1 => pure (v1.check state.replacements, [])
            | none => throw .panic
      | some .declared, some (.genericArg []) => pure (v1, [v2])
      | some (.genericArg []), some .declared => pure (v2, [v1])
      | some (.genericArg []), some (.genericArg []) => pure (v1, [v2])
      | _, _ => throw .panic
  | .array, .array | .tuple, .tuple | .wire, .wire | .backward, .backward
  | .inverted, .inverted =>
      unifyParams inner p1 p2
      pure (v2.check (← get).replacements, [])
  | _, _ => throw .normal

/-- A trait that at least one of two types has. Its parameters are unified when both have it. -/
def mergeTrait (name : TraitName) : Option TraitReq → Option TraitReq → Infer TraitReq
  | some req1, some req2 => do
      let newParams ← unifyZip full req1.typeParams req2.typeParams
      pure (.mk name newParams)
  | some t, none => pure t
  | none, some t => pure t
  | none, none => throw .panic

/-- The traits of both types. -/
def mergeTraits (traits1 traits2 : List TraitReq) : List TraitName → Infer (List TraitReq)
  | [] => pure []
  | name :: names => do
      let t ← mergeTrait full name (getTrait traits1 name) (getTrait traits2 name)
      let ts ← mergeTraits traits1 traits2 names
      pure (t :: ts)

/-- `unify_inner` on two unknown types: the fresh type that replaces both. -/
def unifyUnknown (traits1 traits2 : List TraitReq) (meta1 meta2 : MetaType) : Infer TypeVar :=
  match unifyMeta meta1 meta2 with
  | some .any =>
      if traits1.isEmpty || traits2.isEmpty then throw .panic else newGenericWithMeta .any
  | some .number =>
      if traits1.isEmpty || traits2.isEmpty then throw .panic else newGenericWithMeta .number
  | some .type => do
      let traits ← mergeTraits full traits1 traits2 (newTraitNames traits1 traits2)
      newGenericWithTraits traits
  | some .int => newGenericTlint
  | some .uint => newGenericTluint
  | none => throw .metaMismatch

/-- The parameters of the known type, unified with the ones of every trait that has parameters. -/
def unifyTraitParams (params : List TypeVar) : List TraitReq → List TypeVar → Infer (List TypeVar)
  | [], newParams => pure newParams
  | t :: traits, newParams =>
      if t.typeParams.isEmpty then unifyTraitParams params traits newParams
      else if t.typeParams.length ≠ params.length then throw .normal
      else do
        let newParams ← unifyZip inner t.typeParams newParams
        unifyTraitParams params traits newParams

/-- `unify_inner` on a known and an unknown type: the type that replaces the unknown one. -/
def unifyKnownUnknown (base : KnownType) (params : List TypeVar) (traits : List TraitReq)
    (metaType : MetaType) (traitIsExpected : Bool) : Infer TypeVar := do
  ensureImpls ctx (.known base params) traits traitIsExpected
  let newParams ← unifyTraitParams inner params traits params
  if KnownType.matchesMeta base metaType then pure (.known base newParams) else throw .metaMismatch

/-- The new type and the types it replaces, for every combination of types. -/
def unifyTypes (e1 : HasType) (v1 v2 : TypeVar) : Infer (TypeVar × List TypeVar) :=
  match v1, v2 with
  | .known t1 p1, .known t2 p2 => unifyKnown ctx inner e1 v1 v2 t1 t2 p1 p2
  | .unknown _ traits1 meta1, .unknown _ traits2 meta2 => do
      pure (← unifyUnknown full traits1 traits2 meta1 meta2, [v1, v2])
  | .known base params, .unknown _ traits metaType => do
      pure (← unifyKnownUnknown ctx inner base params traits metaType true, [v2])
  | .unknown _ traits metaType, .known base params => do
      pure (← unifyKnownUnknown ctx inner base params traits metaType false, [v1])

end parts

/-! ### Constraints that have become known -/

/-- The constraints whose right side is an integer: what `update_int_constraints` returns. -/
def TypeState.newInfo (ctx : Context) (state : TypeState) : List (TypeVar × ℤ) :=
  state.constraints.filterMap fun c =>
    match c.2.evaluate ctx.uintBits with
    | .integer val => some (c.1, val)
    | _ => none

/-- The constraints that `update_int_constraints` leaves. -/
def TypeState.stuck (ctx : Context) (state : TypeState) : TypeState :=
  { state with
    constraints := state.constraints.filterMap fun c =>
      match c.2.evaluate ctx.uintBits with
      | .integer _ => none
      | rhs => some (c.1, rhs) }

section constraints

variable (ctx : Context) (inner : HasType → HasType → Infer TypeVar)

/-- A type is unified with the value that a constraint has given it. -/
def applyConstraint (var : TypeVar) (val : ℤ) : Infer Unit := fun state =>
  match inner (.base (.integer val)) (.type (var.check state.replacements)) state with
  | .ok (_, state) => .ok ((), state)
  | .error .normal | .error .metaMismatch => .error .fromConstraints
  | .error e => .error e

/-- One round of the loop in `unify`. -/
def applyConstraints : List (TypeVar × ℤ) → Infer Unit
  | [] => pure ()
  | (var, val) :: newInfo => do
      applyConstraint inner var val
      applyConstraints newInfo

/-- The loop in `unify`. Every round takes a constraint away, so there are at most as many rounds as
there are constraints. -/
def propagate : ℕ → Infer Unit
  | 0 => pure ()
  | rounds + 1 => do
      let state ← get
      set (state.stuck ctx)
      if (state.newInfo ctx).isEmpty then pure ()
      else
        applyConstraints inner (state.newInfo ctx)
        propagate rounds

/-- `unify`, with the `unify_inner` that it calls. -/
def unifyWith (e1 e2 : HasType) : Infer TypeVar := do
  let newType ← inner e1 e2
  let state ← get
  propagate ctx inner state.constraints.length
  pure newType

end constraints

/-! ### Unification -/

/-- The replacements at the end of `unify_inner`. -/
def replaceTypes (newType : TypeVar) : List TypeVar → Infer Unit
  | [] => pure ()
  | t :: replacedTypes => do
      modify (TypeState.replace t newType)
      replaceTypes newType replacedTypes

/-- `unify_inner`. -/
def unifyInner (ctx : Context) : ℕ → HasType → HasType → Infer TypeVar
  | 0, _, _ => throw .outOfFuel
  | fuel + 1, e1, e2 => do
      let state ← get
      match e1.getType state, e2.getType state with
      | some v1, some v2 =>
          let v1 := v1.check state.replacements
          let v2 := v2.check state.replacements
          let (newType, replacedTypes) ← unifyTypes ctx
            (fun t u => unifyInner ctx fuel (.type t) (.type u))
            (fun t u => unifyWith ctx (unifyInner ctx fuel) (.type t) (.type u)) e1 v1 v2
          replaceTypes newType replacedTypes
          pure newType
      | _, _ => throw .panic

/-- `unify`. -/
def unify (ctx : Context) (fuel : ℕ) : HasType → HasType → Infer TypeVar :=
  unifyWith ctx (unifyInner ctx fuel)

end Spade.Typeinference

import Spade.Hir.Pattern
import Mathlib.Data.List.Sort
import Mathlib.Data.List.Dedup
import Mathlib.Data.Int.Order.Basic

/-!
# Deconstructed patterns

The constructors of patterns, how they are split, and the lowering of patterns to them, from
`spade-hir-lowering/src/pattern.rs`. A step is `none` where the source panics.
-/

namespace Spade.HirLowering

open Hir

/-- `Constructor`. -/
inductive Constructor where
  /-- Patterns that only have a single constructor, like tuples and structs. -/
  | single
  | bool (b : Bool)
  | variant (option : ℕ)
  | intRange (min max : ℤ)
  | missing (allMissing : List Constructor)
  | wildcard

/-- `DeconstructedPattern`. -/
inductive DeconstructedPattern where
  | mk (ctor : Constructor) (fields : List DeconstructedPattern) (ty : ConcreteType)

namespace DeconstructedPattern

/-- The constructor of a pattern. -/
def ctor : DeconstructedPattern → Constructor
  | mk ctor _ _ => ctor

/-- The subpatterns of a pattern. -/
def fields : DeconstructedPattern → List DeconstructedPattern
  | mk _ fields _ => fields

/-- The type of a pattern. -/
def ty : DeconstructedPattern → ConcreteType
  | mk _ _ ty => ty

end DeconstructedPattern

/-! ### Splitting constructors -/

/-- `Constructor::as_range`. -/
def Constructor.asRange : Constructor → Option (ℤ × ℤ)
  | intRange min max => some (min, max)
  | _ => none

/-- The edges of the ranges of other constructors. -/
def rangeEdges : List Constructor → Option (List ℤ)
  | [] => some []
  | c :: cs => do
      let (min, max) ← c.asRange
      some (min :: max :: (← rangeEdges cs))

/-- The loop of `split_int_range` over the edges. -/
def splitAtEdges (currentLow max : ℤ) : List ℤ → List Constructor
  | [] => [.intRange currentLow max]
  | edge :: edges => .intRange currentLow (edge - 1) :: splitAtEdges edge max edges

/-- `split_int_range`. -/
def splitIntRange (min max : ℤ) (otherCtors : List Constructor) : Option (List Constructor) := do
  let edges ← rangeEdges otherCtors
  some (splitAtEdges min max
    ((edges.insertionSort (· ≤ ·)).dedup.filter fun e => decide (min < e) && decide (e < max)))

/-- `Constructor::is_covered_by`. -/
def Constructor.isCoveredBy : Constructor → Constructor → Option Bool
  -- everything is covered by a wildcard
  | _, wildcard => some true
  -- the missing constructors are not covered by anything in the matrix except wildcards
  | missing _, _ => some false
  | single, single => some true
  | variant self, variant other => some (self == other)
  | intRange smin smax, intRange omin omax => some (decide (omin ≤ smin) && decide (smax ≤ omax))
  | bool self, bool other => some (self == other)
  | _, _ => none

/-- Whether a constructor is not a wildcard. -/
def Constructor.isNotWildcard : Constructor → Bool
  | wildcard => false
  | _ => true

/-- Whether any of the constructors covers `ctor`. -/
def coveredByAny (ctor : Constructor) : List Constructor → Option Bool
  | [] => some false
  | other :: others => do
      if ← ctor.isCoveredBy other then some true else coveredByAny ctor others

/-- The constructors that no constructor of a list covers. -/
def missingConstructors (others : List Constructor) : List Constructor → Option (List Constructor)
  | [] => some []
  | ctor :: ctors => do
      let covered ← coveredByAny ctor others
      let rest ← missingConstructors others ctors
      some (if covered then rest else ctor :: rest)

/-- `group_missing_constructors`. -/
def groupMissingConstructors (allCtors otherCtors : List Constructor) :
    Option (List Constructor) := do
  let nonWildcardOther := otherCtors.filter Constructor.isNotWildcard
  let missing ← missingConstructors nonWildcardOther allCtors
  some (if missing.isEmpty then allCtors else nonWildcardOther ++ [.missing missing])

/-- `to_u128`. -/
def toU128 (n : ℤ) : Option ℕ := if 0 ≤ n ∧ n < 2 ^ 128 then some n.toNat else none

/-- The ranges of an integer type, whose other constructors are split before they are used. -/
def splitInteger (splitOther : Constructor → Option (List Constructor)) (min max : ℤ)
    (otherCtors : List Constructor) : Option (List Constructor) := do
  splitIntRange min max (← otherCtors.mapM splitOther).flatten

/-- `split_wildcard`, with the function that splits the other constructors as a parameter. -/
def splitWildcardWith (splitOther : Constructor → Option (List Constructor)) (ty : ConcreteType)
    (otherCtors : List Constructor) : Option (List Constructor) :=
  match ty with
  | .tuple _ => some [.single]
  | .struct _ => some [.single]
  | .array _ _ => some [.single]
  | .enum options => some ((List.range options.length).map .variant)
  | .single .int params =>
      match params.head? with
      | some (.integer s) => do
          let bits ← toU128 s
          if bits = 0 then none
          else splitInteger splitOther (-2 ^ (bits - 1)) (2 ^ (bits - 1) - 1) otherCtors
      | _ => none
  | .single .uint params =>
      match params.head? with
      | some (.integer s) => do
          let bits ← toU128 s
          splitInteger splitOther 0 (2 ^ bits - 1) otherCtors
      | _ => none
  | .single .bool _ => groupMissingConstructors [.bool false, .bool true] otherCtors
  -- no constructors, so that matching on the type is impossible
  | .single .bit _ | .single .clock _ | .single .memory _ | .single .inOut _
  | .single .void _ => some []
  | .backward _ => some [.single]
  | .wire _ => some [.single]
  | .integer _ => none

/-- `Constructor::split` without other constructors, where the recursion of the source ends. -/
def Constructor.splitAlone (ty : ConcreteType) : Constructor → Option (List Constructor)
  | wildcard => splitWildcardWith (fun _ => none) ty []
  | intRange min max => splitIntRange min max []
  | ctor => some [ctor]

/-- `split_wildcard`. -/
def splitWildcard (ty : ConcreteType) (otherCtors : List Constructor) :
    Option (List Constructor) :=
  splitWildcardWith (Constructor.splitAlone ty) ty otherCtors

/-- `Constructor::split`. -/
def Constructor.split (ty : ConcreteType) (otherCtors : List Constructor) :
    Constructor → Option (List Constructor)
  | wildcard => splitWildcard ty otherCtors
  | intRange min max => splitIntRange min max otherCtors
  | ctor => some [ctor]

/-! ### Fields -/

/-- `Constructor::fields`. -/
def Constructor.fields (ty : ConcreteType) : Constructor → Option (List ConcreteType)
  | single =>
      match ty with
      | .tuple inner => some inner
      | .struct members => some (members.map Prod.snd)
      | .array inner size => do some (List.replicate (← toU128 size) inner)
      | .enum _ => none
      | .single _ _ => some []
      | .integer _ => none
      | .backward _ => some []
      | .wire _ => some []
  | variant option =>
      match ty with
      | .enum options => options[option]?
      | _ => none
  | bool _ => some []
  | intRange _ _ => some []
  | missing _ => some []
  | wildcard => none

/-- `Constructor::arity`. -/
def Constructor.arity (ty : ConcreteType) (ctor : Constructor) : Option ℕ :=
  (ctor.fields ty).map List.length

namespace DeconstructedPattern

/-- `DeconstructedPattern::wildcard`. -/
def wildcard (ty : ConcreteType) : DeconstructedPattern := mk .wildcard [] ty

/-- `DeconstructedPattern::wild_from_ctor`. -/
def wildFromCtor (ctor : Constructor) (ty : ConcreteType) : Option DeconstructedPattern := do
  some (mk ctor ((← ctor.fields ty).map wildcard) ty)

/-- `DeconstructedPattern::specialize`. -/
def specialize (p : DeconstructedPattern) (otherCtor : Constructor) :
    Option (List DeconstructedPattern) :=
  match p.ctor with
  | .wildcard => do some (← wildFromCtor otherCtor p.ty).fields
  | _ => some p.fields

mutual

/-- `DeconstructedPattern::from_hir`. -/
def fromHir (ctx : PatternContext) : Pattern → Option DeconstructedPattern
  | .integer id val => some (mk (.intRange val (val + 1)) [] (ctx.typeOfId id))
  | .bool id val => some (mk (.bool val) [] (ctx.typeOfId id))
  | .name id _ => some (mk .wildcard [] (ctx.typeOfId id))
  | .tuple id inner => do some (mk .single (← fromHirList ctx inner) (ctx.typeOfId id))
  | .array id inner => do some (mk .single (← fromHirList ctx inner) (ctx.typeOfId id))
  | .type id path _ args => do
      let fields ← fromHirList ctx args
      match ctx.patternableTypeById path with
      | .struct => some (mk .single fields (ctx.typeOfId id))
      | .enum =>
          match ctx.typeOfId id with
          | .enum options => some (mk (.variant (ctx.enumVariantById path)) fields (.enum options))
          | _ => none

/-- `DeconstructedPattern::from_hir` of a list of subpatterns. -/
def fromHirList (ctx : PatternContext) : List Pattern → Option (List DeconstructedPattern)
  | [] => some []
  | p :: ps => do some ((← fromHir ctx p) :: (← fromHirList ctx ps))

end

end DeconstructedPattern

end Spade.HirLowering

import Spade.HirLowering.Types
import Spade.Lib.BitString

/-!
# Patterns and the values they match

The patterns of `spade-hir` with what type inference and the symbol table know about them
(`PatternContext`), the values of the concrete types (`Value.HasType`), and which values a pattern
matches (`Pattern.Matches`).

How an integer literal is read is a parameter of `Pattern.Matches`: `exact` is the meaning of the
language, other readings describe what a pass of the compiler takes the literal for.
-/

namespace Spade.Hir

/-! ### Patterns -/

/-- `PatternableKind`. -/
inductive PatternableKind where
  | enum | struct

/-- `Pattern` with its `PatternKind`. Every pattern has an id. An argument of a `type` pattern is
given by the name of its parameter, in `targets`, and its pattern, in `args`. -/
inductive Pattern where
  | integer (id : ℕ) (val : ℤ)
  | bool (id : ℕ) (val : Bool)
  | name (id : ℕ) (name : NameID)
  | tuple (id : ℕ) (inner : List Pattern)
  | array (id : ℕ) (inner : List Pattern)
  | type (id : ℕ) (path : NameID) (targets : List String) (args : List Pattern)

/-- The id of a pattern. -/
def Pattern.id : Pattern → ℕ
  | integer id _ | bool id _ | name id _ | tuple id _ | array id _ | type id .. => id

mutual

/-- `get_names`: the variables that a pattern binds. -/
def Pattern.names : Pattern → List NameID
  | .integer _ _ | .bool _ _ => []
  | .name _ name => [name]
  | .tuple _ inner | .array _ inner | .type _ _ _ inner => namesList inner

def namesList : List Pattern → List NameID
  | [] => []
  | p :: ps => p.names ++ namesList ps

end

/-- What the type state and the symbol table say about patterns. -/
structure PatternContext where
  /-- `type_of_id`. -/
  typeOfId : ℕ → ConcreteType
  /-- The kind of `patternable_type_by_id`. -/
  patternableTypeById : NameID → PatternableKind
  /-- The option of `enum_variant_by_id`. -/
  enumVariantById : NameID → ℕ
  /-- The names of the parameters of `struct_by_id`. -/
  structById : NameID → List String

/- A pattern and the types of its subpatterns, one function for lists of patterns. -/
mutual

/-- The pattern has been inferred to have type `ty`, and it fits the type. -/
def Pattern.WellTyped (ctx : PatternContext) : Pattern → ConcreteType → Prop
  | .integer id _, ty => ctx.typeOfId id = ty ∧ ty.bounds.isSome
  | .bool id _, ty => ctx.typeOfId id = ty ∧ ty = .single .bool []
  | .name id _, ty => ctx.typeOfId id = ty
  | .tuple id inner, ty => ctx.typeOfId id = ty ∧
      match ty with
      | .tuple types => WellTypedList ctx inner types
      | _ => False
  | .array id inner, ty => ctx.typeOfId id = ty ∧
      match ty with
      | .array type size =>
          inner ≠ [] ∧ size = inner.length ∧
            WellTypedList ctx inner (List.replicate inner.length type)
      | _ => False
  | .type id path targets args, ty => ctx.typeOfId id = ty ∧
      match ctx.patternableTypeById path, ty with
      | .struct, .struct members =>
          targets = members.map Prod.fst ∧ ctx.structById path = targets ∧ targets.Nodup ∧
            WellTypedList ctx args (members.map Prod.snd)
      | .enum, .enum options =>
          match options[ctx.enumVariantById path]? with
          | some types => targets.length = args.length ∧ WellTypedList ctx args types
          | none => False
      | _, _ => False

/-- The patterns fit the types one by one. -/
def WellTypedList (ctx : PatternContext) : List Pattern → List ConcreteType → Prop
  | [], [] => True
  | p :: ps, ty :: types => p.WellTyped ctx ty ∧ WellTypedList ctx ps types
  | _, _ => False

end

/-! ### Values -/

/-- The values of the concrete types. -/
inductive Value where
  | int (n : ℤ)
  | bool (b : Bool)
  /-- A value that no pattern looks into, such as a bit or a clock, by its bits. -/
  | raw (bits : BitString)
  /-- The members of a tuple or struct or the elements of an array. -/
  | fields (vs : List Value)
  | variant (option : ℕ) (vs : List Value)

mutual

/-- The values of a type. -/
def Value.HasType : Value → ConcreteType → Prop
  | .int n, ty =>
      match ty.bounds with
      | some (min, max) => min ≤ n ∧ n ≤ max
      | none => False
  | .bool _, .single .bool [] => True
  | .raw bits, ty => ty.isRaw = true ∧ ∃ t, ty.toMirType = some t ∧ bits.length = t.size
  | .fields vs, .tuple types => HasTypeList vs types
  | .fields vs, .struct members => HasTypeList vs (members.map Prod.snd)
  | .fields vs, .array type size => HasTypeList vs (List.replicate size.toNat type)
  | .variant option vs, .enum options =>
      match options[option]? with
      | some types => HasTypeList vs types
      | none => False
  | _, _ => False

/-- The values have the types one by one. -/
def HasTypeList : List Value → List ConcreteType → Prop
  | [], [] => True
  | v :: vs, ty :: types => v.HasType ty ∧ HasTypeList vs types
  | _, _ => False

end

mutual

/-- The value contains no bit, clock or void, which no pattern can be compared with. -/
def Value.Comparable : Value → Prop
  | .int _ | .bool _ => True
  | .raw _ => False
  | .fields vs | .variant _ vs => ComparableList vs

def ComparableList : List Value → Prop
  | [] => True
  | v :: vs => v.Comparable ∧ ComparableList vs

end

/-! ### Matching -/

/-- How an integer literal is read: the values of a type that a literal matches. -/
abbrev Reading := ConcreteType → ℤ → ℤ → Prop

/-- A literal matches the value it denotes. -/
def exact : Reading := fun _ literal n => n = literal

mutual

/-- The pattern matches the value. -/
def Pattern.Matches (ctx : PatternContext) (reading : Reading) : Pattern → Value → Prop
  | .integer id literal, .int n => reading (ctx.typeOfId id) literal n
  | .bool _ b, .bool b' => b = b'
  | .name _ _, _ => True
  | .tuple _ inner, .fields vs => MatchesList ctx reading inner vs
  | .array _ inner, .fields vs => MatchesList ctx reading inner vs
  | .type _ path _ args, v =>
      match ctx.patternableTypeById path, v with
      | .struct, .fields vs => MatchesList ctx reading args vs
      | .enum, .variant option vs =>
          option = ctx.enumVariantById path ∧ MatchesList ctx reading args vs
      | _, _ => False
  | _, _ => False

/-- The patterns match the values one by one. -/
def MatchesList (ctx : PatternContext) (reading : Reading) : List Pattern → List Value → Prop
  | [], [] => True
  | p :: ps, v :: vs => p.Matches ctx reading v ∧ MatchesList ctx reading ps vs
  | _, _ => False

end

end Spade.Hir

import Spade.Types

/-!
# Type variables

The types of `spade-typeinference/src/equation.rs` and `spade-types`: what type inference knows
about a type (`TypeVar`). Locations are left out.
-/

namespace Spade

/-- `MetaType`. -/
inductive MetaType where
  | any | type | number | int | uint
  deriving DecidableEq, Repr

/-- Whether what is meant is a number at the type level. -/
def MetaType.isNumber : MetaType → Bool
  | number | int | uint => true
  | any | type => false

/-- `KnownType`. -/
inductive KnownType where
  | named (name : NameID)
  | integer (val : ℤ)
  | tuple | array | backward | wire | inverted
  deriving DecidableEq, Repr

/-- `TraitName`. -/
inductive TraitName where
  | named (name : NameID)
  | anonymous (id : ℕ)
  deriving DecidableEq, Repr

namespace Typeinference

mutual

/-- `TypeVar`. -/
inductive TypeVar where
  /-- The base type is known and has a list of parameters. -/
  | known (base : KnownType) (params : List TypeVar)
  /-- The type is unknown, but must satisfy the traits. -/
  | unknown (id : ℕ) (traits : List TraitReq) (metaType : MetaType)

/-- `TraitReq`. -/
inductive TraitReq where
  | mk (name : TraitName) (typeParams : List TypeVar)

end

end Typeinference

end Spade

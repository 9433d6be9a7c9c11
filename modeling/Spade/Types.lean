import Mathlib.Algebra.Group.Int.Defs
import Mathlib.Algebra.Group.Nat.Defs
import Mathlib.Data.Nat.Notation
import Mathlib.Data.Int.Notation

/-!
# Names and concrete types

The ids of names (`NameID`) and the types of monomorphised code (`ConcreteType`), from
`spade-common` and `spade-types`. The names of structs and of the variants and members of enums
are left out, since only diagnostics read them.
-/

namespace Spade

/-- `NameID`: an id with the last part of its path, which is all that a value name keeps. -/
structure NameID where
  id : ℕ
  tail : String
  deriving DecidableEq, Repr

/-- `PrimitiveType`. -/
inductive PrimitiveType where
  | int | uint | clock | bool | bit | memory | void | inOut
  deriving DecidableEq, Repr

/-- `ConcreteType`. -/
inductive ConcreteType where
  | tuple (inner : List ConcreteType)
  | struct (members : List (String × ConcreteType))
  | array (inner : ConcreteType) (size : ℤ)
  | enum (options : List (List ConcreteType))
  | single (base : PrimitiveType) (params : List ConcreteType)
  /-- A number at the type level. -/
  | integer (value : ℤ)
  | backward (inner : ConcreteType)
  | wire (inner : ConcreteType)

namespace ConcreteType

/-- The smallest and the largest value of an integer type. -/
def bounds : ConcreteType → Option (ℤ × ℤ)
  | single .int [integer bits] => some (-2 ^ (bits.toNat - 1), 2 ^ (bits.toNat - 1) - 1)
  | single .uint [integer bits] => some (0, 2 ^ bits.toNat - 1)
  | _ => none

/-- Whether a value of the type is nothing but its bits for a pattern. -/
def isRaw : ConcreteType → Bool
  | single .bit _ | single .clock _ | single .void _ | single .memory _ | single .inOut _ => true
  | backward _ | wire _ => true
  | _ => false

/-- The types of data: integers of at least one bit and of a size that the compiler supports, the
other primitive types that a wire can carry, and what is built from them. -/
inductive IsData : ConcreteType → Prop where
  | int {bits : ℤ} (hpos : 1 ≤ bits) (hsize : bits < 2 ^ 128) : IsData (single .int [integer bits])
  | uint {bits : ℤ} (hpos : 1 ≤ bits) (hsize : bits < 2 ^ 128) :
      IsData (single .uint [integer bits])
  | bool : IsData (single .bool [])
  | bit : IsData (single .bit [])
  | clock : IsData (single .clock [])
  | void : IsData (single .void [])
  | tuple {inner : List ConcreteType} (h : ∀ ty ∈ inner, IsData ty) : IsData (tuple inner)
  | struct {members : List (String × ConcreteType)} (h : ∀ m ∈ members, IsData m.2) :
      IsData (struct members)
  | enum {options : List (List ConcreteType)} (h : ∀ o ∈ options, ∀ ty ∈ o, IsData ty) :
      IsData (enum options)

end ConcreteType

end Spade

import Spade.Types
import Spade.Mir.Syntax

/-!
# MIR types and value names

`MirLowerable::to_mir_type` and `NameIDExt::value_name` from `spade-hir-lowering/src/lib.rs`.
-/

namespace Spade

open Mir

/-- `NameIDExt::value_name`. -/
def NameID.valueName (n : NameID) : ValueName := .named n.id n.tail

namespace ConcreteType

/- `to_mir_type`, one function for every container the recursion goes through. A type is `none`
where the source panics. -/
mutual

/-- `to_mir_type`. -/
def toMirType : ConcreteType → Option Ty
  | tuple inner => do some (.tuple (← toMirTypes inner))
  | array inner size => do
      if size < 0 then none else some (.array (← inner.toMirType) size.toNat)
  | single .bool _ | single .clock _ | single .bit _ => some .bool
  | single .int [integer val] => if val < 0 then none else some (.int val.toNat)
  | single .uint [integer val] => if val < 0 then none else some (.uint val.toNat)
  | single .memory [inner, integer length] => do
      if length < 0 then none else some (.memory (← inner.toMirType) length.toNat)
  | single .void _ => some .void
  | single .inOut [inner] => do some (.inOut (← inner.toMirType))
  | single _ _ => none
  | integer _ => none
  | enum options => do some (.enum (← toMirOptions options))
  | struct members => do some (.struct (← toMirMembers members))
  | backward inner => do some (.backward (← inner.toMirType))
  | wire inner => inner.toMirType

def toMirTypes : List ConcreteType → Option (List Ty)
  | [] => some []
  | ty :: types => do some ((← ty.toMirType) :: (← toMirTypes types))

def toMirMembers : List (String × ConcreteType) → Option (List (String × Ty))
  | [] => some []
  | (name, ty) :: members => do some ((name, ← ty.toMirType) :: (← toMirMembers members))

def toMirOptions : List (List ConcreteType) → Option (List (List Ty))
  | [] => some []
  | types :: options => do some ((← toMirTypes types) :: (← toMirOptions options))

end

end ConcreteType

end Spade

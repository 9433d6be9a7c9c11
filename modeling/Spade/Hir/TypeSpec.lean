import Spade.Typeinference.TypeVar

/-!
# Type specifications and type declarations

The types as they are written in a program, from `spade-hir/src/lib.rs`. The names of the variants
of an enum and of their members are left out, as in `ConcreteType`.
-/

namespace Spade.Hir

/-- `ConstGeneric`. -/
inductive ConstGeneric where
  | name (name : NameID)
  | const (val : ℤ)
  | add (lhs rhs : ConstGeneric)
  | sub (lhs rhs : ConstGeneric)
  | mul (lhs rhs : ConstGeneric)
  | uintBitsToFit (inner : ConstGeneric)

mutual

/-- `TypeSpec`. -/
inductive TypeSpec where
  /-- A declared type with its arguments. -/
  | declared (name : NameID) (params : List TypeExpression)
  /-- A generic argument that is visible in the current scope. -/
  | generic (name : NameID)
  | tuple (inner : List TypeSpec)
  | array (inner : TypeSpec) (size : TypeExpression)
  | unit
  | backward (inner : TypeSpec)
  | inverted (inner : TypeSpec)
  | wire (inner : TypeSpec)
  | traitSelf
  | wildcard

/-- `TypeExpression`. -/
inductive TypeExpression where
  | integer (val : ℤ)
  | typeSpec (inner : TypeSpec)
  | constGeneric (inner : ConstGeneric)

end

/-- `TypeParam`. -/
structure TypeParam where
  nameId : NameID
  metaType : MetaType

/-- `TypeDeclKind`. -/
inductive TypeDeclKind where
  | enum (options : List (List TypeSpec))
  | primitive (base : PrimitiveType)
  | struct (members : List (String × TypeSpec))

/-- `TypeDeclaration`. -/
structure TypeDeclaration where
  kind : TypeDeclKind
  genericArgs : List TypeParam

/-- The types of the members of a struct, or of all variants of an enum. -/
def TypeDeclaration.fields (decl : TypeDeclaration) : List TypeSpec :=
  match decl.kind with
  | .enum options => options.flatten
  | .primitive _ => []
  | .struct members => members.map Prod.snd

namespace TypeSpec

/-- Induction on a specification, with the specifications in lists by membership. -/
@[elab_as_elim]
theorem specInduction {motive : TypeSpec → Prop} (spec : TypeSpec)
    (declared : ∀ name params, (∀ s, TypeExpression.typeSpec s ∈ params → motive s) →
      motive (.declared name params))
    (generic : ∀ name, motive (.generic name))
    (tuple : ∀ inner, (∀ s ∈ inner, motive s) → motive (.tuple inner))
    (array : ∀ inner size, motive inner → (∀ s, size = .typeSpec s → motive s) →
      motive (.array inner size))
    (unit : motive .unit)
    (backward : ∀ inner, motive inner → motive (.backward inner))
    (inverted : ∀ inner, motive inner → motive (.inverted inner))
    (wire : ∀ inner, motive inner → motive (.wire inner))
    (traitSelf : motive .traitSelf)
    (wildcard : motive .wildcard) : motive spec := by
  refine @TypeSpec.rec motive (fun e => ∀ s, e = .typeSpec s → motive s)
    (fun params => ∀ s, TypeExpression.typeSpec s ∈ params → motive s)
    (fun inner => ∀ s ∈ inner, motive s)
    declared generic tuple array unit backward inverted wire traitSelf wildcard
    (fun _ s h => by cases h) ?_ (fun _ s h => by cases h) ?_ ?_ ?_ ?_ spec
  · intro inner ih s h
    exact TypeExpression.typeSpec.inj h ▸ ih
  · intro s h
    exact absurd h List.not_mem_nil
  · intro e params ihe ih s h
    rcases List.mem_cons.mp h with h | h
    · exact ihe s h.symm
    · exact ih s h
  · intro s h
    exact absurd h List.not_mem_nil
  · intro spec inner ihspec ih s h
    rcases List.mem_cons.mp h with rfl | h
    · exact ihspec
    · exact ih s h

end TypeSpec

end Spade.Hir

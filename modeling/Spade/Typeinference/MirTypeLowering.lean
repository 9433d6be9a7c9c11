import Spade.Hir.TypeSpec
import Spade.Lib.OptionList

/-!
# Concretisation of types

The embedding of `spade-typeinference/src/mir_type_lowering.rs`: how declarations, specifications
and inferred types become concrete types, with a flag for the inversion of ports. A step is `none`
where the source panics or returns nothing.

The source follows declarations without a bound. Here the first argument of `typeDeclToConcrete` and
`typeSpecToConcrete` bounds how deeply they are nested.

* **Shapes** (`typeSpecToConcrete_tuple`, …): what the concrete type of each specification is.
-/

namespace Spade.Typeinference

open Hir

/-- The map from the generic arguments of a declaration to what stands for them. The last entry of a
name counts. -/
def genericSubs {α : Type} : List TypeParam → List α → NameID → Option α
  | arg :: args, a :: as, name =>
      match genericSubs args as name with
      | some b => some b
      | none => if name = arg.nameId then some a else none
  | _, _, _ => none

/-- What stands for a name in two lists that are related element by element. -/
theorem genericSubs_rel {α β : Type} {R : α → β → Prop} {as : List α} {bs : List β}
    (h : List.Forall₂ R as bs) (args : List TypeParam) (name : NameID) :
    (genericSubs args as name = none ∧ genericSubs args bs name = none) ∨
      ∃ a ∈ as, ∃ b, genericSubs args as name = some a ∧ genericSubs args bs name = some b ∧
        R a b := by
  induction h generalizing args with
  | nil => cases args <;> exact .inl ⟨rfl, rfl⟩
  | @cons a b as bs hab _ ih =>
      cases args with
      | nil => exact .inl ⟨rfl, rfl⟩
      | cons arg args =>
          rcases ih args with ⟨hnone, hnone'⟩ | ⟨a', ha', b', ha, hb, hR⟩
          · by_cases hname : name = arg.nameId
            · exact .inr ⟨a, List.mem_cons_self, b, by rw [genericSubs, hnone]; exact if_pos hname,
                by rw [genericSubs, hnone']; exact if_pos hname, hab⟩
            · exact .inl ⟨by rw [genericSubs, hnone]; exact if_neg hname,
                by rw [genericSubs, hnone']; exact if_neg hname⟩
          · exact .inr ⟨a', List.mem_cons_of_mem _ ha', b', by simp [genericSubs, ha],
              by simp [genericSubs, hb], hR⟩

/-- An element has the same partner in two lists, if its name has. -/
theorem genericSubs_common {α β : Type} {R S : α → β → Prop} {as : List α} {bs bs' : List β}
    (hR : List.Forall₂ R as bs) (hS : List.Forall₂ S as bs') {args : List TypeParam} {name : NameID}
    {a : α} (ha : genericSubs args as name = some a)
    (heq : genericSubs args bs name = genericSubs args bs' name) : ∃ b, R a b ∧ S a b := by
  rcases genericSubs_rel hR args name with ⟨hnone, -⟩ | ⟨a₁, -, b, ha₁, hb, hRb⟩
  · exact absurd ha (by simp [hnone])
  rcases genericSubs_rel hS args name with ⟨hnone, -⟩ | ⟨a₂, -, b', ha₂, hb', hSb⟩
  · exact absurd ha (by simp [hnone])
  obtain rfl := Option.some.inj (ha.symm.trans ha₁)
  obtain rfl := Option.some.inj (ha.symm.trans ha₂)
  rw [hb, hb'] at heq
  obtain rfl := Option.some.inj heq
  exact ⟨b, hRb, hSb⟩

theorem genericSubs_map {α β : Type} (f : α → β) (args : List TypeParam) (as : List α)
    (name : NameID) :
    genericSubs args (as.map f) name = (genericSubs args as name).map f := by
  induction args generalizing as with
  | nil => cases as <;> rfl
  | cons arg args ih =>
      cases as with
      | nil => rfl
      | cons a as =>
          rw [List.map_cons, genericSubs, genericSubs, ih as]
          cases genericSubs args as name with
          | some b => rfl
          | none =>
              by_cases hname : name = arg.nameId <;> simp [hname]

/-! ### Specifications and declarations -/

section

variable (declared : NameID → List ConcreteType → Bool → Option ConcreteType)
  (subs : NameID → Option ConcreteType)

/- `type_spec_to_concrete` and `type_expr_to_concrete`, with the concretisation of declared types as
an argument. -/
mutual

def typeSpecWith (invert : Bool) : TypeSpec → Option ConcreteType
  | .declared name params => do declared name (← typeExprsWith invert params) invert
  | .generic name => subs name
  | .tuple inner => do some (.tuple (← typeSpecsWith invert inner))
  | .array inner size => do
      match ← typeExprWith invert size with
      | .integer size => some (.array (← typeSpecWith invert inner) size)
      | _ => none
  | .unit => none
  | .backward inner => do
      let inner ← typeSpecWith invert inner
      some (if invert then .wire inner else .backward inner)
  | .wire inner => do
      let inner ← typeSpecWith invert inner
      some (if invert then .backward inner else .wire inner)
  -- an inversion below an inversion goes back to the normal direction
  | .inverted inner => typeSpecWith (!invert) inner
  | .traitSelf => none
  | .wildcard => none

def typeExprWith (invert : Bool) : TypeExpression → Option ConcreteType
  | .integer val => some (.integer val)
  | .typeSpec inner => typeSpecWith invert inner
  | .constGeneric _ => none

def typeSpecsWith (invert : Bool) : List TypeSpec → Option (List ConcreteType)
  | [] => some []
  | spec :: specs => do some ((← typeSpecWith invert spec) :: (← typeSpecsWith invert specs))

def typeExprsWith (invert : Bool) : List TypeExpression → Option (List ConcreteType)
  | [] => some []
  | e :: es => do some ((← typeExprWith invert e) :: (← typeExprsWith invert es))

end

end

/-- `TypeState::type_decl_to_concrete`, for declarations that are nested less deeply than `depth`. -/
def typeDeclToConcrete (types : NameID → Option TypeDeclaration) :
    ℕ → TypeDeclaration → List ConcreteType → Bool → Option ConcreteType
  | 0, _, _, _ => none
  | depth + 1, decl, params, invert =>
      let subs := genericSubs decl.genericArgs params
      let concrete := typeSpecWith
        (fun name params invert => do typeDeclToConcrete types depth (← types name) params invert) subs
      if params.length = decl.genericArgs.length then
        match decl.kind with
        | .enum options => do some (.enum (← options.mapM fun args => args.mapM (concrete false)))
        | .struct members => do
            some (.struct (← members.mapM fun m => do some (m.1, ← concrete invert m.2)))
        | .primitive base => some (.single base params)
      else none

/-- `TypeState::type_spec_to_concrete`. -/
def typeSpecToConcrete (types : NameID → Option TypeDeclaration) (depth : ℕ)
    (subs : NameID → Option ConcreteType) (invert : Bool) : TypeSpec → Option ConcreteType :=
  typeSpecWith
    (fun name params invert => do typeDeclToConcrete types depth (← types name) params invert)
    subs invert

/-- `TypeState::type_expr_to_concrete`. -/
def typeExprToConcrete (types : NameID → Option TypeDeclaration) (depth : ℕ)
    (subs : NameID → Option ConcreteType) (invert : Bool) : TypeExpression → Option ConcreteType :=
  typeExprWith
    (fun name params invert => do typeDeclToConcrete types depth (← types name) params invert)
    subs invert

/-! ### Inferred types -/

mutual

/-- `TypeState::inner_ungenerify_type`. -/
def innerUngenerifyType (types : NameID → Option TypeDeclaration) (depth : ℕ) (invert : Bool) :
    TypeVar → Option ConcreteType
  | .known (.named t) params => do
      let params ← innerUngenerifyTypes types depth invert params
      typeDeclToConcrete types depth (← types t) params invert
  | .known (.integer size) params => if params.isEmpty then some (.integer size) else none
  | .known .array (inner :: size :: _) => do
      let value ← innerUngenerifyType types depth invert inner
      match ← innerUngenerifyType types depth false size with
      | .integer size => some (.array value size)
      | _ => none
  | .known .tuple inner => do some (.tuple (← innerUngenerifyTypes types depth invert inner))
  | .known .backward (inner :: _) => do
      let inner ← innerUngenerifyType types depth invert inner
      some (if invert then .wire inner else .backward inner)
  | .known .wire (inner :: _) => do
      let inner ← innerUngenerifyType types depth invert inner
      some (if invert then .backward inner else .wire inner)
  | .known .inverted (inner :: _) => innerUngenerifyType types depth (!invert) inner
  | _ => none

def innerUngenerifyTypes (types : NameID → Option TypeDeclaration) (depth : ℕ) (invert : Bool) :
    List TypeVar → Option (List ConcreteType)
  | [] => some []
  | var :: vars => do
      some ((← innerUngenerifyType types depth invert var) ::
        (← innerUngenerifyTypes types depth invert vars))

end

/- `type_var_from_hir` and `hir_type_expr_to_var` on specifications without generic arguments. Where
the source makes a fresh unknown type, the result is `none`. -/
mutual

def typeVarFromHir : TypeSpec → Option TypeVar
  | .declared base params => do some (.known (.named base) (← hirTypeExprsToVars params))
  | .generic _ => none
  | .tuple inner => do some (.known .tuple (← typeVarsFromHir inner))
  | .array inner size => do
      some (.known .array [← typeVarFromHir inner, ← hirTypeExprToVar size])
  | .unit => none
  | .backward inner => do some (.known .backward [← typeVarFromHir inner])
  | .wire inner => do some (.known .wire [← typeVarFromHir inner])
  | .inverted inner => do some (.known .inverted [← typeVarFromHir inner])
  | .wildcard => none
  | .traitSelf => none

def hirTypeExprToVar : TypeExpression → Option TypeVar
  | .integer i => some (.known (.integer i) [])
  | .typeSpec spec => typeVarFromHir spec
  | .constGeneric _ => none

def typeVarsFromHir : List TypeSpec → Option (List TypeVar)
  | [] => some []
  | spec :: specs => do some ((← typeVarFromHir spec) :: (← typeVarsFromHir specs))

def hirTypeExprsToVars : List TypeExpression → Option (List TypeVar)
  | [] => some []
  | e :: es => do some ((← hirTypeExprToVar e) :: (← hirTypeExprsToVars es))

end

/-! ### Shapes -/

section shapes

variable {types : NameID → Option TypeDeclaration} {depth : ℕ} {subs : NameID → Option ConcreteType}
  {invert : Bool} {c : ConcreteType}

theorem typeSpecsWith_eq {declared : NameID → List ConcreteType → Bool → Option ConcreteType}
    (specs : List TypeSpec) : typeSpecsWith declared subs invert specs =
      specs.mapM (typeSpecWith declared subs invert) := by
  induction specs with
  | nil => rfl
  | cons spec specs ih => rw [typeSpecsWith, ih, List.mapM_cons]; rfl

theorem typeExprsWith_eq {declared : NameID → List ConcreteType → Bool → Option ConcreteType}
    (es : List TypeExpression) : typeExprsWith declared subs invert es =
      es.mapM (typeExprWith declared subs invert) := by
  induction es with
  | nil => rfl
  | cons e es ih => rw [typeExprsWith, ih, List.mapM_cons]; rfl

@[simp] theorem typeSpecToConcrete_generic (name : NameID) :
    typeSpecToConcrete types depth subs invert (.generic name) = subs name := rfl

@[simp] theorem typeSpecToConcrete_inverted (inner : TypeSpec) :
    typeSpecToConcrete types depth subs invert (.inverted inner) =
      typeSpecToConcrete types depth subs (!invert) inner := rfl

@[simp] theorem typeExprToConcrete_integer (val : ℤ) :
    typeExprToConcrete types depth subs invert (.integer val) = some (.integer val) := rfl

@[simp] theorem typeExprToConcrete_typeSpec (inner : TypeSpec) :
    typeExprToConcrete types depth subs invert (.typeSpec inner) =
      typeSpecToConcrete types depth subs invert inner := rfl

theorem typeSpecToConcrete_declared {name : NameID} {params : List TypeExpression} :
    typeSpecToConcrete types depth subs invert (.declared name params) = some c ↔
      ∃ decl ps, types name = some decl ∧
        List.Forall₂ (fun e p => typeExprToConcrete types depth subs invert e = some p) params ps ∧
        typeDeclToConcrete types depth decl ps invert = some c := by
  simp only [typeSpecToConcrete, typeSpecWith, typeExprsWith_eq, Option.bind_eq_bind,
    Option.bind_eq_some_iff, mapM_eq_some_iff]
  constructor
  · rintro ⟨ps, hps, decl, hdecl, hc⟩
    exact ⟨decl, ps, hdecl, hps, hc⟩
  · rintro ⟨decl, ps, hdecl, hps, hc⟩
    exact ⟨ps, hps, decl, hdecl, hc⟩

theorem typeSpecToConcrete_tuple {inner : List TypeSpec} :
    typeSpecToConcrete types depth subs invert (.tuple inner) = some c ↔
      ∃ cs, List.Forall₂ (fun s c => typeSpecToConcrete types depth subs invert s = some c)
        inner cs ∧ c = .tuple cs := by
  simp only [typeSpecToConcrete, typeSpecWith, typeSpecsWith_eq, Option.bind_eq_bind,
    Option.bind_eq_some_iff, mapM_eq_some_iff, Option.some.injEq, @eq_comm _ c]

theorem typeSpecToConcrete_array {inner : TypeSpec} {size : TypeExpression} :
    typeSpecToConcrete types depth subs invert (.array inner size) = some c ↔
      ∃ x n, typeExprToConcrete types depth subs invert size = some (.integer n) ∧
        typeSpecToConcrete types depth subs invert inner = some x ∧ c = .array x n := by
  simp only [typeSpecToConcrete, typeExprToConcrete, typeSpecWith, Option.bind_eq_bind,
    Option.bind_eq_some_iff]
  constructor
  · rintro ⟨size, hsize, hc⟩
    cases size with
    | integer n =>
        obtain ⟨x, hx, hc⟩ := Option.bind_eq_some_iff.mp hc
        exact ⟨x, n, hsize, hx, (Option.some.inj hc).symm⟩
    | _ => cases hc
  · rintro ⟨x, n, hsize, hx, rfl⟩
    exact ⟨_, hsize, by rw [hx]; rfl⟩

theorem typeSpecToConcrete_backward {inner : TypeSpec} :
    typeSpecToConcrete types depth subs invert (.backward inner) = some c ↔
      ∃ x, typeSpecToConcrete types depth subs invert inner = some x ∧
        c = if invert then .wire x else .backward x := by
  simp only [typeSpecToConcrete, typeSpecWith, Option.bind_eq_bind, Option.bind_eq_some_iff,
    Option.some.injEq, @eq_comm _ c]

theorem typeSpecToConcrete_wire {inner : TypeSpec} :
    typeSpecToConcrete types depth subs invert (.wire inner) = some c ↔
      ∃ x, typeSpecToConcrete types depth subs invert inner = some x ∧
        c = if invert then .backward x else .wire x := by
  simp only [typeSpecToConcrete, typeSpecWith, Option.bind_eq_bind, Option.bind_eq_some_iff,
    Option.some.injEq, @eq_comm _ c]

/-- The concrete type of a declaration at the concrete arguments. -/
theorem typeDeclToConcrete_succ {decl : TypeDeclaration} {params : List ConcreteType} :
    typeDeclToConcrete types (depth + 1) decl params invert = some c ↔
      params.length = decl.genericArgs.length ∧
        match decl.kind with
        | .enum options => ∃ css, List.Forall₂ (List.Forall₂ fun s c =>
            typeSpecToConcrete types depth (genericSubs decl.genericArgs params) false s = some c)
              options css ∧ c = .enum css
        | .struct members => ∃ cs, List.Forall₂ (fun m c => m.1 = c.1 ∧
            typeSpecToConcrete types depth (genericSubs decl.genericArgs params) invert m.2 =
              some c.2) members cs ∧ c = .struct cs
        | .primitive base => c = .single base params := by
  have hmember : ∀ (m : String × TypeSpec) (c : String × ConcreteType),
      (∃ x, typeSpecToConcrete types depth (genericSubs decl.genericArgs params) invert m.2 =
        some x ∧ (m.1, x) = c) ↔ m.1 = c.1 ∧
      typeSpecToConcrete types depth (genericSubs decl.genericArgs params) invert m.2 =
        some c.2 := by
    intro m c
    constructor
    · rintro ⟨x, hx, rfl⟩
      exact ⟨rfl, hx⟩
    · rintro ⟨hname, hx⟩
      exact ⟨c.2, hx, by rw [hname]⟩
  rw [typeDeclToConcrete]
  by_cases hlen : params.length = decl.genericArgs.length
  · rw [if_pos hlen]
    simp only [hlen, true_and]
    rcases decl.kind with options | base | members
    · simp only [Option.bind_eq_bind, Option.bind_eq_some_iff, mapM_eq_some_iff,
        Option.some.injEq, @eq_comm _ c]
      rfl
    · simp only [Option.some.injEq, @eq_comm _ c]
    · simp only [Option.bind_eq_bind, Option.bind_eq_some_iff, mapM_eq_some_iff, Option.some.injEq,
        @eq_comm _ (ConcreteType.struct _)]
      constructor
      · rintro ⟨cs, hcs, hc⟩
        exact ⟨cs, hcs.imp fun m c h => (hmember m c).mp h, hc⟩
      · rintro ⟨cs, hcs, hc⟩
        exact ⟨cs, hcs.imp fun m c h => (hmember m c).mpr h, hc⟩
  · rw [if_neg hlen]
    simp [hlen]

end shapes

end Spade.Typeinference

import Spade.Hir.TypeSpec

/-!
# Substitution in types

The equality of types (`PartialEq` of `TypeSpec`), the parts of a type, and the substitution of its
generics and of `Self`. A generic stands for a type or for an integer, so the substitution in a type
is partial: an integer is no type.
-/

namespace Spade.Hir

deriving instance DecidableEq for ConstGeneric

/-! ### Equality -/

mutual

/-- `PartialEq` of `TypeSpec`. -/
def TypeSpec.eq : TypeSpec → TypeSpec → Bool
  | .declared name params, .declared name' params' =>
      decide (name = name') && TypeExpression.eqAll params params'
  | .generic name, .generic name' => decide (name = name')
  | .tuple inner, .tuple inner' => TypeSpec.eqAll inner inner'
  | .array inner size, .array inner' size' => inner.eq inner' && size.eq size'
  | .unit, .unit => true
  | .backward inner, .backward inner' => inner.eq inner'
  | .inverted inner, .inverted inner' => inner.eq inner'
  | .wire inner, .wire inner' => inner.eq inner'
  | .traitSelf, .traitSelf => true
  | .wildcard, .wildcard => true
  | _, _ => false

/-- `PartialEq` of `TypeExpression`. -/
def TypeExpression.eq : TypeExpression → TypeExpression → Bool
  | .integer val, .integer val' => decide (val = val')
  | .typeSpec inner, .typeSpec inner' => inner.eq inner'
  | .constGeneric inner, .constGeneric inner' => decide (inner = inner')
  | _, _ => false

def TypeSpec.eqAll : List TypeSpec → List TypeSpec → Bool
  | [], [] => true
  | spec :: specs, spec' :: specs' => spec.eq spec' && TypeSpec.eqAll specs specs'
  | _, _ => false

def TypeExpression.eqAll : List TypeExpression → List TypeExpression → Bool
  | [], [] => true
  | e :: es, e' :: es' => e.eq e' && TypeExpression.eqAll es es'
  | _, _ => false

end

mutual

theorem TypeSpec.eq_iff : ∀ a b : TypeSpec, a.eq b = true ↔ a = b
  | .declared name params, b => by
      cases b <;> simp [TypeSpec.eq, TypeExpression.eqAll_iff params]
  | .generic name, b => by cases b <;> simp [TypeSpec.eq]
  | .tuple inner, b => by cases b <;> simp [TypeSpec.eq, TypeSpec.eqAll_iff inner]
  | .array inner size, b => by
      cases b <;> simp [TypeSpec.eq, TypeSpec.eq_iff inner, TypeExpression.eq_iff size]
  | .unit, b => by cases b <;> simp [TypeSpec.eq]
  | .backward inner, b => by cases b <;> simp [TypeSpec.eq, TypeSpec.eq_iff inner]
  | .inverted inner, b => by cases b <;> simp [TypeSpec.eq, TypeSpec.eq_iff inner]
  | .wire inner, b => by cases b <;> simp [TypeSpec.eq, TypeSpec.eq_iff inner]
  | .traitSelf, b => by cases b <;> simp [TypeSpec.eq]
  | .wildcard, b => by cases b <;> simp [TypeSpec.eq]

theorem TypeExpression.eq_iff : ∀ a b : TypeExpression, a.eq b = true ↔ a = b
  | .integer val, b => by cases b <;> simp [TypeExpression.eq]
  | .typeSpec inner, b => by cases b <;> simp [TypeExpression.eq, TypeSpec.eq_iff inner]
  | .constGeneric inner, b => by cases b <;> simp [TypeExpression.eq]

theorem TypeSpec.eqAll_iff : ∀ as bs : List TypeSpec, TypeSpec.eqAll as bs = true ↔ as = bs
  | [], bs => by cases bs <;> simp [TypeSpec.eqAll]
  | a :: as, bs => by
      cases bs <;> simp [TypeSpec.eqAll, TypeSpec.eq_iff a, TypeSpec.eqAll_iff as]

theorem TypeExpression.eqAll_iff :
    ∀ as bs : List TypeExpression, TypeExpression.eqAll as bs = true ↔ as = bs
  | [], bs => by cases bs <;> simp [TypeExpression.eqAll]
  | a :: as, bs => by
      cases bs <;> simp [TypeExpression.eqAll, TypeExpression.eq_iff a, TypeExpression.eqAll_iff as]

end

instance : DecidableEq TypeSpec := fun a b => decidable_of_iff _ (TypeSpec.eq_iff a b)

instance : DecidableEq TypeExpression := fun a b => decidable_of_iff _ (TypeExpression.eq_iff a b)

/-! ### Parts -/

mutual

/-- The type and the types, integers and const generics that it contains. -/
def TypeSpec.parts : TypeSpec → List TypeExpression
  | .declared name params => .typeSpec (.declared name params) :: TypeExpression.partsAll params
  | .generic name => [.typeSpec (.generic name)]
  | .tuple inner => .typeSpec (.tuple inner) :: TypeSpec.partsAll inner
  | .array inner size => .typeSpec (.array inner size) :: (inner.parts ++ size.parts)
  | .unit => [.typeSpec .unit]
  | .backward inner => .typeSpec (.backward inner) :: inner.parts
  | .inverted inner => .typeSpec (.inverted inner) :: inner.parts
  | .wire inner => .typeSpec (.wire inner) :: inner.parts
  | .traitSelf => [.typeSpec .traitSelf]
  | .wildcard => [.typeSpec .wildcard]

def TypeExpression.parts : TypeExpression → List TypeExpression
  | .integer val => [.integer val]
  | .typeSpec inner => inner.parts
  | .constGeneric inner => [.constGeneric inner]

def TypeSpec.partsAll : List TypeSpec → List TypeExpression
  | [] => []
  | spec :: specs => spec.parts ++ TypeSpec.partsAll specs

def TypeExpression.partsAll : List TypeExpression → List TypeExpression
  | [] => []
  | e :: es => e.parts ++ TypeExpression.partsAll es

end

/-- `Self` stands in the type or is the type. -/
abbrev TypeSpec.HasSelf (spec : TypeSpec) : Prop := .typeSpec .traitSelf ∈ spec.parts

/-- `Self` stands inside of the type. -/
def TypeSpec.SelfInside (spec : TypeSpec) : Prop := spec.HasSelf ∧ spec ≠ .traitSelf

/-! ### Substitution -/

/-- What the generics and `Self` stand for. -/
structure Assignment where
  generic : NameID → Option TypeExpression
  self : TypeSpec

/-- The name of a generic. -/
def TypeSpec.asGeneric : TypeSpec → Option NameID
  | .generic name => some name
  | _ => none

mutual

/-- The type with what is assigned to them for `Self` and for the generics. -/
def TypeSpec.subst (σ : Assignment) :
    TypeSpec → Option TypeSpec
  | .declared name params => (TypeExpression.substAll σ params).map (.declared name)
  | .generic name =>
      match σ.generic name with
      | some (.typeSpec spec) => some spec
      | _ => none
  | .tuple inner => (TypeSpec.substAll σ inner).map .tuple
  | .array inner size => do some (.array (← inner.subst σ) (← size.subst σ))
  | .unit => some .unit
  | .backward inner => (inner.subst σ).map .backward
  | .inverted inner => (inner.subst σ).map .inverted
  | .wire inner => (inner.subst σ).map .wire
  | .traitSelf => some σ.self
  | .wildcard => some .wildcard

def TypeExpression.subst (σ : Assignment) :
    TypeExpression → Option TypeExpression
  | .integer val => some (.integer val)
  | .typeSpec inner =>
      match inner.asGeneric with
      | some name => σ.generic name
      | none => (inner.subst σ).map .typeSpec
  | .constGeneric inner => some (.constGeneric inner)

def TypeSpec.substAll (σ : Assignment) :
    List TypeSpec → Option (List TypeSpec)
  | [] => some []
  | spec :: specs => do some ((← spec.subst σ) :: (← TypeSpec.substAll σ specs))

def TypeExpression.substAll (σ : Assignment) :
    List TypeExpression → Option (List TypeExpression)
  | [] => some []
  | e :: es => do some ((← e.subst σ) :: (← TypeExpression.substAll σ es))

end

variable {σ σ' : Assignment}

theorem TypeExpression.subst_typeSpec {spec result : TypeSpec} (h : spec.subst σ = some result) :
    (TypeExpression.typeSpec spec).subst σ = some (.typeSpec result) := by
  cases spec with
  | generic name =>
      simp only [TypeSpec.subst] at h
      split at h
      · next spec hname =>
          obtain rfl := Option.some.inj h
          exact hname
      · exact absurd h (by simp)
  | _ => simp only [TypeExpression.subst, TypeSpec.asGeneric, h, Option.map_some]

/-- `Self` does not come from a type that is not `Self` when it stands for itself. -/
theorem TypeSpec.eq_traitSelf_of_subst {spec : TypeSpec} (h : spec.subst σ = some .traitSelf)
    (hσ : ∀ name, σ.generic name ≠ some (.typeSpec .traitSelf)) : spec = .traitSelf := by
  cases spec with
  | generic name =>
      simp only [TypeSpec.subst] at h
      split at h
      · next spec hname =>
          obtain rfl := Option.some.inj h
          exact absurd hname (hσ name)
      · exact absurd h (by simp)
  | traitSelf => rfl
  | array inner size => simp [TypeSpec.subst, Option.bind_eq_some_iff] at h
  | _ => simp [TypeSpec.subst] at h

mutual

/-- What `Self` stands for does not matter for a type without it. -/
theorem TypeSpec.subst_congr (hσ : σ.generic = σ'.generic) :
    ∀ spec : TypeSpec, ¬ spec.HasSelf → spec.subst σ = spec.subst σ'
  | .declared name params, h => by
      simp only [TypeSpec.subst, TypeExpression.substAll_congr hσ params
        fun hp => h (List.mem_cons_of_mem _ hp)]
  | .generic name, _ => by simp only [TypeSpec.subst, hσ]
  | .tuple inner, h => by
      simp only [TypeSpec.subst, TypeSpec.substAll_congr hσ inner
        fun hp => h (List.mem_cons_of_mem _ hp)]
  | .array inner size, h => by
      simp only [TypeSpec.subst,
        TypeSpec.subst_congr hσ inner
          (fun hp => h (List.mem_cons_of_mem _ (List.mem_append_left _ hp))),
        TypeExpression.subst_congr hσ size
          (fun hp => h (List.mem_cons_of_mem _ (List.mem_append_right _ hp)))]
  | .unit, _ => rfl
  | .backward inner, h | .inverted inner, h | .wire inner, h => by
      simp only [TypeSpec.subst, TypeSpec.subst_congr hσ inner
        fun hp => h (List.mem_cons_of_mem _ hp)]
  | .traitSelf, h => absurd (List.mem_singleton_self _) h
  | .wildcard, _ => rfl

theorem TypeExpression.subst_congr (hσ : σ.generic = σ'.generic) : ∀ e : TypeExpression,
    .typeSpec .traitSelf ∉ e.parts → e.subst σ = e.subst σ'
  | .integer _, _ => rfl
  | .typeSpec inner, h => by
      simp only [TypeExpression.subst, TypeSpec.subst_congr hσ inner h, hσ]
  | .constGeneric _, _ => rfl

theorem TypeSpec.substAll_congr (hσ : σ.generic = σ'.generic) : ∀ specs : List TypeSpec,
    .typeSpec .traitSelf ∉ TypeSpec.partsAll specs →
      TypeSpec.substAll σ specs = TypeSpec.substAll σ' specs
  | [], _ => rfl
  | spec :: specs, h => by
      simp only [TypeSpec.substAll,
        TypeSpec.subst_congr hσ spec fun hp => h (List.mem_append_left _ hp),
        TypeSpec.substAll_congr hσ specs fun hp => h (List.mem_append_right _ hp)]

theorem TypeExpression.substAll_congr (hσ : σ.generic = σ'.generic) :
    ∀ es : List TypeExpression,
    .typeSpec .traitSelf ∉ TypeExpression.partsAll es →
      TypeExpression.substAll σ es = TypeExpression.substAll σ' es
  | [], _ => rfl
  | e :: es, h => by
      simp only [TypeExpression.substAll,
        TypeExpression.subst_congr hσ e fun hp => h (List.mem_append_left _ hp),
        TypeExpression.substAll_congr hσ es fun hp => h (List.mem_append_right _ hp)]

end

mutual

/-- `Self` is kept where what it stands for has it. -/
theorem TypeSpec.hasSelf_of_subst (hσ : σ.self.HasSelf) : ∀ (spec result : TypeSpec),
    spec.subst σ = some result → spec.HasSelf → result.HasSelf
  | .declared name params, result, h, hself => by
      obtain ⟨params', hparams, rfl⟩ := Option.map_eq_some_iff.mp h
      exact List.mem_cons_of_mem _ (TypeExpression.hasSelf_of_substAll hσ params params' hparams
        (by simpa [TypeSpec.HasSelf, TypeSpec.parts] using hself))
  | .generic name, _, _, hself => by simp [TypeSpec.HasSelf, TypeSpec.parts] at hself
  | .tuple inner, result, h, hself => by
      obtain ⟨inner', hinner, rfl⟩ := Option.map_eq_some_iff.mp h
      exact List.mem_cons_of_mem _ (TypeSpec.hasSelf_of_substAll hσ inner inner' hinner
        (by simpa [TypeSpec.HasSelf, TypeSpec.parts] using hself))
  | .array inner size, result, h, hself => by
      simp only [TypeSpec.subst, Option.bind_eq_bind, Option.bind_eq_some_iff,
        Option.some.injEq] at h
      obtain ⟨inner', hinner, size', hsize, rfl⟩ := h
      refine List.mem_cons_of_mem _ (List.mem_append.mpr ?_)
      have hself' : .typeSpec .traitSelf ∈ inner.parts ∨ .typeSpec .traitSelf ∈ size.parts := by
        simpa [TypeSpec.HasSelf, TypeSpec.parts] using hself
      exact hself'.imp (TypeSpec.hasSelf_of_subst hσ inner inner' hinner)
        (TypeExpression.hasSelf_of_subst hσ size size' hsize)
  | .unit, _, _, hself => by simp [TypeSpec.HasSelf, TypeSpec.parts] at hself
  | .backward inner, result, h, hself | .inverted inner, result, h, hself
  | .wire inner, result, h, hself => by
      obtain ⟨inner', hinner, rfl⟩ := Option.map_eq_some_iff.mp h
      exact List.mem_cons_of_mem _ (TypeSpec.hasSelf_of_subst hσ inner inner' hinner
        (by simpa [TypeSpec.HasSelf, TypeSpec.parts] using hself))
  | .traitSelf, result, h, _ => by
      obtain rfl := Option.some.inj h
      exact hσ
  | .wildcard, _, _, hself => by simp [TypeSpec.HasSelf, TypeSpec.parts] at hself

theorem TypeExpression.hasSelf_of_subst (hσ : σ.self.HasSelf) : ∀ (e result : TypeExpression),
    e.subst σ = some result → .typeSpec .traitSelf ∈ e.parts →
      .typeSpec .traitSelf ∈ result.parts
  | .integer _, _, _, hself => by simp [TypeExpression.parts] at hself
  | .typeSpec inner, result, h, hself => by
      have hgeneric : inner.asGeneric = none := by
        cases inner <;> simp_all [TypeSpec.asGeneric, TypeExpression.parts, TypeSpec.parts]
      simp only [TypeExpression.subst, hgeneric] at h
      obtain ⟨inner', hinner, rfl⟩ := Option.map_eq_some_iff.mp h
      exact TypeSpec.hasSelf_of_subst hσ inner inner' hinner hself
  | .constGeneric _, _, _, hself => by simp [TypeExpression.parts] at hself

theorem TypeSpec.hasSelf_of_substAll (hσ : σ.self.HasSelf) : ∀ specs results : List TypeSpec,
    TypeSpec.substAll σ specs = some results →
      .typeSpec .traitSelf ∈ TypeSpec.partsAll specs →
        .typeSpec .traitSelf ∈ TypeSpec.partsAll results
  | [], _, _, hself => absurd hself List.not_mem_nil
  | spec :: specs, results, h, hself => by
      simp only [TypeSpec.substAll, Option.bind_eq_bind, Option.bind_eq_some_iff,
        Option.some.injEq] at h
      obtain ⟨spec', hspec, specs', hspecs, rfl⟩ := h
      exact List.mem_append.mpr ((List.mem_append.mp hself).imp
        (TypeSpec.hasSelf_of_subst hσ spec spec' hspec)
        (TypeSpec.hasSelf_of_substAll hσ specs specs' hspecs))

theorem TypeExpression.hasSelf_of_substAll (hσ : σ.self.HasSelf) :
    ∀ es results : List TypeExpression,
    TypeExpression.substAll σ es = some results →
      .typeSpec .traitSelf ∈ TypeExpression.partsAll es →
        .typeSpec .traitSelf ∈ TypeExpression.partsAll results
  | [], _, _, hself => absurd hself List.not_mem_nil
  | e :: es, results, h, hself => by
      simp only [TypeExpression.substAll, Option.bind_eq_bind, Option.bind_eq_some_iff,
        Option.some.injEq] at h
      obtain ⟨e', he, es', hes, rfl⟩ := h
      exact List.mem_append.mpr ((List.mem_append.mp hself).imp
        (TypeExpression.hasSelf_of_subst hσ e e' he)
        (TypeExpression.hasSelf_of_substAll hσ es es' hes))

end

end Spade.Hir

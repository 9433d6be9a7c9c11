import Mathlib.Data.Finset.Basic
import Mathlib.Data.Finset.Union
import Spade.Typeinference.OccursCheck

/-!
# The shape of a type

What is left of a type when the parameters of its traits, and the order of the traits, are forgotten
(`TypeVar.shape`), and type states whose types have the same shapes (`Agrees`).

* **Replacement** (`Agrees.replace`, `agrees_replace_comm`): states that agree do so after a
  replacement, and two types can be replaced by an unknown one in either order.
* **Lookup** (`Agrees.shape_check`): types of the same shape are looked up to types of the same
  shape.
-/

namespace Spade.Typeinference

/-! ### Types -/

/-- A type without the parameters of its traits. -/
inductive Shape where
  | known (base : KnownType) (params : List Shape)
  | unknown (id : ℕ) (traits : Finset TraitName) (metaType : MetaType)

/-- The names of the traits. -/
def traitNames (traits : List TraitReq) : Finset TraitName := (traits.map TraitReq.name).toFinset

mutual

/-- The shape of a type. -/
def TypeVar.shape : TypeVar → Shape
  | .known base params => .known base (TypeVar.shapes params)
  | .unknown id traits metaType => .unknown id (traitNames traits) metaType

def TypeVar.shapes : List TypeVar → List Shape
  | [] => []
  | t :: ts => t.shape :: TypeVar.shapes ts

end

theorem TypeVar.shapes_eq (ts : List TypeVar) : TypeVar.shapes ts = ts.map TypeVar.shape := by
  induction ts with
  | nil => rfl
  | cons t ts ih => rw [TypeVar.shapes, ih, List.map_cons]

mutual

/-- Types of one shape are the same type for the comparison. -/
theorem TypeVar.same_of_shape : ∀ t u : TypeVar, t.shape = u.shape → t.same u = true
  | .known base params, .known base' params', h => by
      rw [TypeVar.shape, TypeVar.shape, Shape.known.injEq] at h
      rw [TypeVar.same, Bool.and_eq_true, beq_iff_eq]
      exact ⟨h.1, TypeVar.sameAll_of_shapes params params' h.2⟩
  | .unknown id _ metaType, .unknown id' _ metaType', h => by
      rw [TypeVar.shape, TypeVar.shape, Shape.unknown.injEq] at h
      rw [TypeVar.same, Bool.and_eq_true, beq_iff_eq, beq_iff_eq]
      exact ⟨h.1, h.2.2⟩

theorem TypeVar.sameAll_of_shapes : ∀ ts us : List TypeVar,
    TypeVar.shapes ts = TypeVar.shapes us → TypeVar.sameAll ts us = true
  | [], [], _ => rfl
  | t :: ts, u :: us, h => by
      rw [TypeVar.shapes, TypeVar.shapes, List.cons.injEq] at h
      rw [TypeVar.sameAll, Bool.and_eq_true]
      exact ⟨TypeVar.same_of_shape t u h.1, TypeVar.sameAll_of_shapes ts us h.2⟩

end

/-! ### Replacement -/

mutual

/-- An unknown type is replaced in a shape. -/
def Shape.replace (s : Shape) (id : ℕ) (new : Shape) : Shape :=
  match s with
  | .known base params => .known base (Shape.replaceAll params id new)
  | .unknown id' traits metaType => if id' = id then new else .unknown id' traits metaType
termination_by structural s

def Shape.replaceAll (ss : List Shape) (id : ℕ) (new : Shape) : List Shape :=
  match ss with
  | [] => []
  | s :: ss => s.replace id new :: Shape.replaceAll ss id new
termination_by structural ss

end

theorem traitNames_replaceAll (traits : List TraitReq) (old new : TypeVar) :
    traitNames (TraitReq.replaceAll traits old new) = traitNames traits := by
  have hnames : (TraitReq.replaceAll traits old new).map TraitReq.name =
      traits.map TraitReq.name := by
    induction traits with
    | nil => rfl
    | cons req traits ih =>
        cases req
        rw [TraitReq.replaceAll, TraitReq.replace, List.map_cons, List.map_cons, ih]
        rfl
  rw [traitNames, hnames, traitNames]

mutual

theorem TypeVar.shape_replace (id : ℕ) (traits : List TraitReq) (metaType : MetaType)
    (new : TypeVar) : ∀ t : TypeVar,
    (t.replace (.unknown id traits metaType) new).shape = t.shape.replace id new.shape
  | .known base params => by
      have hparams := TypeVar.shapes_replaceAll id traits metaType new params
      rw [TypeVar.replace, TypeVar.shape, Shape.replace, ← hparams]
      rfl
  | .unknown id' traits' metaType' => by
      rw [TypeVar.replace, TypeVar.shape, Shape.replace]
      change (if (id' == id) = true then new else _).shape = _
      by_cases h : id' = id
      · rw [if_pos (beq_iff_eq.mpr h), if_pos h]
      · rw [if_neg (mt beq_iff_eq.mp h), if_neg h, TypeVar.shape, traitNames_replaceAll]

theorem TypeVar.shapes_replaceAll (id : ℕ) (traits : List TraitReq) (metaType : MetaType)
    (new : TypeVar) : ∀ ts : List TypeVar,
    TypeVar.shapes (TypeVar.replaceAll ts (.unknown id traits metaType) new) =
      Shape.replaceAll (TypeVar.shapes ts) id new.shape
  | [] => rfl
  | t :: ts => by
      rw [TypeVar.replaceAll, TypeVar.shapes, TypeVar.shapes, Shape.replaceAll,
        TypeVar.shape_replace id traits metaType new t,
        TypeVar.shapes_replaceAll id traits metaType new ts]

end

theorem Shape.replace_unknown (id' : ℕ) (traits : Finset TraitName) (metaType : MetaType) (id : ℕ)
    (new : Shape) : (Shape.unknown id' traits metaType).replace id new =
      if id' = id then new else .unknown id' traits metaType := rfl

section commute

variable (id₁ id₂ id : ℕ) (traits : Finset TraitName) (metaType : MetaType)

theorem Shape.replace_unknown_self :
    (Shape.unknown id traits metaType).replace id₁ (.unknown id traits metaType) =
      .unknown id traits metaType := ite_self _

mutual

/-- Two types are replaced by an unknown one in either order. -/
theorem Shape.replace_comm : ∀ s : Shape,
    (s.replace id₁ (.unknown id traits metaType)).replace id₂ (.unknown id traits metaType) =
      (s.replace id₂ (.unknown id traits metaType)).replace id₁ (.unknown id traits metaType)
  | .known base params => by
      simp only [Shape.replace, Shape.replaceAll_comm params]
  | .unknown id' traits' metaType' => by
      have hself := fun i => Shape.replace_unknown_self i id traits metaType
      rw [replace_unknown, replace_unknown]
      by_cases h₁ : id' = id₁ <;> by_cases h₂ : id' = id₂
      · rw [if_pos h₁, if_pos h₂, hself, hself]
      · rw [if_pos h₁, if_neg h₂, hself, replace_unknown, if_pos h₁]
      · rw [if_neg h₁, if_pos h₂, hself, replace_unknown, if_pos h₂]
      · rw [if_neg h₁, if_neg h₂, replace_unknown, if_neg h₂, replace_unknown, if_neg h₁]

theorem Shape.replaceAll_comm : ∀ ss : List Shape,
    Shape.replaceAll (Shape.replaceAll ss id₁ (.unknown id traits metaType)) id₂
        (.unknown id traits metaType) =
      Shape.replaceAll (Shape.replaceAll ss id₂ (.unknown id traits metaType)) id₁
        (.unknown id traits metaType)
  | [] => rfl
  | s :: ss => by
      simp only [Shape.replaceAll, Shape.replace_comm s, Shape.replaceAll_comm ss]

end

end commute

/-! ### Constraints -/

/-- A constraint expression over shapes. -/
inductive ExprShape where
  | integer (val : ℤ)
  | var (s : Shape)
  | sum (lhs rhs : ExprShape)
  | difference (lhs rhs : ExprShape)
  | product (lhs rhs : ExprShape)
  | sub (inner : ExprShape)
  | uintBitsToRepresent (inner : ExprShape)

namespace ConstraintExpr

/-- The shape of an expression. -/
def shape : ConstraintExpr → ExprShape
  | integer val => .integer val
  | var v => .var v.shape
  | sum lhs rhs => .sum lhs.shape rhs.shape
  | difference lhs rhs => .difference lhs.shape rhs.shape
  | product lhs rhs => .product lhs.shape rhs.shape
  | sub inner => .sub inner.shape
  | uintBitsToRepresent inner => .uintBitsToRepresent inner.shape

end ConstraintExpr

namespace ExprShape

/-- A variable that is known becomes an integer. -/
def ofShape : Shape → ExprShape
  | .known (.integer val) _ => .integer val
  | s => .var s

/-- An unknown type is replaced in an expression. -/
def replace (id : ℕ) (new : Shape) : ExprShape → ExprShape
  | integer val => integer val
  | var s => ofShape (s.replace id new)
  | sum lhs rhs => sum (lhs.replace id new) (rhs.replace id new)
  | difference lhs rhs => difference (lhs.replace id new) (rhs.replace id new)
  | product lhs rhs => product (lhs.replace id new) (rhs.replace id new)
  | sub inner => sub (inner.replace id new)
  | uintBitsToRepresent inner => uintBitsToRepresent (inner.replace id new)

/-- The value of an expression without variables. -/
def value (bits : ℤ → ℤ) : ExprShape → Option ℤ
  | integer val => some val
  | var _ => none
  | sum lhs rhs => do some ((← lhs.value bits) + (← rhs.value bits))
  | difference lhs rhs => do some ((← lhs.value bits) - (← rhs.value bits))
  | product lhs rhs => do some ((← lhs.value bits) * (← rhs.value bits))
  | sub inner => do some (-(← inner.value bits))
  | uintBitsToRepresent inner => do some (bits (← inner.value bits))

theorem replace_comm (id₁ id₂ id : ℕ) (traits : Finset TraitName) (metaType : MetaType)
    (e : ExprShape) :
    (e.replace id₁ (.unknown id traits metaType)).replace id₂ (.unknown id traits metaType) =
      (e.replace id₂ (.unknown id traits metaType)).replace id₁ (.unknown id traits metaType) := by
  induction e with
  | integer val => rfl
  | var s =>
      have hcomm := Shape.replace_comm id₁ id₂ id traits metaType s
      -- what an unknown type is replaced by is unknown again
      have hunknown : ∀ i j id' traits' metaType',
          (ofShape ((Shape.unknown id' traits' metaType').replace i
            (.unknown id traits metaType))).replace j (.unknown id traits metaType) =
          ofShape (((Shape.unknown id' traits' metaType').replace i
            (.unknown id traits metaType)).replace j (.unknown id traits metaType)) := by
        intro i j id' traits' metaType'
        rw [Shape.replace_unknown]
        split_ifs <;> rfl
      cases s with
      | known base params =>
          cases base with
          | integer val => rfl
          | _ => exact congrArg ofShape hcomm
      | unknown id' traits' metaType' =>
          rw [replace, replace, hunknown, hunknown, hcomm]
  | sum lhs rhs ihl ihr | difference lhs rhs ihl ihr | product lhs rhs ihl ihr =>
      simp only [replace, ihl, ihr]
  | sub inner ih | uintBitsToRepresent inner ih => simp only [replace, ih]

end ExprShape

namespace ConstraintExpr

theorem shape_replace (id : ℕ) (traits : List TraitReq) (metaType : MetaType) (new : TypeVar)
    (e : ConstraintExpr) :
    (e.replace (.unknown id traits metaType) new).shape = e.shape.replace id new.shape := by
  induction e with
  | integer val => rfl
  | var v =>
      rw [replace, shape, ExprShape.replace, ← TypeVar.shape_replace id traits metaType]
      cases v.replace (.unknown id traits metaType) new with
      | known base params => cases base <;> rfl
      | unknown id' traits' metaType' => rfl
  | sum lhs rhs ihl ihr | difference lhs rhs ihl ihr | product lhs rhs ihl ihr =>
      simp only [replace, shape, ExprShape.replace, ihl, ihr]
  | sub inner ih | uintBitsToRepresent inner ih =>
      simp only [replace, shape, ExprShape.replace, ih]

theorem evaluateBinary_eq_self {op : ℤ → ℤ → ℤ} {self l r : ConstraintExpr}
    (h : (∀ val, l ≠ integer val) ∨ ∀ val, r ≠ integer val) : evaluateBinary op self l r = self := by
  unfold evaluateBinary
  split
  · rcases h with h | h <;> exact absurd rfl (h _)
  · rfl

theorem evaluateUnary_eq_self {op : ℤ → ℤ} {self inner : ConstraintExpr}
    (h : ∀ val, inner ≠ integer val) : evaluateUnary op self inner = self := by
  unfold evaluateUnary
  split
  · exact absurd rfl (h _)
  · rfl

/-- An expression without variables is evaluated to its value, and another one stays as it is. -/
theorem evaluate_eq_value (bits : ℤ → ℤ) (e : ConstraintExpr) :
    match e.shape.value bits with
    | some val => e.evaluate bits = integer val
    | none => e.evaluate bits = e ∧ ∀ val, e ≠ integer val := by
  induction e with
  | integer val => rfl
  | var v => exact ⟨rfl, nofun⟩
  | sum lhs rhs ihl ihr | difference lhs rhs ihl ihr | product lhs rhs ihl ihr =>
      rw [shape, ExprShape.value]
      cases hl : lhs.shape.value bits with
      | none =>
          rw [hl] at ihl
          refine ⟨?_, nofun⟩
          rw [evaluate, ihl.1, evaluateBinary_eq_self (.inl ihl.2)]
      | some l =>
          rw [hl] at ihl
          cases hr : rhs.shape.value bits with
          | none =>
              rw [hr] at ihr
              refine ⟨?_, nofun⟩
              rw [evaluate, ihr.1, evaluateBinary_eq_self (.inr ihr.2)]
          | some r =>
              rw [hr] at ihr
              change evaluate bits _ = integer _
              rw [evaluate, ihl, ihr, evaluateBinary]
  | sub inner ih | uintBitsToRepresent inner ih =>
      rw [shape, ExprShape.value]
      cases hinner : inner.shape.value bits with
      | none =>
          rw [hinner] at ih
          refine ⟨?_, nofun⟩
          rw [evaluate, ih.1, evaluateUnary_eq_self ih.2]
      | some val =>
          rw [hinner] at ih
          change evaluate bits _ = integer _
          rw [evaluate, ih, evaluateUnary]

end ConstraintExpr

/-! ### States -/

/-- The types of a requirement. -/
def Requirement.types : Requirement → List TypeVar
  | hasField targetType _ expr => [targetType, expr]
  | hasMethod _ targetType _ _ expr => [targetType, expr]
  | fitsIntLiteral (.generic var) targetType => [var, targetType]
  | fitsIntLiteral (.literal _) targetType => [targetType]
  | validPipelineOffset definitionDepth currentStage referenceOffset =>
      [definitionDepth, currentStage, referenceOffset]
  | positivePipelineDepth depth => [depth]
  | sharedBase types => types

theorem Requirement.types_replace (old new : TypeVar) (r : Requirement) :
    (r.replace old new).types = r.types.map (·.replace old new) := by
  cases r with
  | fitsIntLiteral value targetType => cases value <;> rfl
  | _ => rfl

/-- The types of a pipeline. -/
def PipelineState.types (state : PipelineState) : List TypeVar :=
  [state.currentStageDepth, state.totalDepth]

/-- The shapes of the types in the tables of a state. -/
@[ext]
structure StateShape where
  equations : TypedExpression → Option Shape
  nextTypeid : ℕ
  genericLists : GenericListToken → NameID → Option Shape
  constraints : List (Shape × ExprShape)
  requirements : List (List Shape)
  pipelineState : Option (List Shape)
  traitImpls : NameID → List (TraitName × List Shape)

/-- The shape of a state. -/
def TypeState.shape (s : TypeState) : StateShape where
  equations e := (s.equations e).map TypeVar.shape
  nextTypeid := s.nextTypeid
  genericLists token name := (s.genericLists token name).map TypeVar.shape
  constraints := s.constraints.map fun c => (c.1.shape, c.2.shape)
  requirements := s.requirements.map fun r => r.types.map TypeVar.shape
  pipelineState := s.pipelineState.map fun p => p.types.map TypeVar.shape
  traitImpls name := (s.traitImpls name).map fun i => (i.name, i.typeParams.map TypeVar.shape)

/-- An unknown type is replaced in all tables. -/
def StateShape.replace (id : ℕ) (new : Shape) (s : StateShape) : StateShape where
  equations e := (s.equations e).map (·.replace id new)
  nextTypeid := s.nextTypeid
  genericLists token name := (s.genericLists token name).map (·.replace id new)
  constraints := s.constraints.map fun c => (c.1.replace id new, c.2.replace id new)
  requirements := s.requirements.map (List.map (·.replace id new))
  pipelineState := s.pipelineState.map (List.map (·.replace id new))
  traitImpls name := (s.traitImpls name).map fun i => (i.1, i.2.map (·.replace id new))

theorem TypeState.shape_replace (id : ℕ) (traits : List TraitReq) (metaType : MetaType)
    (new : TypeVar) (s : TypeState) :
    (s.replace (.unknown id traits metaType) new).shape = s.shape.replace id new.shape := by
  have htype := TypeVar.shape_replace id traits metaType new
  have hexpr := ConstraintExpr.shape_replace id traits metaType new
  ext1
  · funext e
    simp [shape, TypeState.replace, StateShape.replace, Function.comp_def, htype]
  · rfl
  · funext token name
    simp [shape, TypeState.replace, StateShape.replace, Function.comp_def, htype]
  · simp [shape, TypeState.replace, StateShape.replace, Function.comp_def, htype, hexpr]
  · simp [shape, TypeState.replace, StateShape.replace, Function.comp_def, htype,
      Requirement.types_replace]
  · simp [shape, TypeState.replace, StateShape.replace, Function.comp_def, htype,
      PipelineState.types, PipelineState.replace]
  · funext name
    simp [shape, TypeState.replace, StateShape.replace, Function.comp_def, htype]

theorem StateShape.replace_comm (id₁ id₂ id : ℕ) (traits : Finset TraitName)
    (metaType : MetaType) (s : StateShape) :
    (s.replace id₁ (.unknown id traits metaType)).replace id₂ (.unknown id traits metaType) =
      (s.replace id₂ (.unknown id traits metaType)).replace id₁ (.unknown id traits metaType) := by
  have htype := Shape.replace_comm id₁ id₂ id traits metaType
  have hexpr := ExprShape.replace_comm id₁ id₂ id traits metaType
  simp only [replace, List.map_map, Option.map_map, Function.comp_def, htype, hexpr]

/-- The types in the tables of two states have the same shapes, and every type is looked up to types
of the same shape. -/
structure Agrees (s t : TypeState) : Prop where
  shape : s.shape = t.shape
  get : ∀ v, (s.replacements.get v).map TypeVar.shape = (t.replacements.get v).map TypeVar.shape

theorem Agrees.refl (s : TypeState) : Agrees s s := ⟨rfl, fun _ => rfl⟩

theorem Agrees.trans {s t u : TypeState} (h : Agrees s t) (h' : Agrees t u) : Agrees s u :=
  ⟨h.shape.trans h'.shape, fun v => (h.get v).trans (h'.get v)⟩

theorem Agrees.nextTypeid {s t : TypeState} (h : Agrees s t) : s.nextTypeid = t.nextTypeid :=
  congrArg StateShape.nextTypeid h.shape

theorem TypeVar.same_unknown {id : ℕ} {traits traits' : List TraitReq} {metaType : MetaType}
    (v : TypeVar) : TypeVar.same (.unknown id traits metaType) v =
      TypeVar.same (.unknown id traits' metaType) v := by
  cases v <;> rfl

/-- An unknown type is replaced in both states. -/
theorem Agrees.replace {s t : TypeState} (h : Agrees s t) {id : ℕ} {traits traits' : List TraitReq}
    {metaType : MetaType} {new new' : TypeVar} (hnew : new.shape = new'.shape) :
    Agrees (s.replace (.unknown id traits metaType) new)
      (t.replace (.unknown id traits' metaType) new') where
  shape := by rw [TypeState.shape_replace, TypeState.shape_replace, h.shape, hnew]
  get v := by
    change (Replacements.get (_ :: _) v).map _ = (Replacements.get (_ :: _) v).map _
    rw [Replacements.get_cons, Replacements.get_cons,
      @TypeVar.same_unknown id traits traits' metaType v]
    split_ifs
    · exact congrArg some hnew
    · exact h.get v

/-- Two types are replaced by an unknown one in either order. -/
theorem agrees_replace_comm (s : TypeState) {id₁ id₂ id : ℕ} {traits₁ traits₂ traits : List TraitReq}
    {meta₁ meta₂ metaType : MetaType} :
    Agrees
      ((s.replace (.unknown id₁ traits₁ meta₁) (.unknown id traits metaType)).replace
        (.unknown id₂ traits₂ meta₂) (.unknown id traits metaType))
      ((s.replace (.unknown id₂ traits₂ meta₂) (.unknown id traits metaType)).replace
        (.unknown id₁ traits₁ meta₁) (.unknown id traits metaType)) where
  shape := by
    simp only [TypeState.shape_replace]
    exact StateShape.replace_comm id₁ id₂ id (traitNames traits) metaType s.shape
  get v := by
    change (Replacements.get (_ :: _ :: _) v).map _ = (Replacements.get (_ :: _ :: _) v).map _
    simp only [Replacements.get_cons]
    split_ifs <;> rfl

/-! ### Lookup -/

theorem traitNames_checkAll (traits : List TraitReq) (replacements : Replacements) :
    traitNames (TraitReq.checkAll replacements traits) = traitNames traits := by
  have hnames : (TraitReq.checkAll replacements traits).map TraitReq.name =
      traits.map TraitReq.name := by
    induction traits with
    | nil => rfl
    | cons req traits ih =>
        cases req
        rw [TraitReq.checkAll, TraitReq.check, List.map_cons, List.map_cons, ih]
        rfl
  rw [traitNames, hnames, traitNames]

theorem Agrees.get_of_shape {s t : TypeState} (h : Agrees s t) {v w : TypeVar}
    (hvw : v.shape = w.shape) :
    (s.replacements.get v).map TypeVar.shape = (t.replacements.get w).map TypeVar.shape := by
  rw [h.get v, Replacements.get_congr (TypeVar.same_of_shape v w hvw)]

mutual

theorem Agrees.shape_check {s t : TypeState} (h : Agrees s t) : ∀ v w : TypeVar,
    v.shape = w.shape → (v.check s.replacements).shape = (w.check t.replacements).shape
  | .known base params, .known base' params', hvw => by
      have hget := h.get_of_shape hvw
      rw [TypeVar.shape, TypeVar.shape, Shape.known.injEq] at hvw
      rw [TypeVar.check, TypeVar.check]
      cases hs : s.replacements.get (.known base params) <;>
        cases ht : t.replacements.get (.known base' params') <;> rw [hs, ht] at hget
      · change Shape.known _ _ = Shape.known _ _
        rw [hvw.1, h.shapes_check params params' hvw.2]
      · cases hget
      · cases hget
      · exact Option.some.inj hget
  | .unknown id traits metaType, .unknown id' traits' metaType', hvw => by
      have hget := h.get_of_shape hvw
      rw [TypeVar.check, TypeVar.check]
      cases hs : s.replacements.get (.unknown id traits metaType) <;>
        cases ht : t.replacements.get (.unknown id' traits' metaType') <;> rw [hs, ht] at hget
      · change Shape.unknown _ _ _ = Shape.unknown _ _ _
        rw [traitNames_checkAll, traitNames_checkAll]
        exact hvw
      · cases hget
      · cases hget
      · exact Option.some.inj hget

theorem Agrees.shapes_check {s t : TypeState} (h : Agrees s t) : ∀ vs ws : List TypeVar,
    TypeVar.shapes vs = TypeVar.shapes ws →
      TypeVar.shapes (TypeVar.checkAll s.replacements vs) =
        TypeVar.shapes (TypeVar.checkAll t.replacements ws)
  | [], [], _ => rfl
  | v :: vs, w :: ws, hvw => by
      rw [TypeVar.shapes, TypeVar.shapes, List.cons.injEq] at hvw
      rw [TypeVar.checkAll, TypeVar.checkAll, TypeVar.shapes, TypeVar.shapes,
        h.shape_check v w hvw.1, h.shapes_check vs ws hvw.2]

end

end Spade.Typeinference

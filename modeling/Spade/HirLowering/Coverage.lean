import Spade.HirLowering.Patterns
import Mathlib.Algebra.Order.Ring.Int
import Mathlib.Tactic.Positivity
import Mathlib.Tactic.NormNum

/-!
# What deconstructed patterns cover

The values that a deconstructed pattern covers as the usefulness algorithm takes it
(`DeconstructedPattern.Covers`).

* **Lowered patterns** (`fromHir_spec`): a well-typed pattern is lowered to a well-typed
  deconstructed pattern that covers what the pattern matches when integer literals are read as
  `ranged` says: a literal also matches its successor, and the largest one matches nothing.
* **Integer ranges** (`splitIntRange_spec`): splitting a range at the edges of other ranges gives
  consecutive ranges that contain no edge but their first value.
-/

namespace Spade.HirLowering

open Hir

/-- The reading of an integer literal that its lowering to a range amounts to. -/
def ranged : Reading := fun ty literal n =>
  literal ≤ n ∧ n ≤ literal + 1 ∧ ∃ bounds, ty.bounds = some bounds ∧ literal + 1 ≤ bounds.2

namespace DeconstructedPattern

mutual

/-- The pattern covers the value. -/
def Covers : DeconstructedPattern → Value → Prop
  | mk .wildcard _ _, _ => True
  | mk .single fields _, .fields vs => CoversList fields vs
  | mk (.variant option) fields _, .variant option' vs => option' = option ∧ CoversList fields vs
  | mk (.bool b) _ _, .bool b' => b = b'
  | mk (.intRange min max) _ ty, .int n =>
      min ≤ n ∧ n ≤ max ∧ ∃ bounds, ty.bounds = some bounds ∧ max ≤ bounds.2
  | _, _ => False

/-- The patterns cover the values one by one. -/
def CoversList : List DeconstructedPattern → List Value → Prop
  | [], [] => True
  | p :: ps, v :: vs => p.Covers v ∧ CoversList ps vs
  | _, _ => False

end

mutual

/-- The pattern has type `ty` and its constructor is one of this type. -/
def WellTyped : DeconstructedPattern → ConcreteType → Prop
  | mk .wildcard _ ty', ty => ty' = ty
  | mk .single fields ty', ty => ty' = ty ∧
      match ty with
      | .tuple types => WellTypedList fields types
      | .struct members => WellTypedList fields (members.map Prod.snd)
      | .array type size => WellTypedList fields (List.replicate size.toNat type)
      | _ => False
  | mk (.variant option) fields ty', ty => ty' = ty ∧
      match ty with
      | .enum options =>
          match options[option]? with
          | some types => WellTypedList fields types
          | none => False
      | _ => False
  | mk (.bool _) fields ty', ty => ty' = ty ∧ ty = .single .bool [] ∧ fields = []
  | mk (.intRange min max) fields ty', ty =>
      ty' = ty ∧ max = min + 1 ∧ ty.bounds.isSome ∧ fields = []
  | mk (.missing _) _ _, _ => False

/-- The patterns have the types one by one. -/
def WellTypedList : List DeconstructedPattern → List ConcreteType → Prop
  | [], [] => True
  | p :: ps, ty :: types => p.WellTyped ty ∧ WellTypedList ps types
  | _, _ => False

end

/-! ### Lowered patterns -/

mutual

/-- **Lowered patterns.** A well-typed pattern is lowered to a pattern that covers what it
matches. -/
theorem fromHir_spec (ctx : PatternContext) : ∀ (p : Pattern) (ty : ConcreteType),
    p.WellTyped ctx ty → ∃ d, fromHir ctx p = some d ∧ d.WellTyped ty ∧
      ∀ v, d.Covers v ↔ p.Matches ctx ranged v
  | .integer id val, ty, h => by
      obtain ⟨rfl, hbounds⟩ := h
      refine ⟨_, rfl, ⟨rfl, rfl, hbounds, rfl⟩, fun v => ?_⟩
      cases v <;> simp [Covers, Pattern.Matches, ranged]
  | .bool id b, ty, h => by
      obtain ⟨rfl, hty⟩ := h
      refine ⟨_, rfl, ⟨rfl, hty, rfl⟩, fun v => ?_⟩
      cases v <;> simp [Covers, Pattern.Matches]
  | .name id name, ty, h => by
      obtain rfl := h
      exact ⟨_, rfl, rfl, fun v => by simp [Covers, Pattern.Matches]⟩
  | .tuple id inner, ty, h => by
      obtain ⟨rfl, h⟩ := h
      rcases hty : ctx.typeOfId id with types | _ | _ | _ | _ | _ | _ | _ <;> rw [hty] at h
      case tuple =>
        obtain ⟨fields, hfields, htyped, hcovers⟩ := fromHirList_spec ctx inner types h
        refine ⟨mk .single fields (.tuple types), by simp [fromHir, hfields, hty], ⟨rfl, htyped⟩,
          fun v => ?_⟩
        cases v <;> simp [Covers, Pattern.Matches, hcovers]
      all_goals exact h.elim
  | .array id inner, ty, h => by
      obtain ⟨rfl, h⟩ := h
      rcases hty : ctx.typeOfId id with _ | _ | ⟨type, size⟩ | _ | _ | _ | _ | _ <;> rw [hty] at h
      case array =>
        obtain ⟨-, rfl, h⟩ := h
        obtain ⟨fields, hfields, htyped, hcovers⟩ := fromHirList_spec ctx inner _ h
        refine ⟨mk .single fields (.array type inner.length), by simp [fromHir, hfields, hty],
          ⟨rfl, htyped⟩, fun v => ?_⟩
        cases v <;> simp [Covers, Pattern.Matches, hcovers]
      all_goals exact h.elim
  | .type id path targets args, ty, h => by
      obtain ⟨rfl, h⟩ := h
      rcases hkind : ctx.patternableTypeById path with _ | _ <;>
        rcases hty : ctx.typeOfId id with _ | members | _ | options | _ | _ | _ | _ <;>
        simp only [hkind, hty] at h
      case enum.enum =>
        rcases hoption : options[ctx.enumVariantById path]? with _ | types <;> rw [hoption] at h
        · exact h.elim
        obtain ⟨fields, hfields, htyped, hcovers⟩ := fromHirList_spec ctx args types h.2
        refine ⟨mk (.variant (ctx.enumVariantById path)) fields (.enum options),
          by simp [fromHir, hfields, hty, hkind], ⟨rfl, by simpa [hoption] using htyped⟩,
          fun v => ?_⟩
        cases v <;> simp [Covers, Pattern.Matches, hcovers, hkind]
      case struct.struct =>
        obtain ⟨fields, hfields, htyped, hcovers⟩ := fromHirList_spec ctx args _ h.2.2.2
        refine ⟨mk .single fields (.struct members), by simp [fromHir, hfields, hty, hkind],
          ⟨rfl, htyped⟩, fun v => ?_⟩
        cases v <;> simp [Covers, Pattern.Matches, hcovers, hkind]

theorem fromHirList_spec (ctx : PatternContext) :
    ∀ (ps : List Pattern) (types : List ConcreteType), Hir.WellTypedList ctx ps types →
      ∃ ds, fromHirList ctx ps = some ds ∧ WellTypedList ds types ∧
        ∀ vs, CoversList ds vs ↔ MatchesList ctx ranged ps vs
  | [], [], _ => ⟨[], rfl, trivial, fun vs => by cases vs <;> simp [CoversList, MatchesList]⟩
  | p :: ps, ty :: types, h => by
      obtain ⟨d, hd, htyped, hcovers⟩ := fromHir_spec ctx p ty h.1
      obtain ⟨ds, hds, htypeds, hcoverss⟩ := fromHirList_spec ctx ps types h.2
      refine ⟨d :: ds, by simp [fromHirList, hd, hds], ⟨htyped, htypeds⟩, fun vs => ?_⟩
      cases vs <;> simp [CoversList, MatchesList, hcovers, hcoverss]
  | [], _ :: _, h => h.elim
  | _ :: _, [], h => h.elim

end

theorem WellTyped.ty_eq {p : DeconstructedPattern} {ty : ConcreteType} (h : p.WellTyped ty) :
    p.ty = ty := by
  obtain ⟨_ | b | option | ⟨min, max⟩ | all | _, fields, ty'⟩ := p
  case missing => exact h.elim
  case wildcard => exact h
  all_goals exact h.1

/-! ### Lists of values -/

theorem coversList_append {ps qs : List DeconstructedPattern} {vs ws : List Value}
    (h : ps.length = vs.length) :
    CoversList (ps ++ qs) (vs ++ ws) ↔ CoversList ps vs ∧ CoversList qs ws := by
  induction ps generalizing vs with
  | nil =>
      obtain rfl := List.length_eq_zero_iff.mp h.symm
      simp [CoversList]
  | cons p ps ih =>
      obtain _ | ⟨v, vs⟩ := vs
      · simp at h
      · simp only [List.cons_append, CoversList, ih (by simpa using h), and_assoc]

theorem wellTypedList_append {ps qs : List DeconstructedPattern} {types types' : List ConcreteType}
    (hp : WellTypedList ps types) (hq : WellTypedList qs types') :
    WellTypedList (ps ++ qs) (types ++ types') := by
  induction ps generalizing types with
  | nil =>
      cases types with
      | nil => exact hq
      | cons ty types => exact hp.elim
  | cons p ps ih =>
      cases types with
      | nil => exact hp.elim
      | cons ty types => exact ⟨hp.1, ih hp.2⟩

theorem WellTypedList.length_eq {ps : List DeconstructedPattern} {types : List ConcreteType}
    (h : WellTypedList ps types) : ps.length = types.length := by
  induction ps generalizing types with
  | nil =>
      cases types with
      | nil => rfl
      | cons ty types => exact h.elim
  | cons p ps ih =>
      cases types with
      | nil => exact h.elim
      | cons ty types => simp [ih h.2]

theorem wellTypedList_wildcards (types : List ConcreteType) :
    WellTypedList (types.map wildcard) types := by
  induction types with
  | nil => trivial
  | cons ty types ih => exact ⟨rfl, ih⟩

theorem coversList_wildcards {types : List ConcreteType} {vs : List Value}
    (h : vs.length = types.length) : CoversList (types.map wildcard) vs := by
  induction types generalizing vs with
  | nil =>
      obtain rfl := List.length_eq_zero_iff.mp h
      trivial
  | cons ty types ih =>
      obtain _ | ⟨v, vs⟩ := vs
      · simp at h
      · exact ⟨trivial, ih (by simpa using h)⟩

end DeconstructedPattern

/-! ### Integer ranges -/

/-- The pieces of the range from `low` to `max` at the edges in between. -/
theorem splitAtEdges_spec {low max : ℤ} {edges : List ℤ} (hsorted : (low :: edges).Pairwise (· < ·))
    (hmax : ∀ e ∈ low :: edges, e < max) :
    (∀ n, low ≤ n → n ≤ max → ∃ a b, .intRange a b ∈ splitAtEdges low max edges ∧ a ≤ n ∧ n ≤ b) ∧
      ∀ c ∈ splitAtEdges low max edges, ∃ a b, c = .intRange a b ∧ low ≤ a ∧ a ≤ b ∧ b ≤ max ∧
        a < max ∧ ∀ e ∈ edges, ¬(a < e ∧ e ≤ b) := by
  induction edges generalizing low with
  | nil =>
      refine ⟨fun n hlow hn => ⟨low, max, List.mem_singleton_self _, hlow, hn⟩, fun c hc => ?_⟩
      obtain rfl := List.mem_singleton.mp hc
      have hlow := hmax low List.mem_cons_self
      exact ⟨low, max, rfl, le_refl _, hlow.le, le_refl _, hlow, by simp⟩
  | cons edge edges ih =>
      rw [List.pairwise_cons] at hsorted
      have hedge := hsorted.1 edge List.mem_cons_self
      obtain ⟨hcover, hpieces⟩ := ih hsorted.2 fun e he => hmax e (List.mem_cons_of_mem _ he)
      refine ⟨fun n hlow hn => ?_, fun c hc => ?_⟩
      · rcases lt_or_ge n edge with hlt | hge
        · exact ⟨low, edge - 1, List.mem_cons_self, hlow, by omega⟩
        · obtain ⟨a, b, hmem, hab⟩ := hcover n hge hn
          exact ⟨a, b, List.mem_cons_of_mem _ hmem, hab⟩
      · have hedgemax := hmax edge (List.mem_cons_of_mem _ List.mem_cons_self)
        rcases List.mem_cons.mp hc with rfl | hc
        · refine ⟨low, edge - 1, rfl, le_refl _, by omega, by omega, by omega, fun e he hae => ?_⟩
          rcases List.mem_cons.mp he with rfl | he
          · omega
          · have := (List.pairwise_cons.mp hsorted.2).1 e he
            omega
        · obtain ⟨a, b, rfl, hlow, hab, hb, ha, hnone⟩ := hpieces c hc
          refine ⟨a, b, rfl, by omega, hab, hb, ha, fun e he => ?_⟩
          rcases List.mem_cons.mp he with rfl | he
          · omega
          · exact hnone e he

theorem rangeEdges_spec {cs : List Constructor} (h : ∀ c ∈ cs, ∃ a b, c = .intRange a b) :
    ∃ edges, rangeEdges cs = some edges ∧
      ∀ a b, .intRange a b ∈ cs → a ∈ edges ∧ b ∈ edges := by
  induction cs with
  | nil => exact ⟨[], rfl, fun a b h => absurd h List.not_mem_nil⟩
  | cons c cs ih =>
      rw [List.forall_mem_cons] at h
      obtain ⟨⟨a, b, rfl⟩, hcs⟩ := h
      obtain ⟨edges, hedges, hmem⟩ := ih hcs
      refine ⟨a :: b :: edges, by simp [rangeEdges, Constructor.asRange, hedges],
        fun a' b' h => ?_⟩
      rcases List.mem_cons.mp h with h | h
      · obtain ⟨rfl, rfl⟩ : a' = a ∧ b' = b := by simpa using h
        simp
      · have := hmem a' b' h
        simp [this]

/-- **Integer ranges.** The range is split into pieces, and no piece contains the lower end or
the upper end of another range but as its first value. -/
theorem splitIntRange_spec {min max : ℤ} (hlt : min < max) {others : List Constructor}
    (hothers : ∀ c ∈ others, ∃ a b, c = .intRange a b) :
    ∃ ctors, splitIntRange min max others = some ctors ∧
      (∀ n, min ≤ n → n ≤ max → ∃ a b, .intRange a b ∈ ctors ∧ a ≤ n ∧ n ≤ b) ∧
      ∀ c ∈ ctors, ∃ a b, c = .intRange a b ∧ min ≤ a ∧ a ≤ b ∧ b ≤ max ∧ a < max ∧
        ∀ low high, .intRange low high ∈ others → ∀ e, e = low ∨ e = high →
          e < max → ¬(a < e ∧ e ≤ b) := by
  obtain ⟨edges, hedges, hmem⟩ := rangeEdges_spec hothers
  have hsorted : (min :: ((edges.insertionSort (· ≤ ·)).dedup.filter
      fun e => decide (min < e) && decide (e < max))).Pairwise (· < ·) := by
    refine List.pairwise_cons.mpr ⟨fun e he => ?_, List.Pairwise.filter _ ?_⟩
    · simp only [List.mem_filter, Bool.and_eq_true, decide_eq_true_eq] at he
      exact he.2.1
    · have hle : (edges.insertionSort (· ≤ ·)).dedup.Pairwise (· ≤ ·) :=
        (List.pairwise_insertionSort (· ≤ ·) edges).sublist (List.dedup_sublist _)
      exact hle.imp₂ (fun a b hab hne => lt_of_le_of_ne hab hne) (List.nodup_dedup _)
  have hmax : ∀ e ∈ min :: ((edges.insertionSort (· ≤ ·)).dedup.filter
      fun e => decide (min < e) && decide (e < max)), e < max := by
    intro e he
    rcases List.mem_cons.mp he with rfl | he
    · exact hlt
    · simp only [List.mem_filter, Bool.and_eq_true, decide_eq_true_eq] at he
      exact he.2.2
  obtain ⟨hcover, hpieces⟩ := splitAtEdges_spec hsorted hmax
  refine ⟨_, by simp [splitIntRange, hedges], hcover, fun c hc => ?_⟩
  obtain ⟨a, b, rfl, ha, hab, hb, hamax, hnone⟩ := hpieces c hc
  refine ⟨a, b, rfl, ha, hab, hb, hamax, fun low high hother e he hemax hae => ?_⟩
  refine hnone e ?_ hae
  simp only [List.mem_filter, List.mem_dedup, List.mem_insertionSort, Bool.and_eq_true,
    decide_eq_true_eq]
  obtain ⟨hlow, hhigh⟩ := hmem low high hother
  refine ⟨?_, by omega, hemax⟩
  rcases he with rfl | rfl <;> assumption

/-! ### Splitting a wildcard -/

/-- Values that have the given types and that patterns can be compared with. -/
def ComparableValues (vs : List Value) (types : List ConcreteType) : Prop :=
  HasTypeList vs types ∧ ComparableList vs

/-- A row with head `p` is kept when a matrix is specialized to `c`, and the subpatterns of `p`
cover the values. -/
def Accepts (c : Constructor) (p : DeconstructedPattern) (vs : List Value) : Prop :=
  c.isCoveredBy p.ctor = some true ∧ ∃ fields, p.specialize c = some fields ∧
    DeconstructedPattern.CoversList fields vs

/-- What the constructors stand for that the values of a type are split into, where `heads` are
the patterns of the matrix in this column. -/
structure Splits (ty : ConcreteType) (heads : List DeconstructedPattern)
    (ctors : List Constructor) : Prop where
  covered : ∀ c ∈ ctors, ∀ p ∈ heads, ∃ b, c.isCoveredBy p.ctor = some b
  fields : ∀ c ∈ ctors, ∃ types, c.fields ty = some types
  specialized : ∀ c ∈ ctors, ∀ types, c.fields ty = some types → ∀ p ∈ heads,
    c.isCoveredBy p.ctor = some true → ∃ fields, p.specialize c = some fields ∧
      DeconstructedPattern.WellTypedList fields types
  missing : ∀ c ∈ ctors, ∀ all, c = .missing all →
    all ≠ [] ∧ ∀ c' ∈ all, c'.fields ty = some []
  /-- Every value belongs to a constructor, and what the patterns do not cover is not accepted. -/
  exists_ctor : ∀ v, v.HasType ty → v.Comparable → ∃ c ∈ ctors, ∃ types vs,
    c.fields ty = some types ∧ ComparableValues vs types ∧
      ∀ p ∈ heads, Accepts c p vs → p.Covers v
  /-- Every constructor has a value that is covered by no more patterns than accept it. -/
  exists_value : ∀ c ∈ ctors, ∀ types vs, c.fields ty = some types → ComparableValues vs types →
    ∃ v : Value, v.HasType ty ∧ v.Comparable ∧ ∀ p ∈ heads, p.Covers v → Accepts c p vs

section Split

variable {ty : ConcreteType} {heads : List DeconstructedPattern}

open DeconstructedPattern

theorem HasTypeList.length_eq {vs : List Value} {types : List ConcreteType}
    (h : HasTypeList vs types) : vs.length = types.length := by
  induction vs generalizing types with
  | nil =>
      cases types with
      | nil => rfl
      | cons ty types => exact h.elim
  | cons v vs ih =>
      cases types with
      | nil => exact h.elim
      | cons ty types => simp [ih h.2]

theorem specialize_wildcard {c : Constructor} {types : List ConcreteType}
    (h : c.fields ty = some types)
    (fields : List DeconstructedPattern) :
    (mk .wildcard fields ty).specialize c = some (types.map wildcard) := by
  simp [specialize, ctor, DeconstructedPattern.ty, wildFromCtor, h, DeconstructedPattern.fields]

/-- A wildcard accepts everything. -/
theorem accepts_wildcard {c : Constructor} {types : List ConcreteType} {vs : List Value}
    (h : c.fields ty = some types) (hvs : HasTypeList vs types)
    (fields : List DeconstructedPattern) : Accepts c (mk .wildcard fields ty) vs :=
  ⟨by cases c <;> rfl, types.map wildcard, specialize_wildcard h fields,
    coversList_wildcards (HasTypeList.length_eq hvs)⟩

/-! #### Records -/

/-- A tuple or struct with members of the given types. -/
inductive IsRecord : ConcreteType → List ConcreteType → Prop where
  | tuple (types : List ConcreteType) : IsRecord (.tuple types) types
  | struct (members : List (String × ConcreteType)) :
      IsRecord (.struct members) (members.map Prod.snd)

variable {types : List ConcreteType}

theorem IsRecord.fields_single (h : IsRecord ty types) :
    Constructor.single.fields ty = some types := by
  cases h <;> rfl

theorem IsRecord.hasType_iff (h : IsRecord ty types) (v : Value) :
    v.HasType ty ↔ ∃ vs, v = .fields vs ∧ HasTypeList vs types := by
  cases h <;> cases v <;> simp [Value.HasType, ConcreteType.bounds, ConcreteType.isRaw]

theorem IsRecord.wellTyped (h : IsRecord ty types) {p : DeconstructedPattern}
    (hp : p.WellTyped ty) : (∃ fields, p = mk .wildcard fields ty) ∨
      ∃ fields, p = mk .single fields ty ∧ WellTypedList fields types := by
  obtain ⟨_ | b | option | ⟨min, max⟩ | all | _, fields, ty'⟩ := p <;> cases h <;>
    simp_all [WellTyped, ConcreteType.bounds]

theorem IsRecord.splits (h : IsRecord ty types) (hheads : ∀ p ∈ heads, p.WellTyped ty) :
    Splits ty heads [.single] where
  covered c hc p hp := by
    obtain rfl := List.mem_singleton.mp hc
    rcases h.wellTyped (hheads p hp) with ⟨fields, rfl⟩ | ⟨fields, rfl, -⟩ <;> exact ⟨true, rfl⟩
  fields c hc := by
    obtain rfl := List.mem_singleton.mp hc
    exact ⟨types, h.fields_single⟩
  specialized c hc types' htypes p hp _ := by
    obtain rfl := List.mem_singleton.mp hc
    obtain rfl : types = types' := Option.some.inj (h.fields_single.symm.trans htypes)
    rcases h.wellTyped (hheads p hp) with ⟨fields, rfl⟩ | ⟨fields, rfl, htyped⟩
    · exact ⟨_, specialize_wildcard htypes fields, wellTypedList_wildcards types⟩
    · exact ⟨fields, rfl, htyped⟩
  missing c hc all hall := by
    obtain rfl := List.mem_singleton.mp hc
    exact absurd hall (by simp)
  exists_ctor v hv hcomparable := by
    obtain ⟨vs, rfl, hvs⟩ := (h.hasType_iff v).mp hv
    refine ⟨.single, List.mem_singleton_self _, types, vs, h.fields_single, ⟨hvs, hcomparable⟩,
      fun p hp haccepts => ?_⟩
    rcases h.wellTyped (hheads p hp) with ⟨fields, rfl⟩ | ⟨fields, rfl, -⟩
    · simp [Covers]
    · obtain ⟨-, fields', hfields, hcovers⟩ := haccepts
      obtain rfl : fields = fields' := Option.some.inj hfields
      simpa [Covers] using hcovers
  exists_value c hc types' vs htypes hvs := by
    obtain rfl := List.mem_singleton.mp hc
    obtain rfl : types = types' := Option.some.inj (h.fields_single.symm.trans htypes)
    refine ⟨.fields vs, (h.hasType_iff _).mpr ⟨vs, rfl, hvs.1⟩, hvs.2, fun p hp hcovers => ?_⟩
    rcases h.wellTyped (hheads p hp) with ⟨fields, rfl⟩ | ⟨fields, rfl, -⟩
    · exact accepts_wildcard h.fields_single hvs.1 fields
    · exact ⟨rfl, fields, rfl, by simpa [Covers] using hcovers⟩

/-! #### Enums -/

theorem wellTyped_enum {options : List (List ConcreteType)} {p : DeconstructedPattern}
    (hp : p.WellTyped (.enum options)) : (∃ fields, p = mk .wildcard fields (.enum options)) ∨
      ∃ option fields types, p = mk (.variant option) fields (.enum options) ∧
        options[option]? = some types ∧ WellTypedList fields types := by
  obtain ⟨_ | b | option | ⟨min, max⟩ | all | _, fields, ty'⟩ := p
  case variant =>
    obtain ⟨rfl, h⟩ := hp
    rcases hoption : options[option]? with _ | types <;> simp only [hoption] at h
    exact Or.inr ⟨option, fields, types, rfl, hoption, h⟩
  all_goals simp_all [WellTyped, ConcreteType.bounds]

theorem hasType_enum {options : List (List ConcreteType)} {v : Value} :
    v.HasType (.enum options) ↔ ∃ option vs types, v = .variant option vs ∧
      options[option]? = some types ∧ HasTypeList vs types := by
  cases v with
  | variant option vs =>
      rcases hoption : options[option]? with _ | types <;> simp [Value.HasType, hoption]
  | _ => simp [Value.HasType, ConcreteType.bounds, ConcreteType.isRaw]

theorem mem_variants {options : List (List ConcreteType)} {c : Constructor} :
    c ∈ (List.range options.length).map Constructor.variant ↔
      ∃ option types, c = .variant option ∧ options[option]? = some types := by
  simp only [List.mem_map, List.mem_range]
  constructor
  · rintro ⟨option, hoption, rfl⟩
    exact ⟨option, _, rfl, List.getElem?_eq_getElem hoption⟩
  · rintro ⟨option, types, rfl, htypes⟩
    exact ⟨option, (List.getElem?_eq_some_iff.mp htypes).1, rfl⟩

theorem splits_enum {options : List (List ConcreteType)}
    (hheads : ∀ p ∈ heads, p.WellTyped (.enum options)) :
    Splits (.enum options) heads ((List.range options.length).map .variant) where
  covered c hc p hp := by
    obtain ⟨option, types, rfl, htypes⟩ := mem_variants.mp hc
    rcases wellTyped_enum (hheads p hp) with ⟨fields, rfl⟩ | ⟨_, fields, _, rfl, -⟩ <;>
      exact ⟨_, rfl⟩
  fields c hc := by
    obtain ⟨option, types, rfl, htypes⟩ := mem_variants.mp hc
    exact ⟨types, htypes⟩
  specialized c hc types htypes p hp hcovered := by
    obtain ⟨option, _, rfl, -⟩ := mem_variants.mp hc
    rcases wellTyped_enum (hheads p hp) with ⟨fields, rfl⟩ | ⟨option', fields, types', rfl, h, htyped⟩
    · exact ⟨_, specialize_wildcard htypes fields, wellTypedList_wildcards types⟩
    · obtain rfl : option = option' := by simpa [Constructor.isCoveredBy, ctor] using hcovered
      obtain rfl : types' = types := Option.some.inj (h.symm.trans htypes)
      exact ⟨fields, rfl, htyped⟩
  missing c hc all hall := by
    obtain ⟨option, types, rfl, -⟩ := mem_variants.mp hc
    exact absurd hall (by simp)
  exists_ctor v hv hcomparable := by
    obtain ⟨option, vs, types, rfl, htypes, hvs⟩ := hasType_enum.mp hv
    refine ⟨.variant option, mem_variants.mpr ⟨option, types, rfl, htypes⟩, types, vs, htypes,
      ⟨hvs, hcomparable⟩, fun p hp haccepts => ?_⟩
    obtain ⟨hcovered, fields', hfields, hcovers⟩ := haccepts
    rcases wellTyped_enum (hheads p hp) with ⟨fields, rfl⟩ | ⟨option', fields, types', rfl, -⟩
    · simp [Covers]
    · obtain rfl : option = option' := by simpa [Constructor.isCoveredBy, ctor] using hcovered
      obtain rfl : fields = fields' := Option.some.inj hfields
      exact ⟨rfl, hcovers⟩
  exists_value c hc types vs htypes hvs := by
    obtain ⟨option, _, rfl, -⟩ := mem_variants.mp hc
    refine ⟨.variant option vs, hasType_enum.mpr ⟨option, vs, types, rfl, htypes, hvs.1⟩, hvs.2,
      fun p hp hcovers => ?_⟩
    rcases wellTyped_enum (hheads p hp) with ⟨fields, rfl⟩ | ⟨option', fields, types', rfl, -⟩
    · exact accepts_wildcard htypes hvs.1 fields
    · obtain ⟨rfl, hcovers⟩ : option = option' ∧ CoversList fields vs := hcovers
      exact ⟨by simp [Constructor.isCoveredBy, ctor], fields, rfl, hcovers⟩

/-! #### Booleans -/

theorem wellTyped_bool {p : DeconstructedPattern} (hp : p.WellTyped (.single .bool [])) :
    (∃ fields, p = mk .wildcard fields (.single .bool [])) ∨
      ∃ b, p = mk (.bool b) [] (.single .bool []) := by
  obtain ⟨_ | b | option | ⟨min, max⟩ | all | _, fields, ty'⟩ := p <;>
    simp_all [WellTyped, ConcreteType.bounds]

theorem hasType_bool {v : Value} : v.HasType (.single .bool []) ↔ ∃ b, v = .bool b := by
  cases v <;> simp [Value.HasType, ConcreteType.bounds, ConcreteType.isRaw]

theorem coveredByAny_bool {others : List Constructor} (h : ∀ c ∈ others, ∃ b, c = .bool b)
    (b : Bool) : ∃ covered, coveredByAny (.bool b) others = some covered ∧
      (covered = true ↔ .bool b ∈ others) := by
  induction others with
  | nil => exact ⟨false, rfl, by simp⟩
  | cons c others ih =>
      rw [List.forall_mem_cons] at h
      obtain ⟨⟨b', rfl⟩, hothers⟩ := h
      obtain ⟨covered, hcovered, hmem⟩ := ih hothers
      by_cases hb : b = b'
      · exact ⟨true, by simp [coveredByAny, Constructor.isCoveredBy, hb], by simp [hb]⟩
      · exact ⟨covered, by simp [coveredByAny, Constructor.isCoveredBy, hb, hcovered],
          by simp [hb, hmem]⟩

theorem missingConstructors_bool {others : List Constructor} (h : ∀ c ∈ others, ∃ b, c = .bool b)
    (bs : List Bool) : ∃ missing, missingConstructors others (bs.map .bool) = some missing ∧
      ∀ c, c ∈ missing ↔ ∃ b ∈ bs, c = .bool b ∧ .bool b ∉ others := by
  induction bs with
  | nil => exact ⟨[], rfl, by simp⟩
  | cons b bs ih =>
      obtain ⟨missing, hmissing, hmem⟩ := ih
      obtain ⟨covered, hcovered, hiff⟩ := coveredByAny_bool h b
      refine ⟨if covered then missing else .bool b :: missing,
        by simp [missingConstructors, hcovered, hmissing], fun c => ?_⟩
      rcases covered with _ | _
      · have hb : .bool b ∉ others := fun hb => absurd (hiff.mpr hb) (by simp)
        simp [hmem, hb]
      · have hb : .bool b ∈ others := hiff.mp rfl
        simp [hmem, hb]

theorem isNotWildcard_iff {c : Constructor} : c.isNotWildcard = true ↔ c ≠ .wildcard := by
  cases c <;> simp [Constructor.isNotWildcard]

/-- The booleans in the column, without the wildcards. -/
theorem mem_nonWildcard_bool (hheads : ∀ p ∈ heads, p.WellTyped (.single .bool []))
    (c : Constructor) : c ∈ (heads.map ctor).filter Constructor.isNotWildcard ↔
      ∃ b, c = .bool b ∧ mk (.bool b) [] (.single .bool []) ∈ heads := by
  simp only [List.mem_filter, List.mem_map, isNotWildcard_iff]
  constructor
  · rintro ⟨⟨p, hp, rfl⟩, hc⟩
    rcases wellTyped_bool (hheads p hp) with ⟨fields, rfl⟩ | ⟨b, rfl⟩
    · exact absurd rfl hc
    · exact ⟨b, rfl, hp⟩
  · rintro ⟨b, rfl, hp⟩
    exact ⟨⟨_, hp, rfl⟩, by simp⟩

/-- The constructors of a boolean column: every boolean is one of them or missing, and no pattern
in the column is a missing one. -/
theorem splitWildcard_bool (hheads : ∀ p ∈ heads, p.WellTyped (.single .bool [])) :
    ∃ ctors missing, splitWildcard (.single .bool []) (heads.map ctor) = some ctors ∧
      (∀ c ∈ ctors, (∃ b, c = .bool b) ∨ missing ≠ [] ∧ c = .missing missing) ∧
      (∀ b, .bool b ∈ ctors ∨ .missing missing ∈ ctors ∧ .bool b ∈ missing) ∧
      ∀ c ∈ missing, ∃ b, c = .bool b ∧ mk (.bool b) [] (.single .bool []) ∉ heads := by
  have hmem := mem_nonWildcard_bool hheads
  have hothers : ∀ c ∈ (heads.map ctor).filter Constructor.isNotWildcard, ∃ b, c = .bool b :=
    fun c hc => ((hmem c).mp hc).imp fun _ => And.left
  obtain ⟨missing, hmissing, hiff⟩ := missingConstructors_bool hothers [false, true]
  have hsplit : splitWildcard (.single .bool []) (heads.map ctor) =
      some (if missing.isEmpty then [.bool false, .bool true]
        else (heads.map ctor).filter Constructor.isNotWildcard ++ [.missing missing]) := by
    simp only [List.map_cons, List.map_nil] at hmissing
    simp only [splitWildcard, splitWildcardWith, groupMissingConstructors, hmissing,
      Option.bind_eq_bind, Option.bind_some]
  have hnotmem : ∀ c ∈ missing, ∃ b, c = .bool b ∧ mk (.bool b) [] (.single .bool []) ∉ heads := by
    intro c hc
    obtain ⟨b, -, rfl, hb⟩ := (hiff c).mp hc
    exact ⟨b, rfl, fun h => hb ((hmem _).mpr ⟨b, rfl, h⟩)⟩
  by_cases hempty : missing = []
  · subst hempty
    refine ⟨_, [], hsplit, fun c hc => Or.inl ?_, fun b => Or.inl ?_, hnotmem⟩
    · simpa [or_comm] using hc
    · cases b <;> simp
  · rw [if_neg (by simpa using hempty)] at hsplit
    refine ⟨_, missing, hsplit, fun c hc => ?_, fun b => ?_, hnotmem⟩
    · rcases List.mem_append.mp hc with hc | hc
      · exact Or.inl (hothers c hc)
      · exact Or.inr ⟨hempty, List.mem_singleton.mp hc⟩
    · by_cases hb : .bool b ∈ (heads.map ctor).filter Constructor.isNotWildcard
      · exact Or.inl (List.mem_append_left _ hb)
      · refine Or.inr ⟨List.mem_append_right _ (List.mem_singleton_self _), ?_⟩
        exact (hiff _).mpr ⟨b, by cases b <;> simp, rfl, hb⟩

theorem splits_bool (hheads : ∀ p ∈ heads, p.WellTyped (.single .bool [])) :
    ∃ ctors, splitWildcard (.single .bool []) (heads.map ctor) = some ctors ∧
      Splits (.single .bool []) heads ctors := by
  obtain ⟨ctors, missing, hsplit, hctors, hall, hnotmem⟩ := splitWildcard_bool hheads
  have hfields : ∀ c ∈ ctors, c.fields (.single .bool []) = some [] := by
    intro c hc
    rcases hctors c hc with ⟨b, rfl⟩ | ⟨-, rfl⟩ <;> rfl
  refine ⟨ctors, hsplit, ?_⟩
  refine
    { covered := fun c hc p hp => ?_
      fields := fun c hc => ⟨[], hfields c hc⟩
      specialized := fun c hc types htypes p hp _ => ?_
      missing := fun c hc all hall => ?_
      exists_ctor := fun v hv _ => ?_
      exists_value := fun c hc types vs htypes hvs => ?_ }
  · rcases hctors c hc with ⟨b, rfl⟩ | ⟨-, rfl⟩ <;>
      rcases wellTyped_bool (hheads p hp) with ⟨fields, rfl⟩ | ⟨b', rfl⟩ <;>
      exact ⟨_, rfl⟩
  · obtain rfl : [] = types := Option.some.inj ((hfields c hc).symm.trans htypes)
    rcases wellTyped_bool (hheads p hp) with ⟨fields, rfl⟩ | ⟨b, rfl⟩
    · exact ⟨_, specialize_wildcard htypes fields, trivial⟩
    · exact ⟨[], rfl, trivial⟩
  · rcases hctors c hc with ⟨b, rfl⟩ | ⟨hne, hc⟩
    · exact absurd hall (by simp)
    · obtain rfl : missing = all := by simpa [hc] using hall
      refine ⟨hne, fun c' hc' => ?_⟩
      obtain ⟨b, rfl, -⟩ := hnotmem c' hc'
      rfl
  · obtain ⟨b, rfl⟩ := hasType_bool.mp hv
    -- a boolean that is missing is accepted by wildcards only
    rcases hall b with hb | ⟨hb, -⟩ <;>
      refine ⟨_, hb, [], [], rfl, ⟨trivial, trivial⟩, fun p hp haccepts => ?_⟩ <;>
      rcases wellTyped_bool (hheads p hp) with ⟨fields, rfl⟩ | ⟨b', rfl⟩
    · simp [Covers]
    · have hb' : b = b' := by simpa [Constructor.isCoveredBy, ctor] using haccepts.1
      simp [Covers, hb']
    · simp [Covers]
    · exact absurd haccepts.1 (by simp [Constructor.isCoveredBy, ctor])
  · obtain rfl : [] = types := Option.some.inj ((hfields c hc).symm.trans htypes)
    obtain rfl := List.length_eq_zero_iff.mp (HasTypeList.length_eq hvs.1)
    rcases hctors c hc with ⟨b, rfl⟩ | ⟨hne, rfl⟩
    · refine ⟨.bool b, trivial, trivial, fun p hp hcovers => ?_⟩
      rcases wellTyped_bool (hheads p hp) with ⟨fields, rfl⟩ | ⟨b', rfl⟩
      · exact accepts_wildcard htypes hvs.1 fields
      · obtain rfl : b' = b := by simpa [Covers] using hcovers
        exact ⟨by simp [Constructor.isCoveredBy, ctor], [], rfl, trivial⟩
    · obtain ⟨c', hc'⟩ := List.exists_mem_of_ne_nil _ hne
      obtain ⟨b, rfl, hb⟩ := hnotmem c' hc'
      refine ⟨.bool b, trivial, trivial, fun p hp hcovers => ?_⟩
      rcases wellTyped_bool (hheads p hp) with ⟨fields, rfl⟩ | ⟨b', rfl⟩
      · exact accepts_wildcard htypes hvs.1 fields
      · obtain rfl : b' = b := by simpa [Covers] using hcovers
        exact absurd hp hb

/-! #### Integers -/

/-- An integer type with its smallest and largest value. -/
structure IsInteger (ty : ConcreteType) (min max : ℤ) : Prop where
  bounds : ty.bounds = some (min, max)
  lt : min < max
  split : ∀ splitOther others,
    splitWildcardWith splitOther ty others = splitInteger splitOther min max others

theorem toU128_of_lt {n : ℤ} (hpos : 1 ≤ n) (hsize : n < 2 ^ 128) : toU128 n = some n.toNat := by
  rw [toU128, if_pos ⟨by omega, hsize⟩]

theorem isInteger_int {bits : ℤ} (hpos : 1 ≤ bits) (hsize : bits < 2 ^ 128) :
    IsInteger (.single .int [.integer bits]) (-2 ^ (bits.toNat - 1)) (2 ^ (bits.toNat - 1) - 1) where
  bounds := rfl
  lt := by
    have : (0 : ℤ) < 2 ^ (bits.toNat - 1) := by positivity
    omega
  split splitOther others := by
    have hbits : bits.toNat ≠ 0 := by omega
    simp [splitWildcardWith, toU128_of_lt hpos hsize, hbits]

theorem isInteger_uint {bits : ℤ} (hpos : 1 ≤ bits) (hsize : bits < 2 ^ 128) :
    IsInteger (.single .uint [.integer bits]) 0 (2 ^ bits.toNat - 1) where
  bounds := rfl
  lt := by
    have : (2 : ℤ) ^ 1 ≤ 2 ^ bits.toNat := pow_le_pow_right₀ (by norm_num) (by omega)
    omega
  split splitOther others := by
    simp [splitWildcardWith, toU128_of_lt hpos hsize]

variable {min max : ℤ}

section Integer

variable (hbounds : ty.bounds = some (min, max))

include hbounds

theorem hasType_integer (v : Value) : v.HasType ty ↔ ∃ n, v = .int n ∧ min ≤ n ∧ n ≤ max := by
  cases v with
  | int n => simp [Value.HasType, hbounds]
  | _ =>
      unfold ConcreteType.bounds at hbounds
      split at hbounds <;> simp_all [Value.HasType, ConcreteType.isRaw]

theorem wellTyped_integer {p : DeconstructedPattern} (hp : p.WellTyped ty) :
    (∃ fields, p = .mk .wildcard fields ty) ∨
      ∃ low, p = .mk (.intRange low (low + 1)) [] ty := by
  obtain ⟨_ | b | option | ⟨low, high⟩ | all | _, fields, ty'⟩ := p
  case wildcard => exact Or.inl ⟨fields, by rw [show ty' = ty from hp]⟩
  case intRange =>
    obtain ⟨rfl, rfl, -, rfl⟩ := hp
    exact Or.inr ⟨low, rfl⟩
  case missing => exact hp.elim
  all_goals
    unfold ConcreteType.bounds at hbounds
    split at hbounds <;> simp_all [WellTyped]

end Integer

theorem splitIntRange_nil (low high : ℤ) : splitIntRange low high [] = some [.intRange low high] :=
  rfl

/-- The ranges in the column, where a wildcard is the range of all values. -/
theorem splitOthers_integer (hbounds : ty.bounds = some (min, max))
    (hsplit : ∀ splitOther others,
      splitWildcardWith splitOther ty others = splitInteger splitOther min max others)
    (hheads : ∀ p ∈ heads, p.WellTyped ty) :
    ∃ others, (heads.map ctor).mapM (Constructor.splitAlone ty) = some others ∧
      (∀ c ∈ others.flatten, ∃ a b, c = .intRange a b) ∧
      ∀ low, DeconstructedPattern.mk (.intRange low (low + 1)) [] ty ∈ heads →
        .intRange low (low + 1) ∈ others.flatten := by
  induction heads with
  | nil => exact ⟨[], rfl, by simp, by simp⟩
  | cons p heads ih =>
      rw [List.forall_mem_cons] at hheads
      obtain ⟨others, hothers, hranges, hmem⟩ := ih hheads.2
      rcases wellTyped_integer hbounds hheads.1 with ⟨fields, rfl⟩ | ⟨low, rfl⟩
      · have hwildcard : Constructor.splitAlone ty .wildcard = some [.intRange min max] := by
          simp [Constructor.splitAlone, hsplit, splitInteger, splitIntRange_nil]
        refine ⟨[.intRange min max] :: others, by simp [ctor, hwildcard, hothers], ?_, ?_⟩
        · simpa using hranges
        · intro low hlow
          simpa using Or.inr (hmem low (by simpa using hlow))
      · refine ⟨[.intRange low (low + 1)] :: others,
          by simp [ctor, Constructor.splitAlone, splitIntRange_nil, hothers], ?_, ?_⟩
        · simpa using hranges
        · intro low' hlow
          rcases List.mem_cons.mp hlow with hlow | hlow
          · obtain rfl : low' = low := by simpa using hlow
            simp
          · simpa using Or.inr (by simpa using hmem low' hlow)

theorem IsInteger.hasType_iff (h : IsInteger ty min max) (v : Value) :
    v.HasType ty ↔ ∃ n, v = .int n ∧ min ≤ n ∧ n ≤ max :=
  hasType_integer h.bounds v

theorem IsInteger.wellTyped (h : IsInteger ty min max) {p : DeconstructedPattern}
    (hp : p.WellTyped ty) : (∃ fields, p = .mk .wildcard fields ty) ∨
      ∃ low, p = .mk (.intRange low (low + 1)) [] ty :=
  wellTyped_integer h.bounds hp

theorem IsInteger.splits (h : IsInteger ty min max) (hheads : ∀ p ∈ heads, p.WellTyped ty) :
    ∃ ctors, splitWildcard ty (heads.map ctor) = some ctors ∧ Splits ty heads ctors := by
  obtain ⟨others, hothers, hranges, hmem⟩ := splitOthers_integer h.bounds h.split hheads
  obtain ⟨ctors, hctors, hcover, hpieces⟩ := splitIntRange_spec h.lt hranges
  have hfields : ∀ c ∈ ctors, c.fields ty = some [] := by
    intro c hc
    obtain ⟨a, b, rfl, -⟩ := hpieces c hc
    rfl
  refine ⟨ctors, by simp [splitWildcard, h.split, splitInteger, hothers, hctors], ?_⟩
  refine
    { covered := fun c hc p hp => ?_
      fields := fun c hc => ⟨[], hfields c hc⟩
      specialized := fun c hc types htypes p hp _ => ?_
      missing := fun c hc all hall => ?_
      exists_ctor := fun v hv _ => ?_
      exists_value := fun c hc types vs htypes hvs => ?_ }
  · obtain ⟨a, b, rfl, -⟩ := hpieces c hc
    rcases h.wellTyped (hheads p hp) with ⟨fields, rfl⟩ | ⟨low, rfl⟩ <;> exact ⟨_, rfl⟩
  · obtain rfl : [] = types := Option.some.inj ((hfields c hc).symm.trans htypes)
    rcases h.wellTyped (hheads p hp) with ⟨fields, rfl⟩ | ⟨low, rfl⟩
    · exact ⟨_, specialize_wildcard htypes fields, trivial⟩
    · exact ⟨[], rfl, trivial⟩
  · obtain ⟨a, b, rfl, -⟩ := hpieces c hc
    exact absurd hall (by simp)
  · obtain ⟨n, rfl, hmin, hmax⟩ := (h.hasType_iff v).mp hv
    obtain ⟨a, b, hab, han, hnb⟩ := hcover n hmin hmax
    refine ⟨_, hab, [], [], rfl, ⟨trivial, trivial⟩, fun p hp haccepts => ?_⟩
    rcases h.wellTyped (hheads p hp) with ⟨fields, rfl⟩ | ⟨low, rfl⟩
    · simp [Covers]
    · obtain ⟨hlow, hhigh⟩ : low ≤ a ∧ b ≤ low + 1 := by
        simpa [Constructor.isCoveredBy, ctor] using haccepts.1
      obtain ⟨a', b', heq, -, hab', hb', ha', hnone⟩ := hpieces _ hab
      obtain ⟨rfl, rfl⟩ : a = a' ∧ b = b' := by simpa using heq
      refine ⟨by omega, by omega, _, h.bounds, ?_⟩
      simp only
      omega
  · obtain rfl : [] = types := Option.some.inj ((hfields c hc).symm.trans htypes)
    obtain rfl := List.length_eq_zero_iff.mp (HasTypeList.length_eq hvs.1)
    obtain ⟨a, b, rfl, ha, hab, hb, hamax, hnone⟩ := hpieces c hc
    -- the last value of a piece is covered by no range that does not cover the piece
    refine ⟨.int b, (h.hasType_iff _).mpr ⟨b, rfl, by omega, hb⟩, trivial, fun p hp hcovers => ?_⟩
    rcases h.wellTyped (hheads p hp) with ⟨fields, rfl⟩ | ⟨low, rfl⟩
    · exact accepts_wildcard htypes hvs.1 fields
    · obtain ⟨hlow, hhigh, bounds, hbounds, hmax⟩ := hcovers
      obtain rfl : bounds = (min, max) := Option.some.inj (hbounds.symm.trans h.bounds)
      have hedge := hnone low (low + 1) (hmem low hp) low (Or.inl rfl) (by simp at hmax; omega)
      refine ⟨?_, [], rfl, trivial⟩
      simp only [Constructor.isCoveredBy, ctor, Option.some.injEq, Bool.and_eq_true,
        decide_eq_true_eq]
      omega

/-! #### All types -/

/-- A type whose values cannot be compared has no constructors. -/
theorem splits_nil (h : ∀ v : Value, v.HasType ty → ¬ v.Comparable) : Splits ty heads [] where
  covered _ hc := absurd hc List.not_mem_nil
  fields _ hc := absurd hc List.not_mem_nil
  specialized _ hc := absurd hc List.not_mem_nil
  missing _ hc := absurd hc List.not_mem_nil
  exists_ctor v hv hcomparable := absurd hcomparable (h v hv)
  exists_value _ hc := absurd hc List.not_mem_nil

theorem splitWildcard_spec (hty : ty.IsData) (hheads : ∀ p ∈ heads, p.WellTyped ty) :
    ∃ ctors, splitWildcard ty (heads.map ctor) = some ctors ∧ Splits ty heads ctors := by
  cases hty with
  | int hpos hsize => exact (isInteger_int hpos hsize).splits hheads
  | uint hpos hsize => exact (isInteger_uint hpos hsize).splits hheads
  | bool => exact splits_bool hheads
  | bit | clock | void =>
      refine ⟨[], rfl, splits_nil fun v hv => ?_⟩
      cases v <;> simp_all [Value.HasType, Value.Comparable, ConcreteType.bounds]
  | tuple h => exact ⟨_, rfl, (IsRecord.tuple _).splits hheads⟩
  | struct h => exact ⟨_, rfl, (IsRecord.struct _).splits hheads⟩
  | enum h => exact ⟨_, rfl, splits_enum hheads⟩

end Split

end Spade.HirLowering

import Spade.HirLowering.Coverage

/-!
# The regions of a column

How the constructors that a wildcard is split into divide the values of a type, point by point
(`Regions`), for all types that a wire can have.

* **Lowered patterns** (`fromHir_meets`): a lowered pattern matches what the pattern does, however
  literals are read.
* **Regions** (`splitWildcard_regions`): every value that patterns can look into belongs to one of
  the constructors. A pattern that matches the value is kept for it when literals are read as
  `taken` says, and the patterns that are kept match it when literals are read as `within` says.
-/

namespace Spade.ConcreteType

/-- The types that a wire can have: integers of a size that the compiler supports, the other
primitive types, ports, and what is built from them. -/
inductive IsFinite : ConcreteType → Prop where
  | int {bits : ℤ} (hpos : 1 ≤ bits) (hsize : bits < 2 ^ 128) :
      IsFinite (single .int [integer bits])
  | uint {bits : ℤ} (hpos : 0 ≤ bits) (hsize : bits < 2 ^ 128) :
      IsFinite (single .uint [integer bits])
  | bool : IsFinite (single .bool [])
  | raw {base : PrimitiveType} {params : List ConcreteType}
      (h : (single base params).isRaw = true) : IsFinite (single base params)
  | tuple {inner : List ConcreteType} (h : ∀ ty ∈ inner, IsFinite ty) : IsFinite (tuple inner)
  | struct {members : List (String × ConcreteType)} (h : ∀ m ∈ members, IsFinite m.2) :
      IsFinite (struct members)
  | array {inner : ConcreteType} {size : ℤ} (h : IsFinite inner) (hpos : 0 ≤ size)
      (hsize : size < 2 ^ 128) : IsFinite (array inner size)
  | enum {options : List (List ConcreteType)} (h : ∀ o ∈ options, ∀ ty ∈ o, IsFinite ty) :
      IsFinite (enum options)
  | backward (inner : ConcreteType) : IsFinite (backward inner)
  | wire (inner : ConcreteType) : IsFinite (wire inner)

end Spade.ConcreteType

namespace Spade.HirLowering

open Hir

/-! ### Values with constructors -/

mutual

/-- The value contains no bit, clock, void, memory or `inout`, for which there is no constructor. -/
def HasCtors : Value → ConcreteType → Prop
  | .raw _, ty =>
      match ty with
      | .backward _ | .wire _ => True
      | _ => False
  | .fields vs, .tuple types => HaveCtors vs types
  | .fields vs, .struct members => HaveCtors vs (members.map Prod.snd)
  | .fields vs, .array type size => HaveCtors vs (List.replicate size.toNat type)
  | .variant option vs, .enum options =>
      match options[option]? with
      | some types => HaveCtors vs types
      | none => False
  | _, _ => True

def HaveCtors : List Value → List ConcreteType → Prop
  | v :: vs, ty :: types => HasCtors v ty ∧ HaveCtors vs types
  | _, _ => True

end

/-! ### Matching -/

/-- The values of a type that a range is taken to match. -/
abbrev RangeReading := ConcreteType → ℤ → ℤ → ℤ → Prop

namespace DeconstructedPattern

mutual

/-- The pattern matches the value when ranges are read like this. -/
def Meets (range : RangeReading) : DeconstructedPattern → Value → Prop
  | mk .wildcard _ _, _ => True
  | mk .single fields _, .fields vs => MeetsList range fields vs
  | mk .single fields ty, .raw _ => ty.isRaw = true ∧ fields = []
  | mk (.variant option) fields _, .variant option' vs =>
      option' = option ∧ MeetsList range fields vs
  | mk (.bool b) _ _, .bool b' => b = b'
  | mk (.intRange min max) _ ty, .int n => range ty min max n
  | _, _ => False

/-- The patterns match the values one by one. -/
def MeetsList (range : RangeReading) : List DeconstructedPattern → List Value → Prop
  | [], [] => True
  | p :: ps, v :: vs => p.Meets range v ∧ MeetsList range ps vs
  | _, _ => False

end

/-- The range of a literal, where the literal is read like this. -/
def ofReading (reading : Reading) : RangeReading := fun ty min _ n => reading ty min n

mutual

/-- **Lowered patterns.** -/
theorem fromHir_meets (ctx : PatternContext) : ∀ (p : Pattern) (ty : ConcreteType),
    p.WellTyped ctx ty → ∃ d, fromHir ctx p = some d ∧ d.WellTyped ty ∧
      ∀ reading v, d.Meets (ofReading reading) v ↔ p.Matches ctx reading v
  | .integer id val, ty, h => by
      obtain ⟨rfl, hbounds⟩ := h
      refine ⟨_, rfl, ⟨rfl, rfl, hbounds, rfl⟩, fun reading v => ?_⟩
      cases v <;> simp [Meets, Pattern.Matches, ofReading]
  | .bool id b, ty, h => by
      obtain ⟨rfl, hty⟩ := h
      refine ⟨_, rfl, ⟨rfl, hty, rfl⟩, fun reading v => ?_⟩
      cases v <;> simp [Meets, Pattern.Matches]
  | .name id name, ty, h => by
      obtain rfl := h
      exact ⟨_, rfl, rfl, fun reading v => by simp [Meets, Pattern.Matches]⟩
  | .tuple id inner, ty, h => by
      obtain ⟨rfl, h⟩ := h
      rcases hty : ctx.typeOfId id with types | _ | _ | _ | _ | _ | _ | _ <;> rw [hty] at h
      case tuple =>
        obtain ⟨fields, hfields, htyped, hmeets⟩ := fromHirList_meets ctx inner types h
        refine ⟨mk .single fields (.tuple types), by simp [fromHir, hfields, hty], ⟨rfl, htyped⟩,
          fun reading v => ?_⟩
        cases v <;> simp [Meets, Pattern.Matches, hmeets, ConcreteType.isRaw]
      all_goals exact h.elim
  | .array id inner, ty, h => by
      obtain ⟨rfl, h⟩ := h
      rcases hty : ctx.typeOfId id with _ | _ | ⟨type, size⟩ | _ | _ | _ | _ | _ <;> rw [hty] at h
      case array =>
        obtain ⟨-, rfl, h⟩ := h
        obtain ⟨fields, hfields, htyped, hmeets⟩ := fromHirList_meets ctx inner _ h
        refine ⟨mk .single fields (.array type inner.length), by simp [fromHir, hfields, hty],
          ⟨rfl, htyped⟩, fun reading v => ?_⟩
        cases v <;> simp [Meets, Pattern.Matches, hmeets, ConcreteType.isRaw]
      all_goals exact h.elim
  | .type id path targets args, ty, h => by
      obtain ⟨rfl, h⟩ := h
      rcases hkind : ctx.patternableTypeById path with _ | _ <;>
        rcases hty : ctx.typeOfId id with _ | members | _ | options | _ | _ | _ | _ <;>
        simp only [hkind, hty] at h
      case enum.enum =>
        rcases hoption : options[ctx.enumVariantById path]? with _ | types <;> rw [hoption] at h
        · exact h.elim
        obtain ⟨fields, hfields, htyped, hmeets⟩ := fromHirList_meets ctx args types h.2
        refine ⟨mk (.variant (ctx.enumVariantById path)) fields (.enum options),
          by simp [fromHir, hfields, hty, hkind], ⟨rfl, by simpa [hoption] using htyped⟩,
          fun reading v => ?_⟩
        cases v <;> simp [Meets, Pattern.Matches, hmeets, hkind]
      case struct.struct =>
        obtain ⟨fields, hfields, htyped, hmeets⟩ := fromHirList_meets ctx args _ h.2.2.2
        refine ⟨mk .single fields (.struct members), by simp [fromHir, hfields, hty, hkind],
          ⟨rfl, htyped⟩, fun reading v => ?_⟩
        cases v <;> simp [Meets, Pattern.Matches, hmeets, hkind, ConcreteType.isRaw]

theorem fromHirList_meets (ctx : PatternContext) :
    ∀ (ps : List Pattern) (types : List ConcreteType), Hir.WellTypedList ctx ps types →
      ∃ ds, fromHirList ctx ps = some ds ∧ WellTypedList ds types ∧
        ∀ reading vs, MeetsList (ofReading reading) ds vs ↔ MatchesList ctx reading ps vs
  | [], [], _ =>
      ⟨[], rfl, trivial, fun reading vs => by cases vs <;> simp [MeetsList, MatchesList]⟩
  | p :: ps, ty :: types, h => by
      obtain ⟨d, hd, htyped, hmeets⟩ := fromHir_meets ctx p ty h.1
      obtain ⟨ds, hds, htypeds, hmeetss⟩ := fromHirList_meets ctx ps types h.2
      refine ⟨d :: ds, by simp [fromHirList, hd, hds], ⟨htyped, htypeds⟩, fun reading vs => ?_⟩
      cases vs <;> simp [MeetsList, MatchesList, hmeets, hmeetss]
  | [], _ :: _, h => h.elim
  | _ :: _, [], h => h.elim

end

theorem meetsList_append {range : RangeReading} {ps qs : List DeconstructedPattern}
    {vs ws : List Value} (h : ps.length = vs.length) :
    MeetsList range (ps ++ qs) (vs ++ ws) ↔ MeetsList range ps vs ∧ MeetsList range qs ws := by
  induction ps generalizing vs with
  | nil =>
      obtain rfl := List.length_eq_zero_iff.mp h.symm
      simp [MeetsList]
  | cons p ps ih =>
      obtain _ | ⟨v, vs⟩ := vs
      · simp at h
      · simp only [List.cons_append, MeetsList, ih (by simpa using h), and_assoc]

theorem meetsList_wildcards {range : RangeReading} {types : List ConcreteType} {vs : List Value}
    (h : vs.length = types.length) : MeetsList range (types.map wildcard) vs := by
  induction types generalizing vs with
  | nil =>
      obtain rfl := List.length_eq_zero_iff.mp h
      trivial
  | cons ty types ih =>
      obtain _ | ⟨v, vs⟩ := vs
      · simp at h
      · exact ⟨trivial, ih (by simpa using h)⟩

/-- A range is the values from its first to its last one. -/
def inclusive : RangeReading := fun _ min max n => min ≤ n ∧ n ≤ max

end DeconstructedPattern

/-! ### Readings of a literal -/

/-- A literal is recognised unless it is the largest value of a type with other values. The largest
value is matched by the literal below it. -/
def taken : Reading := fun ty literal n => ∃ min max, ty.bounds = some (min, max) ∧
  (n = literal ∧ (literal < max ∨ min = max) ∨ n = max ∧ literal + 1 = max)

/-- A literal also matches the value above it, and nothing if it is the largest value of a type with
other values. -/
def within : Reading := fun ty literal n => ∃ min max, ty.bounds = some (min, max) ∧
  literal ≤ n ∧ n ≤ literal + 1 ∧ (literal < max ∨ min = max)

/-! ### The constructors of a type -/

/-- The constructor is one of the type. -/
def Constructor.IsConstructorOf : Constructor → ConcreteType → Prop
  | single, .tuple _ | single, .struct _ | single, .array _ _ | single, .backward _
  | single, .wire _ => True
  | variant option, .enum options => option < options.length
  | bool _, .single .bool [] => True
  | intRange low high, ty => ∃ min max, ty.bounds = some (min, max) ∧
      min ≤ low ∧ low ≤ high ∧ high ≤ max
  | _, _ => False

/-- The constructors that a witness gets for a constructor. -/
def Constructor.alternatives : Constructor → List Constructor
  | missing allMissing => allMissing
  | ctor => [ctor]

/-- The value is built by the constructor from the values `vs`. -/
inductive Belongs : Constructor → ConcreteType → Value → List Value → Prop
  | fields {ty : ConcreteType} (vs : List Value) : Belongs .single ty (.fields vs) vs
  | raw {ty : ConcreteType} (h : ty.isRaw = true) (bits : BitString) :
      Belongs .single ty (.raw bits) []
  | variant {ty : ConcreteType} (option : ℕ) (vs : List Value) :
      Belongs (.variant option) ty (.variant option vs) vs
  | bool {ty : ConcreteType} (b : Bool) : Belongs (.bool b) ty (.bool b) []
  | int {ty : ConcreteType} {min max n : ℤ} (hmin : min ≤ n) (hmax : n ≤ max) :
      Belongs (.intRange min max) ty (.int n) []

namespace DeconstructedPattern

mutual

/-- The pattern is made of constructors of its type with as many fields as they have. -/
def WellFormed : DeconstructedPattern → ConcreteType → Prop
  | mk c fields ty', ty => ty' = ty ∧ c.IsConstructorOf ty ∧
      match c.fields ty with
      | some types => WellFormedList fields types
      | none => False

/-- The patterns are well formed at the types one by one. -/
def WellFormedList : List DeconstructedPattern → List ConcreteType → Prop
  | [], [] => True
  | p :: ps, ty :: types => p.WellFormed ty ∧ WellFormedList ps types
  | _, _ => False

end

theorem wellFormedList_append {ps : List DeconstructedPattern} {types types' : List ConcreteType} :
    WellFormedList ps (types ++ types') ↔
      ∃ qs rs, ps = qs ++ rs ∧ WellFormedList qs types ∧ WellFormedList rs types' := by
  induction types generalizing ps with
  | nil =>
      constructor
      · exact fun h => ⟨[], ps, rfl, trivial, h⟩
      · rintro ⟨_ | ⟨q, qs⟩, rs, rfl, hqs, hrs⟩
        · exact hrs
        · exact hqs.elim
  | cons ty types ih =>
      cases ps with
      | nil =>
          refine ⟨fun h => h.elim, ?_⟩
          rintro ⟨_ | ⟨q, qs⟩, rs, h, hqs, -⟩
          · exact hqs.elim
          · exact absurd h (by simp)
      | cons p ps =>
          simp only [List.cons_append, WellFormedList, ih]
          constructor
          · rintro ⟨hp, qs, rs, rfl, hqs, hrs⟩
            exact ⟨p :: qs, rs, rfl, ⟨hp, hqs⟩, hrs⟩
          · rintro ⟨_ | ⟨q, qs⟩, rs, h, hqs, hrs⟩
            · exact hqs.elim
            · obtain ⟨rfl, rfl⟩ : p = q ∧ ps = qs ++ rs := by simpa using h
              exact ⟨hqs.1, qs, rs, rfl, hqs.2, hrs⟩

theorem WellFormedList.length_eq {ps : List DeconstructedPattern} {types : List ConcreteType}
    (h : WellFormedList ps types) : ps.length = types.length := by
  induction ps generalizing types with
  | nil =>
      cases types with
      | nil => rfl
      | cons ty types => exact h.elim
  | cons p ps ih =>
      cases types with
      | nil => exact h.elim
      | cons ty types => simp [ih h.2]

theorem meetsList_nil {range : RangeReading} {ps : List DeconstructedPattern} :
    MeetsList range ps [] ↔ ps = [] := by
  cases ps <;> simp [MeetsList]

end DeconstructedPattern

open DeconstructedPattern

variable {c : Constructor} {ty : ConcreteType} {v : Value} {vs : List Value}
  {types : List ConcreteType} {fields heads : List DeconstructedPattern} {range : RangeReading}

/-- What a pattern with the constructor of a value says about the value. -/
theorem Belongs.meets_iff (h : Belongs c ty v vs) (hc : c.asRange = none)
    (hlen : fields.length = vs.length) :
    (mk c fields ty).Meets range v ↔ MeetsList range fields vs := by
  cases h with
  | fields => simp [Meets]
  | raw hraw => simp [Meets, hraw, meetsList_nil]
  | variant => simp [Meets]
  | bool =>
      obtain rfl := List.length_eq_zero_iff.mp hlen
      simp [Meets, MeetsList]
  | int => exact absurd hc (by simp [Constructor.asRange])

/-- A row with head `p` is kept when a matrix is specialized to `c`, and the subpatterns of `p`
match the values. -/
def AcceptsBy (range : RangeReading) (c : Constructor) (p : DeconstructedPattern)
    (vs : List Value) : Prop :=
  c.isCoveredBy p.ctor = some true ∧ ∃ fields, p.specialize c = some fields ∧
    MeetsList range fields vs

theorem acceptsBy_wildcard (h : c.fields ty = some types) (hlen : vs.length = types.length) :
    AcceptsBy range c (mk .wildcard fields ty) vs :=
  ⟨by cases c <;> rfl, types.map wildcard, specialize_wildcard h fields, meetsList_wildcards hlen⟩

/-- What the constructors stand for that the values of a type are split into, where `heads` are
the patterns of the matrix in this column. -/
structure Regions (ty : ConcreteType) (heads : List DeconstructedPattern)
    (ctors : List Constructor) : Prop where
  covered : ∀ c ∈ ctors, ∀ p ∈ heads, ∃ b, c.isCoveredBy p.ctor = some b
  fields : ∀ c ∈ ctors, ∃ types, c.fields ty = some types ∧
    ∀ c' ∈ c.alternatives, c'.fields ty = some types ∧ c'.IsConstructorOf ty
  specialized : ∀ c ∈ ctors, ∀ types, c.fields ty = some types → ∀ p ∈ heads,
    c.isCoveredBy p.ctor = some true → ∃ fields, p.specialize c = some fields ∧
      DeconstructedPattern.WellTypedList fields types
  exists_ctor : ∀ v, v.HasType ty → HasCtors v ty → ∃ c ∈ ctors, ∃ c' ∈ c.alternatives, ∃ vs,
    Belongs c' ty v vs ∧ ∀ types, c.fields ty = some types →
      HasTypeList vs types ∧ HaveCtors vs types
  typed : ∀ c ∈ ctors, ∀ c' ∈ c.alternatives, ∀ types v vs, c.fields ty = some types →
    v.HasType ty → Belongs c' ty v vs → HasTypeList vs types
  /-- The rows that are kept for the constructor of a value are as good as those that match it. -/
  accepts : ∀ c ∈ ctors, ∀ c' ∈ c.alternatives, ∀ v vs, v.HasType ty → Belongs c' ty v vs →
    ∀ p ∈ heads, (p.Meets (ofReading taken) v → AcceptsBy (ofReading taken) c p vs) ∧
      (AcceptsBy (ofReading within) c p vs → p.Meets (ofReading within) v)

/-! ### A single constructor -/

theorem regions_single (hfields : Constructor.single.fields ty = some types)
    (hctor : Constructor.single.IsConstructorOf ty)
    (hheads : ∀ p ∈ heads, (∃ fields, p = mk .wildcard fields ty) ∨
      ∃ fields, p = mk .single fields ty ∧ DeconstructedPattern.WellTypedList fields types)
    (hvalue : ∀ v : Value, v.HasType ty → HasCtors v ty → ∃ vs, Belongs .single ty v vs ∧
      HaveCtors vs types)
    (htyped : ∀ (v : Value) vs, v.HasType ty → Belongs .single ty v vs → HasTypeList vs types) :
    Regions ty heads [.single] where
  covered c hc p hp := by
    obtain rfl := List.mem_singleton.mp hc
    rcases hheads p hp with ⟨fields, rfl⟩ | ⟨fields, rfl, -⟩ <;> exact ⟨true, rfl⟩
  fields c hc := by
    obtain rfl := List.mem_singleton.mp hc
    refine ⟨types, hfields, fun c' hc' => ?_⟩
    obtain rfl := List.mem_singleton.mp hc'
    exact ⟨hfields, hctor⟩
  specialized c hc types' htypes p hp _ := by
    obtain rfl := List.mem_singleton.mp hc
    obtain rfl : types = types' := Option.some.inj (hfields.symm.trans htypes)
    rcases hheads p hp with ⟨fields, rfl⟩ | ⟨fields, rfl, htyped⟩
    · exact ⟨_, specialize_wildcard htypes fields, wellTypedList_wildcards types⟩
    · exact ⟨fields, rfl, htyped⟩
  exists_ctor v hv hctors := by
    obtain ⟨vs, hbelongs, hvs⟩ := hvalue v hv hctors
    refine ⟨.single, List.mem_singleton_self _, .single, List.mem_singleton_self _, vs, hbelongs,
      fun types' htypes => ?_⟩
    obtain rfl : types = types' := Option.some.inj (hfields.symm.trans htypes)
    exact ⟨htyped v vs hv hbelongs, hvs⟩
  typed c hc c' hc' types' v vs htypes hv hbelongs := by
    obtain rfl := List.mem_singleton.mp hc
    obtain rfl := List.mem_singleton.mp hc'
    obtain rfl : types = types' := Option.some.inj (hfields.symm.trans htypes)
    exact htyped v vs hv hbelongs
  accepts c hc c' hc' v vs hv hbelongs p hp := by
    obtain rfl := List.mem_singleton.mp hc
    obtain rfl := List.mem_singleton.mp hc'
    have hlen := HasTypeList.length_eq (htyped v vs hv hbelongs)
    rcases hheads p hp with ⟨fields, rfl⟩ | ⟨fields, rfl, hfieldstyped⟩
    · exact ⟨fun _ => acceptsBy_wildcard hfields hlen, fun _ => by simp [Meets]⟩
    · have hmeets := fun range => @Belongs.meets_iff _ _ _ _ fields range hbelongs rfl
        (hfieldstyped.length_eq.trans hlen.symm)
      refine ⟨fun h => ⟨rfl, fields, rfl, (hmeets _).mp h⟩, ?_⟩
      rintro ⟨-, fields', hfields', h⟩
      obtain rfl : fields = fields' := Option.some.inj hfields'
      exact (hmeets _).mpr h

theorem IsRecord.regions (h : IsRecord ty types) (hheads : ∀ p ∈ heads, p.WellTyped ty) :
    Regions ty heads [.single] := by
  refine regions_single h.fields_single (by cases h <;> trivial)
    (fun p hp => h.wellTyped (hheads p hp)) (fun v hv hctors => ?_) fun v vs hv hbelongs => ?_
  · obtain ⟨vs, rfl, -⟩ := (h.hasType_iff v).mp hv
    exact ⟨vs, .fields vs, by cases h <;> exact hctors⟩
  · obtain ⟨vs', rfl, hvs⟩ := (h.hasType_iff v).mp hv
    cases hbelongs
    exact hvs

theorem regions_array {inner : ConcreteType} {size : ℤ} (hpos : 0 ≤ size) (hsize : size < 2 ^ 128)
    (hheads : ∀ p ∈ heads, p.WellTyped (.array inner size)) :
    Regions (.array inner size) heads [.single] := by
  have hfields : Constructor.single.fields (.array inner size) =
      some (List.replicate size.toNat inner) := by
    rw [Constructor.fields, toU128, if_pos ⟨hpos, hsize⟩]
    rfl
  refine regions_single hfields trivial (fun p hp => ?_) (fun v hv hctors => ?_)
    fun v vs hv hbelongs => ?_
  · have htyped := hheads p hp
    obtain ⟨_ | b | option | ⟨min, max⟩ | all | _, fields, ty'⟩ := p <;>
      simp_all [WellTyped, ConcreteType.bounds]
  · cases v with
    | fields vs => exact ⟨vs, .fields vs, hctors⟩
    | _ => simp [Value.HasType, ConcreteType.bounds, ConcreteType.isRaw] at hv
  · cases hbelongs with
    | fields => exact hv
    | raw hraw => simp [ConcreteType.isRaw] at hraw

/-- A value that a pattern can name but not look into has a constructor without fields. -/
theorem regions_port (hraw : ty.isRaw = true) (hctor : Constructor.single.IsConstructorOf ty)
    (hheads : ∀ p ∈ heads, p.WellTyped ty) : Regions ty heads [.single] := by
  have hfields : Constructor.single.fields ty = some [] := by
    cases ty <;> simp_all [Constructor.IsConstructorOf, Constructor.fields, ConcreteType.isRaw]
  refine regions_single hfields hctor (fun p hp => Or.inl ?_) (fun v hv _ => ?_)
    fun v vs hv hbelongs => ?_
  · have htyped := hheads p hp
    obtain ⟨_ | b | option | ⟨min, max⟩ | all | _, fields, ty'⟩ := p <;> cases ty <;>
      simp_all [WellTyped, ConcreteType.bounds, Constructor.IsConstructorOf, ConcreteType.isRaw]
  · cases v with
    | raw bits => exact ⟨[], .raw hraw bits, trivial⟩
    | _ => cases ty <;> simp_all [Value.HasType, ConcreteType.bounds, Constructor.IsConstructorOf,
        ConcreteType.isRaw]
  · cases hbelongs with
    | fields => cases ty <;> simp_all [Value.HasType, ConcreteType.isRaw]
    | raw => trivial

/-! ### Enums -/

theorem regions_enum {options : List (List ConcreteType)}
    (hheads : ∀ p ∈ heads, p.WellTyped (.enum options)) :
    Regions (.enum options) heads ((List.range options.length).map .variant) where
  covered := (splits_enum hheads).covered
  fields c hc := by
    obtain ⟨option, types, rfl, htypes⟩ := mem_variants.mp hc
    refine ⟨types, htypes, fun c' hc' => ?_⟩
    obtain rfl := List.mem_singleton.mp hc'
    exact ⟨htypes, (List.getElem?_eq_some_iff.mp htypes).1⟩
  specialized := (splits_enum hheads).specialized
  exists_ctor v hv hctors := by
    obtain ⟨option, vs, types, rfl, htypes, hvs⟩ := hasType_enum.mp hv
    refine ⟨.variant option, mem_variants.mpr ⟨option, types, rfl, htypes⟩, .variant option,
      List.mem_singleton_self _, vs, .variant option vs, fun types' htypes' => ?_⟩
    obtain rfl : types = types' := Option.some.inj (htypes.symm.trans htypes')
    exact ⟨hvs, by simpa [HasCtors, htypes] using hctors⟩
  typed c hc c' hc' types v vs htypes hv hbelongs := by
    obtain ⟨option, _, rfl, -⟩ := mem_variants.mp hc
    obtain rfl := List.mem_singleton.mp hc'
    cases hbelongs with
    | variant =>
        obtain ⟨_, _, types', heq, htypes', hvs⟩ := hasType_enum.mp hv
        obtain ⟨rfl, rfl⟩ := by simpa using heq
        obtain rfl : types = types' := Option.some.inj (htypes.symm.trans htypes')
        exact hvs
  accepts c hc c' hc' v vs hv hbelongs p hp := by
    obtain ⟨option, _, rfl, -⟩ := mem_variants.mp hc
    obtain rfl := List.mem_singleton.mp hc'
    cases hbelongs with
    | variant =>
        obtain ⟨_, _, types, heq, htypes, hvs⟩ := hasType_enum.mp hv
        obtain ⟨rfl, rfl⟩ := by simpa using heq
        rcases wellTyped_enum (hheads p hp) with
          ⟨fields, rfl⟩ | ⟨option', fields, types', rfl, htypes', hfields⟩
        · exact ⟨fun _ => acceptsBy_wildcard htypes (HasTypeList.length_eq hvs),
            fun _ => by simp [Meets]⟩
        · constructor
          · rintro ⟨rfl, hmeets⟩
            exact ⟨by simp [Constructor.isCoveredBy, ctor], fields, rfl, hmeets⟩
          · rintro ⟨hcovered, fields', hfields', hmeets⟩
            obtain rfl : fields = fields' := Option.some.inj hfields'
            exact ⟨by simpa [Constructor.isCoveredBy, ctor] using hcovered, hmeets⟩

/-! ### Booleans -/

theorem regions_bool (hheads : ∀ p ∈ heads, p.WellTyped (.single .bool [])) :
    ∃ ctors, splitWildcard (.single .bool []) (heads.map ctor) = some ctors ∧
      Regions (.single .bool []) heads ctors := by
  obtain ⟨ctors, missing, hsplit, hctors, hall, hnotmem⟩ := splitWildcard_bool hheads
  obtain ⟨ctors', hsplit', hsplits⟩ := splits_bool hheads
  obtain rfl : ctors = ctors' := Option.some.inj (hsplit.symm.trans hsplit')
  have hfields : ∀ c ∈ ctors, c.fields (.single .bool []) = some [] := by
    intro c hc
    rcases hctors c hc with ⟨b, rfl⟩ | ⟨-, rfl⟩ <;> rfl
  -- a boolean that is in a witness is one of the column, or one that no pattern names
  have halternatives : ∀ c ∈ ctors, ∀ c' ∈ c.alternatives, ∃ b, c' = .bool b ∧
      (c = .bool b ∨ c = .missing missing ∧ mk (.bool b) [] (.single .bool []) ∉ heads) := by
    intro c hc c' hc'
    rcases hctors c hc with ⟨b, rfl⟩ | ⟨-, rfl⟩
    · exact ⟨b, List.mem_singleton.mp hc', Or.inl rfl⟩
    · obtain ⟨b, rfl, hb⟩ := hnotmem c' hc'
      exact ⟨b, rfl, Or.inr ⟨rfl, hb⟩⟩
  refine ⟨ctors, hsplit, ?_⟩
  refine
    { covered := hsplits.covered
      fields := fun c hc => ⟨[], hfields c hc, fun c' hc' => ?_⟩
      specialized := hsplits.specialized
      exists_ctor := fun v hv _ => ?_
      typed := fun c hc c' hc' types v vs htypes hv hbelongs => ?_
      accepts := fun c hc c' hc' v vs hv hbelongs p hp => ?_ }
  · obtain ⟨b, rfl, -⟩ := halternatives c hc c' hc'
    exact ⟨rfl, trivial⟩
  · obtain ⟨b, rfl⟩ := hasType_bool.mp hv
    have htyped : ∀ c ∈ ctors, ∀ types, c.fields (.single .bool []) = some types →
        HasTypeList [] types ∧ HaveCtors [] types := by
      intro c hc types htypes
      obtain rfl : [] = types := Option.some.inj ((hfields c hc).symm.trans htypes)
      exact ⟨trivial, trivial⟩
    rcases hall b with hb | ⟨hmissing, hb⟩
    · exact ⟨_, hb, .bool b, List.mem_singleton_self _, [], .bool b, htyped _ hb⟩
    · exact ⟨_, hmissing, .bool b, hb, [], .bool b, htyped _ hmissing⟩
  · obtain ⟨b, rfl, -⟩ := halternatives c hc c' hc'
    obtain rfl : [] = types := Option.some.inj ((hfields c hc).symm.trans htypes)
    cases hbelongs
    trivial
  · obtain ⟨b, rfl, hb⟩ := halternatives c hc c' hc'
    cases hbelongs with
    | bool =>
        rcases wellTyped_bool (hheads p hp) with ⟨fields, rfl⟩ | ⟨b', rfl⟩
        · exact ⟨fun _ => acceptsBy_wildcard (hfields c hc) rfl, fun _ => by simp [Meets]⟩
        rcases hb with rfl | ⟨rfl, hb⟩
        · constructor
          · rintro rfl
            exact ⟨by simp [Constructor.isCoveredBy, ctor], [], rfl, trivial⟩
          · rintro ⟨hcovered, -⟩
            have hb' : b = b' := by simpa [Constructor.isCoveredBy, ctor] using hcovered
            exact hb'.symm
        · constructor
          · rintro rfl
            exact absurd hp hb
          · rintro ⟨hcovered, -⟩
            exact absurd hcovered (by simp [Constructor.isCoveredBy, ctor])

/-! ### Integers -/

/-- An integer type is split into pieces that contain no end of another range but their first
value, unless it is the largest value of the type. -/
theorem splitIntRange_pieces {min max : ℤ} (hle : min ≤ max) {others : List Constructor}
    (hothers : ∀ c ∈ others, ∃ a b, c = .intRange a b) :
    ∃ ctors, splitIntRange min max others = some ctors ∧
      (∀ n, min ≤ n → n ≤ max → ∃ a b, .intRange a b ∈ ctors ∧ a ≤ n ∧ n ≤ b) ∧
      ∀ c ∈ ctors, ∃ a b, c = .intRange a b ∧ min ≤ a ∧ a ≤ b ∧ b ≤ max ∧ (a < max ∨ min = max) ∧
        ∀ low high, .intRange low high ∈ others → ∀ e, e = low ∨ e = high →
          e < max → ¬(a < e ∧ e ≤ b) := by
  rcases hle.lt_or_eq with hlt | rfl
  · obtain ⟨ctors, hctors, hcover, hpieces⟩ := splitIntRange_spec hlt hothers
    refine ⟨ctors, hctors, hcover, fun c hc => ?_⟩
    obtain ⟨a, b, rfl, ha, hab, hb, hmax, hnone⟩ := hpieces c hc
    exact ⟨a, b, rfl, ha, hab, hb, Or.inl hmax, hnone⟩
  · obtain ⟨edges, hedges, -⟩ := rangeEdges_spec hothers
    have hempty : ((edges.insertionSort (· ≤ ·)).dedup.filter
        fun e => decide (min < e) && decide (e < min)) = [] := by
      refine List.filter_eq_nil_iff.mpr fun e _ => ?_
      simp only [Bool.and_eq_true, decide_eq_true_eq]
      omega
    refine ⟨[.intRange min min], by simp [splitIntRange, hedges, hempty, splitAtEdges],
      fun n hmin hmax => ⟨min, min, List.mem_singleton_self _, hmin, hmax⟩, fun c hc => ?_⟩
    obtain rfl := List.mem_singleton.mp hc
    exact ⟨min, min, rfl, le_refl _, le_refl _, le_refl _, Or.inr rfl,
      fun low high _ e _ _ => by omega⟩

theorem regions_integer {min max : ℤ} (hbounds : ty.bounds = some (min, max)) (hle : min ≤ max)
    (hsplit : ∀ splitOther others,
      splitWildcardWith splitOther ty others = splitInteger splitOther min max others)
    (hheads : ∀ p ∈ heads, p.WellTyped ty) :
    ∃ ctors, splitWildcard ty (heads.map ctor) = some ctors ∧ Regions ty heads ctors := by
  obtain ⟨others, hothers, hranges, hmem⟩ := splitOthers_integer hbounds hsplit hheads
  obtain ⟨ctors, hctors, hcover, hpieces⟩ := splitIntRange_pieces hle hranges
  have hfields : ∀ c ∈ ctors, c.fields ty = some [] := by
    intro c hc
    obtain ⟨a, b, rfl, -⟩ := hpieces c hc
    rfl
  refine ⟨ctors, by simp [splitWildcard, hsplit, splitInteger, hothers, hctors], ?_⟩
  refine
    { covered := fun c hc p hp => ?_
      fields := fun c hc => ⟨[], hfields c hc, fun c' hc' => ?_⟩
      specialized := fun c hc types htypes p hp _ => ?_
      exists_ctor := fun v hv _ => ?_
      typed := fun c hc c' hc' types v vs htypes hv hbelongs => ?_
      accepts := fun c hc c' hc' v vs hv hbelongs p hp => ?_ }
  · obtain ⟨a, b, rfl, -⟩ := hpieces c hc
    rcases wellTyped_integer hbounds (hheads p hp) with ⟨fields, rfl⟩ | ⟨low, rfl⟩ <;>
      exact ⟨_, rfl⟩
  · obtain ⟨a, b, rfl, ha, hab, hb, -⟩ := hpieces c hc
    obtain rfl := List.mem_singleton.mp hc'
    exact ⟨rfl, min, max, hbounds, ha, hab, hb⟩
  · obtain rfl : [] = types := Option.some.inj ((hfields c hc).symm.trans htypes)
    rcases wellTyped_integer hbounds (hheads p hp) with ⟨fields, rfl⟩ | ⟨low, rfl⟩
    · exact ⟨_, specialize_wildcard htypes fields, trivial⟩
    · exact ⟨[], rfl, trivial⟩
  · obtain ⟨n, rfl, hmin, hmax⟩ := (hasType_integer hbounds v).mp hv
    obtain ⟨a, b, hab, han, hnb⟩ := hcover n hmin hmax
    refine ⟨_, hab, _, List.mem_singleton_self _, [], .int han hnb, fun types htypes => ?_⟩
    obtain rfl : [] = types := Option.some.inj ((hfields _ hab).symm.trans htypes)
    exact ⟨trivial, trivial⟩
  · obtain ⟨a, b, rfl, -⟩ := hpieces c hc
    obtain rfl := List.mem_singleton.mp hc'
    obtain rfl : [] = types := Option.some.inj ((hfields _ hc).symm.trans htypes)
    cases hbelongs
    trivial
  · obtain ⟨a, b, rfl, ha, hab, hb, hmax, hnone⟩ := hpieces c hc
    obtain rfl := List.mem_singleton.mp hc'
    cases hbelongs with
    | @int _ _ _ n han hnb =>
        rcases wellTyped_integer hbounds (hheads p hp) with ⟨fields, rfl⟩ | ⟨low, rfl⟩
        · exact ⟨fun _ => acceptsBy_wildcard (hfields _ hc) rfl, fun _ => by simp [Meets]⟩
        constructor
        · rintro ⟨min', max', hbounds', htaken⟩
          obtain ⟨rfl, rfl⟩ : min = min' ∧ max = max' := by simpa [hbounds] using hbounds'
          have hlow := hnone low (low + 1) (hmem low hp) low (Or.inl rfl)
          have hhigh := hnone low (low + 1) (hmem low hp) (low + 1) (Or.inr rfl)
          refine ⟨?_, [], rfl, trivial⟩
          simp only [Constructor.isCoveredBy, ctor, Option.some.injEq, Bool.and_eq_true,
            decide_eq_true_eq]
          omega
        · rintro ⟨hcovered, -⟩
          obtain ⟨hlow, hhigh⟩ : low ≤ a ∧ b ≤ low + 1 := by
            simpa [Constructor.isCoveredBy, ctor] using hcovered
          exact ⟨min, max, hbounds, by omega, by omega, by omega⟩

/-! ### All types -/

/-- A type of which no value has constructors. -/
theorem regions_nil (h : ∀ v : Value, v.HasType ty → ¬ HasCtors v ty) : Regions ty heads [] where
  covered _ hc := absurd hc List.not_mem_nil
  fields _ hc := absurd hc List.not_mem_nil
  specialized _ hc := absurd hc List.not_mem_nil
  exists_ctor v hv hctors := absurd hctors (h v hv)
  typed _ hc := absurd hc List.not_mem_nil
  accepts _ hc := absurd hc List.not_mem_nil

/-- A value that is nothing but its bits has no constructors. -/
theorem regions_raw {base : PrimitiveType} {params : List ConcreteType}
    (hraw : (ConcreteType.single base params).isRaw = true) :
    Regions (.single base params) heads [] := by
  refine regions_nil fun v hv hctors => ?_
  cases base <;> simp [ConcreteType.isRaw] at hraw <;> cases v <;>
    simp_all [Value.HasType, HasCtors, ConcreteType.bounds]

/-- **Regions.** -/
theorem splitWildcard_regions (hty : ty.IsFinite) (hheads : ∀ p ∈ heads, p.WellTyped ty) :
    ∃ ctors, splitWildcard ty (heads.map ctor) = some ctors ∧ Regions ty heads ctors := by
  cases hty with
  | int hpos hsize =>
      have hint := isInteger_int hpos hsize
      exact regions_integer hint.bounds hint.lt.le hint.split hheads
  | @uint bits hpos hsize =>
      refine regions_integer rfl ?_ (fun splitOther others => ?_) hheads
      · have : (1 : ℤ) ≤ 2 ^ bits.toNat := one_le_pow₀ (by norm_num)
        omega
      · simp only [splitWildcardWith, List.head?_cons, toU128, if_pos (And.intro hpos hsize),
          Option.bind_eq_bind, Option.bind_some]
  | bool => exact regions_bool hheads
  | @raw base params hraw =>
      refine ⟨[], ?_, regions_raw hraw⟩
      cases base <;> simp [ConcreteType.isRaw] at hraw <;> rfl
  | tuple h => exact ⟨_, rfl, (IsRecord.tuple _).regions hheads⟩
  | struct h => exact ⟨_, rfl, (IsRecord.struct _).regions hheads⟩
  | array h hpos hsize => exact ⟨_, rfl, regions_array hpos hsize hheads⟩
  | enum h => exact ⟨_, rfl, regions_enum hheads⟩
  | backward inner => exact ⟨_, rfl, regions_port rfl trivial hheads⟩
  | wire inner => exact ⟨_, rfl, regions_port rfl trivial hheads⟩

end Spade.HirLowering

import Spade.HirLowering.Regions
import Spade.HirLowering.Exhaustiveness
import Spade.Lib.OptionList

/-!
# The witnesses of usefulness

What the witnesses that the usefulness algorithm reports for a wildcard say about the values of a
type.

* **Witness stacks** (`isUseful_witnesses`): the witnesses are well formed, no row matches a value
  of a witness when literals are read as `taken` says, and every value that no row matches when
  literals are read as `within` says has a witness.
* **Genuine witnesses** (`witnesses_genuine`): if every value that a pattern matches is also matched
  by a pattern of which no literal is the largest value of its type, no value of a witness is
  matched by a pattern.
-/

namespace Spade.HirLowering

open Hir DeconstructedPattern ConcreteType

variable {c : Constructor} {ty : ConcreteType} {types : List ConcreteType}

/-- The fields of a constructor of a finite type are finite. -/
theorem isFinite_fields (hty : ty.IsFinite) (h : c.fields ty = some types) :
    ∀ type ∈ types, type.IsFinite := by
  have hempty : types = [] → ∀ type ∈ types, type.IsFinite := by
    rintro rfl type htype
    exact absurd htype List.not_mem_nil
  cases c with
  | single =>
      cases hty with
      | tuple hinner =>
          obtain rfl := Option.some.inj h
          exact hinner
      | struct hmembers =>
          obtain rfl := Option.some.inj h
          simpa using fun ty name hmem => hmembers (name, ty) hmem
      | array hinner hpos hsize =>
          rw [Constructor.fields, toU128, if_pos ⟨hpos, hsize⟩] at h
          obtain rfl := Option.some.inj h
          intro type htype
          rwa [List.eq_of_mem_replicate htype]
      | enum hoptions => exact absurd h (by simp [Constructor.fields])
      | _ => exact hempty (Option.some.inj h).symm
  | variant option =>
      cases hty with
      | enum hoptions => exact hoptions types (List.mem_of_getElem? h)
      | _ => exact absurd h (by simp [Constructor.fields])
  | bool b => exact hempty (Option.some.inj h).symm
  | intRange low high => exact hempty (Option.some.inj h).symm
  | missing all => exact hempty (Option.some.inj h).symm
  | wildcard => exact absurd h (by simp [Constructor.fields])

/-! ### Applying a constructor to witnesses -/

/-- The witness whose last fields, as many as the arity, have become a pattern. -/
def Witness.built (c : Constructor) (ty : ConcreteType) (arity : ℕ) (w : Witness) : Witness :=
  w.take (w.length - arity) ++ [.mk c (w.drop (w.length - arity)).reverse ty]

theorem Witness.applyConstructor_eq {w : Witness} (h : c.fields ty = some types)
    (hlen : types.length ≤ w.length) :
    w.applyConstructor c ty = some (w.built c ty types.length) := by
  simp only [applyConstructor, Constructor.arity, h, Option.map_some, Option.bind_eq_bind,
    Option.bind_some, if_neg (Nat.not_lt.mpr hlen), built]

/-- The fields of a witness stand in reverse, so the first ones become a pattern. -/
theorem Witness.reverse_built {w : Witness} {fields rest : List DeconstructedPattern}
    (h : w.reverse = fields ++ rest) :
    (w.built c ty fields.length).reverse = .mk c fields ty :: rest := by
  obtain rfl : w = rest.reverse ++ fields.reverse := by
    rw [← List.reverse_append, ← h, List.reverse_reverse]
  simp [built]

theorem Witness.applyConstructors_eq {w : Witness}
    (h : ∀ c' ∈ c.alternatives, c'.fields ty = some types) (hlen : types.length ≤ w.length) :
    w.applyConstructors c ty = some (c.alternatives.map fun c' => w.built c' ty types.length) := by
  have happly := fun c' hc' => w.applyConstructor_eq (h c' hc') hlen
  cases c with
  | missing allMissing => exact mapM_eq_map happly
  | _ =>
      simp only [applyConstructors, happly _ (List.mem_singleton_self _), Option.bind_eq_bind,
        Option.bind_some]
      rfl

theorem Usefulness.applyConstructor_eq {u : Usefulness}
    (h : ∀ c' ∈ c.alternatives, c'.fields ty = some types)
    (hlen : ∀ w ∈ u.witnesses, types.length ≤ w.length) :
    u.applyConstructor c ty = some ⟨u.witnesses.flatMap fun w =>
      c.alternatives.map fun c' => w.built c' ty types.length⟩ := by
  obtain ⟨witnesses⟩ := u
  have hmap := mapM_eq_map fun w hw => Witness.applyConstructors_eq h (hlen w hw)
  cases witnesses with
  | nil => rfl
  | cons w ws =>
      simp only [applyConstructor, hmap, Option.bind_eq_bind, Option.bind_some,
        List.isEmpty_cons, List.flatMap]
      rfl

theorem mem_extend_iff {u other : Usefulness} {w : Witness} :
    w ∈ (u.extend other).witnesses ↔ w ∈ u.witnesses ∨ w ∈ other.witnesses := by
  obtain ⟨_ | ⟨w', ws⟩⟩ := u <;> obtain ⟨_ | ⟨w'', ws'⟩⟩ := other <;>
    simp [Usefulness.extend, or_assoc]

/-- The loop over the constructors collects the witnesses of all of them. -/
theorem usefulCtors_witnesses {recurse : PatStack → Matrix → Option Usefulness}
    {pattern : PatStack} {prev : Matrix} {found : Constructor → Usefulness → Prop}
    {ctors : List Constructor}
    (hctors : ∀ c ∈ ctors, ∃ pattern' prev' u u', pattern.popHead c = some pattern' ∧
      prev.specialize c = some prev' ∧ recurse pattern' prev' = some u ∧
      u.applyConstructor c ty = some u' ∧ found c u') (ret : Usefulness) :
    ∃ u, usefulCtors recurse pattern prev ty ctors ret = some u ∧
      (∀ w ∈ ret.witnesses, w ∈ u.witnesses) ∧
      (∀ w ∈ u.witnesses, w ∈ ret.witnesses ∨ ∃ c ∈ ctors, ∃ u', found c u' ∧ w ∈ u'.witnesses) ∧
      ∀ c ∈ ctors, ∃ u', found c u' ∧ ∀ w ∈ u'.witnesses, w ∈ u.witnesses := by
  induction ctors generalizing ret with
  | nil => exact ⟨ret, rfl, fun w hw => hw, fun w hw => Or.inl hw, by simp⟩
  | cons c ctors ih =>
      rw [List.forall_mem_cons] at hctors
      obtain ⟨⟨pattern', prev', u, u', hpattern, hprev, hu, hu', hfound⟩, hctors⟩ := hctors
      obtain ⟨result, hresult, hret, hfrom, hall⟩ := ih hctors (ret.extend u')
      refine ⟨result, by simpa [usefulCtors, hpattern, hprev, hu, hu'] using hresult,
        fun w hw => hret w (mem_extend_iff.mpr (Or.inl hw)), fun w hw => ?_,
        List.forall_mem_cons.mpr
          ⟨⟨u', hfound, fun w hw => hret w (mem_extend_iff.mpr (Or.inr hw))⟩, hall⟩⟩
      rcases hfrom w hw with hw | ⟨c', hc', found⟩
      · rcases mem_extend_iff.mp hw with hw | hw
        · exact Or.inl hw
        · exact Or.inr ⟨c, List.mem_cons_self, u', hfound, hw⟩
      · exact Or.inr ⟨c', List.mem_cons_of_mem _ hc', found⟩

/-! ### One column of the matrix -/

/-- The rows of a specialized matrix that match the fields of a value. -/
theorem specialize_meets {range : RangeReading} {types' : List ConcreteType}
    {split : List (DeconstructedPattern × PatStack)} {rows : Matrix}
    (hrows : Matrix.specialize c (split.map fun q => q.1 :: q.2) = some rows)
    (hspecialized : ∀ q ∈ split, c.isCoveredBy q.1.ctor = some true →
      ∃ fields, q.1.specialize c = some fields ∧ WellTypedList fields types')
    {vs ws : List Value} (hlen : vs.length = types'.length) :
    (∃ row ∈ rows, MeetsList range row (vs ++ ws)) ↔
      ∃ q ∈ split, AcceptsBy range c q.1 vs ∧ MeetsList range q.2 ws := by
  induction split generalizing rows with
  | nil =>
      obtain rfl := Option.some.inj hrows
      simp
  | cons q split ih =>
      rw [List.forall_mem_cons] at hspecialized
      simp only [List.map_cons, Matrix.specialize, List.head?_cons, Option.bind_eq_bind,
        Option.bind_some, Option.bind_eq_some_iff] at hrows
      obtain ⟨covered, hcovered, rest, hrest, hrows⟩ := hrows
      have hiff := ih hrest hspecialized.2
      cases covered with
      | false =>
          obtain rfl := Option.some.inj hrows
          simp [hiff, AcceptsBy, hcovered]
      | true =>
          obtain ⟨fields, hfields, htyped⟩ := hspecialized.1 hcovered
          obtain rfl : (fields ++ q.2) :: rest = rows := by
            simpa [PatStack.popHead, hfields] using hrows
          have happend := @meetsList_append range fields q.2 vs ws
            (htyped.length_eq.trans hlen.symm)
          simp [hiff, AcceptsBy, hcovered, hfields, happend]

/-- The values of a pattern of a witness, by the fields of the value. -/
theorem meets_mk_iff (hctor : c.IsConstructorOf ty) (hfields : c.fields ty = some types)
    {fields : List DeconstructedPattern} (hlen : fields.length = types.length) (v : Value) :
    (mk c fields ty).Meets inclusive v ↔
      ∃ vs, Belongs c ty v vs ∧ MeetsList inclusive fields vs := by
  constructor
  · intro h
    cases c with
    | single =>
        cases v with
        | fields vs => exact ⟨vs, .fields vs, h⟩
        | raw bits => exact ⟨[], .raw h.1 bits, meetsList_nil.mpr h.2⟩
        | _ => exact h.elim
    | variant option =>
        cases v with
        | variant option' vs =>
            obtain ⟨rfl, h⟩ := h
            exact ⟨vs, .variant _ vs, h⟩
        | _ => exact h.elim
    | bool b =>
        obtain rfl : [] = types := Option.some.inj hfields
        obtain rfl := List.length_eq_zero_iff.mp hlen
        cases v with
        | bool b' =>
            obtain rfl : b = b' := h
            exact ⟨[], .bool b, trivial⟩
        | _ => exact h.elim
    | intRange min max =>
        obtain rfl : [] = types := Option.some.inj hfields
        obtain rfl := List.length_eq_zero_iff.mp hlen
        cases v with
        | int n => exact ⟨[], .int h.1 h.2, trivial⟩
        | _ => exact h.elim
    | missing all => exact hctor.elim
    | wildcard => exact hctor.elim
  · rintro ⟨vs, hbelongs, hmeets⟩
    cases hbelongs with
    | fields => exact hmeets
    | raw hraw => exact ⟨hraw, meetsList_nil.mp hmeets⟩
    | variant => exact ⟨rfl, hmeets⟩
    | bool => rfl
    | int hmin hmax => exact ⟨hmin, hmax⟩

/-- What the witnesses that are found for a matrix say. -/
structure Witnesses (types : List ConcreteType) (rows : Matrix) (u : Usefulness) : Prop where
  wellFormed : ∀ w ∈ u.witnesses, WellFormedList w.reverse types
  /-- No row matches a value of a witness. -/
  sound : ∀ w ∈ u.witnesses, ∀ vs, HasTypeList vs types → MeetsList inclusive w.reverse vs →
    ∀ row ∈ rows, ¬ MeetsList (ofReading taken) row vs
  /-- Values that no row matches have a witness. -/
  complete : ∀ vs, HasTypeList vs types → HaveCtors vs types →
    (∀ row ∈ rows, ¬ MeetsList (ofReading within) row vs) →
    ∃ w ∈ u.witnesses, MeetsList inclusive w.reverse vs

/-- What the witnesses that are found for one constructor of a column say. -/
structure ColumnWitnesses (ty : ConcreteType) (types : List ConcreteType) (rows : Matrix)
    (c : Constructor) (u : Usefulness) : Prop where
  wellFormed : ∀ w ∈ u.witnesses, WellFormedList w.reverse (ty :: types)
  sound : ∀ w ∈ u.witnesses, ∀ vs, HasTypeList vs (ty :: types) →
    MeetsList inclusive w.reverse vs → ∀ row ∈ rows, ¬ MeetsList (ofReading taken) row vs
  /-- Values of the constructor that no row matches have a witness. -/
  complete : ∀ c' ∈ c.alternatives, ∀ v vs ws, v.HasType ty → Belongs c' ty v vs →
    (∀ types', c.fields ty = some types' → HaveCtors vs types') → HasTypeList ws types →
    HaveCtors ws types → (∀ row ∈ rows, ¬ MeetsList (ofReading within) row (v :: ws)) →
    ∃ w ∈ u.witnesses, MeetsList inclusive w.reverse (v :: ws)

theorem haveCtors_append {vs ws : List Value} {types types' : List ConcreteType}
    (hlen : vs.length = types'.length) :
    HaveCtors (vs ++ ws) (types' ++ types) ↔ HaveCtors vs types' ∧ HaveCtors ws types := by
  induction vs generalizing types' with
  | nil =>
      obtain rfl := List.length_eq_zero_iff.mp hlen.symm
      simp [HaveCtors]
  | cons v vs ih =>
      cases types' with
      | nil => simp at hlen
      | cons ty types' =>
          simp only [List.cons_append, HaveCtors, ih (by simpa using hlen), and_assoc]

/-- **One column.** The witnesses of the fields of a constructor become witnesses of its values. -/
theorem columnWitnesses_of_fields {split : List (DeconstructedPattern × PatStack)}
    {ctors : List Constructor} (hregions : Regions ty (split.map Prod.fst) ctors) (hc : c ∈ ctors)
    {types' : List ConcreteType} (htypes' : c.fields ty = some types') {rows : Matrix}
    (hrows : Matrix.specialize c (split.map fun q => q.1 :: q.2) = some rows) {u : Usefulness}
    (hu : Witnesses (types' ++ types) rows u) :
    ∃ u', u.applyConstructor c ty = some u' ∧
      ColumnWitnesses ty types (split.map fun q => q.1 :: q.2) c u' := by
  have halternatives : ∀ c' ∈ c.alternatives, c'.fields ty = some types' ∧
      c'.IsConstructorOf ty := by
    obtain ⟨types'', htypes'', h⟩ := hregions.fields c hc
    obtain rfl : types' = types'' := Option.some.inj (htypes'.symm.trans htypes'')
    exact h
  have hmeets := fun (range : RangeReading) (vs ws : List Value) =>
    @specialize_meets c range types' split rows hrows
      (fun q hq => hregions.specialized c hc types' htypes' q.1 (List.mem_map.mpr ⟨q, hq, rfl⟩))
      vs ws
  refine ⟨_, u.applyConstructor_eq (fun c' hc' => (halternatives c' hc').1) fun w hw => ?_,
    fun w hw => ?_, fun w hw us hus hmeetsw row hrow => ?_,
    fun c' hc' v vs ws hv hbelongs hvs hws hwsctors hnone => ?_⟩
  · have hlen := (hu.wellFormed w hw).length_eq
    rw [List.length_reverse, List.length_append] at hlen
    omega
  · obtain ⟨w', hw', hmem⟩ := List.mem_flatMap.mp hw
    obtain ⟨c', hc', rfl⟩ := List.mem_map.mp hmem
    obtain ⟨fields, rest, hreverse, hfields, hrest⟩ :=
      wellFormedList_append.mp (hu.wellFormed w' hw')
    rw [← hfields.length_eq, Witness.reverse_built hreverse]
    refine ⟨⟨rfl, (halternatives c' hc').2, ?_⟩, hrest⟩
    rwa [(halternatives c' hc').1]
  · obtain ⟨w', hw', hmem⟩ := List.mem_flatMap.mp hw
    obtain ⟨c', hc', rfl⟩ := List.mem_map.mp hmem
    obtain ⟨fields, rest, hreverse, hfields, hrest⟩ :=
      wellFormedList_append.mp (hu.wellFormed w' hw')
    rw [← hfields.length_eq, Witness.reverse_built hreverse] at hmeetsw
    cases us with
    | nil => exact hus.elim
    | cons v ws =>
        obtain ⟨q, hq, rfl⟩ := List.mem_map.mp hrow
        obtain ⟨vs, hbelongs, hvs⟩ := (meets_mk_iff (halternatives c' hc').2
          (halternatives c' hc').1 hfields.length_eq v).mp hmeetsw.1
        have hvstyped := hregions.typed c hc c' hc' types' v vs htypes' hus.1 hbelongs
        have hlen := HasTypeList.length_eq hvstyped
        rintro ⟨hmeetsv, hmeetsws⟩
        have haccepts := (hregions.accepts c hc c' hc' v vs hus.1 hbelongs q.1
          (List.mem_map.mpr ⟨q, hq, rfl⟩)).1 hmeetsv
        obtain ⟨row, hrow, hmeetsrow⟩ := (hmeets _ vs ws hlen).mpr ⟨q, hq, haccepts, hmeetsws⟩
        refine hu.sound w' hw' (vs ++ ws)
          (hasTypeList_append.mpr ⟨vs, ws, rfl, hvstyped, hus.2⟩) ?_ row hrow hmeetsrow
        rw [hreverse, meetsList_append (hfields.length_eq.trans hlen.symm)]
        exact ⟨hvs, hmeetsw.2⟩
  · have hvstyped := hregions.typed c hc c' hc' types' v vs htypes' hv hbelongs
    have hlen := HasTypeList.length_eq hvstyped
    obtain ⟨w, hw, hmeetsw⟩ := hu.complete (vs ++ ws)
      (hasTypeList_append.mpr ⟨vs, ws, rfl, hvstyped, hws⟩)
      ((haveCtors_append hlen).mpr ⟨hvs types' htypes', hwsctors⟩) (by
        rintro row hrow hmeetsrow
        obtain ⟨q, hq, haccepts, hmeetsws⟩ := (hmeets _ vs ws hlen).mp ⟨row, hrow, hmeetsrow⟩
        have hmeetsv := (hregions.accepts c hc c' hc' v vs hv hbelongs q.1
          (List.mem_map.mpr ⟨q, hq, rfl⟩)).2 haccepts
        exact hnone (q.1 :: q.2) (List.mem_map.mpr ⟨q, hq, rfl⟩) ⟨hmeetsv, hmeetsws⟩)
    obtain ⟨fields, rest, hreverse, hfields, hrest⟩ :=
      wellFormedList_append.mp (hu.wellFormed w hw)
    rw [hreverse, meetsList_append (hfields.length_eq.trans hlen.symm)] at hmeetsw
    refine ⟨_, List.mem_flatMap.mpr ⟨w, hw, List.mem_map.mpr ⟨c', hc', rfl⟩⟩, ?_⟩
    rw [← hfields.length_eq, Witness.reverse_built hreverse]
    exact ⟨(meets_mk_iff (halternatives c' hc').2 (halternatives c' hc').1 hfields.length_eq
      v).mpr ⟨vs, hbelongs, hmeetsw.1⟩, hmeetsw.2⟩

/-- The witnesses of all constructors of a column. -/
theorem witnesses_of_columns {rows : Matrix} {heads : List DeconstructedPattern}
    {ctors : List Constructor} (hregions : Regions ty heads ctors) {u : Usefulness}
    (hfrom : ∀ w ∈ u.witnesses, ∃ c ∈ ctors, ∃ u', ColumnWitnesses ty types rows c u' ∧
      w ∈ u'.witnesses)
    (hall : ∀ c ∈ ctors, ∃ u', ColumnWitnesses ty types rows c u' ∧
      ∀ w ∈ u'.witnesses, w ∈ u.witnesses) :
    Witnesses (ty :: types) rows u where
  wellFormed w hw := by
    obtain ⟨c, -, u', hu', hw⟩ := hfrom w hw
    exact hu'.wellFormed w hw
  sound w hw := by
    obtain ⟨c, -, u', hu', hw⟩ := hfrom w hw
    exact hu'.sound w hw
  complete vs hvs hctors hnone := by
    cases vs with
    | nil => exact hvs.elim
    | cons v ws =>
        obtain ⟨c, hc, c', hc', vs, hbelongs, hfields⟩ := hregions.exists_ctor v hvs.1 hctors.1
        obtain ⟨u', hu', hmem⟩ := hall c hc
        obtain ⟨w, hw, hmeets⟩ := hu'.complete c' hc' v vs ws hvs.1 hbelongs
          (fun types' htypes' => (hfields types' htypes').2) hvs.2 hctors.2 hnone
        exact ⟨w, hmem w hw, hmeets⟩

/-! ### The algorithm -/

/-- **Witness stacks.** -/
theorem isUseful_witnesses {fuel : ℕ} {rows : Matrix} (hfinite : ∀ ty ∈ types, ty.IsFinite)
    (hrows : RowsTyped rows types) (hfuel : weightSum types < fuel) :
    ∃ u, isUseful fuel (types.map wildcard) rows = some u ∧ Witnesses types rows u := by
  induction fuel generalizing types rows with
  | zero => exact absurd hfuel (Nat.not_lt_zero _)
  | succ fuel ih =>
      cases types with
      | nil =>
          cases rows with
          | nil =>
              refine ⟨.newUseful, rfl, fun w hw => ?_, fun w _ vs _ _ => by simp,
                fun vs hvs _ _ => ⟨[], List.mem_singleton_self _, ?_⟩⟩
              · obtain rfl := List.mem_singleton.mp hw
                trivial
              · obtain rfl := List.length_eq_zero_iff.mp (HasTypeList.length_eq hvs)
                trivial
          | cons row rows =>
              refine ⟨.newUseless, rfl, fun w hw => absurd hw List.not_mem_nil,
                fun w hw => absurd hw List.not_mem_nil, fun vs hvs _ hnone => ?_⟩
              obtain rfl := List.length_eq_zero_iff.mp (HasTypeList.length_eq hvs)
              obtain rfl := List.length_eq_zero_iff.mp (hrows row List.mem_cons_self).length_eq
              exact absurd trivial (hnone [] List.mem_cons_self)
      | cons ty types =>
          obtain ⟨split, rfl, hsplit⟩ := rowsTyped_cons hrows
          rw [List.forall_mem_cons] at hfinite
          have hheads : ∀ p ∈ split.map Prod.fst, p.WellTyped ty := by
            intro p hp
            obtain ⟨q, hq, rfl⟩ := List.mem_map.mp hp
            exact (hsplit q hq).1
          obtain ⟨ctors, hctors, hregions⟩ := splitWildcard_regions hfinite.1 hheads
          obtain ⟨u, hu, -, hfrom, hall⟩ := @usefulCtors_witnesses ty (isUseful fuel)
            ((ty :: types).map wildcard) (split.map fun q => q.1 :: q.2)
            (ColumnWitnesses ty types (split.map fun q => q.1 :: q.2)) ctors (fun c hc => by
              obtain ⟨types', htypes', -⟩ := hregions.fields c hc
              obtain ⟨rows', hrows', hrowstyped, -⟩ := @specialize_rows c split types types'
                (fun q hq => hregions.covered c hc q.1 (List.mem_map.mpr ⟨q, hq, rfl⟩))
                (fun q hq => hregions.specialized c hc types' htypes' q.1
                  (List.mem_map.mpr ⟨q, hq, rfl⟩))
                fun q hq => (hsplit q hq).2
              have hweight := weightSum_fields htypes'
              obtain ⟨u, hu, hwitnesses⟩ := @ih (types' ++ types) rows'
                (List.forall_mem_append.mpr ⟨isFinite_fields hfinite.1 htypes', hfinite.2⟩)
                hrowstyped (by rw [weightSum_append]; rw [weightSum] at hfuel; omega)
              obtain ⟨u', hu', hcolumn⟩ :=
                columnWitnesses_of_fields hregions hc htypes' hrows' hwitnesses
              refine ⟨(types' ++ types).map wildcard, rows', u, u', ?_, hrows', hu, hu', hcolumn⟩
              simp [PatStack.popHead, wildcard, specialize_wildcard htypes'])
            .newUseless
          refine ⟨u, ?_, witnesses_of_columns hregions (fun w hw => ?_) hall⟩
          · simp only [List.map_cons, isUseful, mapM_head, Option.bind_eq_bind, Option.bind_some]
            rw [show (wildcard ty).ctor.split (wildcard ty).ty ((split.map Prod.fst).map ctor) =
              some ctors by exact hctors]
            exact hu
          · exact (hfrom w hw).resolve_left List.not_mem_nil

/-! ### Genuine witnesses -/

mutual

/-- A value of a well-formed pattern has constructors. -/
theorem hasCtors_of_meets : ∀ (v : Value) (d : DeconstructedPattern) (ty : ConcreteType),
    d.WellFormed ty → d.Meets inclusive v → HasCtors v ty
  | .int _, _, _, _, _ => trivial
  | .bool _, _, _, _, _ => trivial
  | .raw bits, .mk c fields ty, _, hd, hmeets => by
      obtain ⟨rfl, hctor, -⟩ := hd
      cases c with
      | single =>
          have hraw := hmeets.1
          cases ty <;> simp_all [HasCtors, Constructor.IsConstructorOf, ConcreteType.isRaw]
      | wildcard => exact hctor.elim
      | _ => exact hmeets.elim
  | .fields vs, .mk c fields ty, _, hd, hmeets => by
      obtain ⟨rfl, hctor, hfields⟩ := hd
      cases c with
      | single =>
          cases ty with
          | tuple types => exact haveCtors_of_meets vs fields types hfields hmeets
          | struct members => exact haveCtors_of_meets vs fields _ hfields hmeets
          | array inner size =>
              simp only [Constructor.fields, toU128] at hfields
              split_ifs at hfields
              · exact haveCtors_of_meets vs fields _ hfields hmeets
              · exact hfields.elim
          | _ => trivial
      | wildcard => exact hctor.elim
      | _ => exact hmeets.elim
  | .variant option vs, .mk c fields ty, _, hd, hmeets => by
      obtain ⟨rfl, hctor, hfields⟩ := hd
      cases c with
      | variant option' =>
          obtain ⟨rfl, hmeets⟩ := hmeets
          cases ty with
          | enum options =>
              simp only [Constructor.fields] at hfields
              simp only [HasCtors]
              cases hoption : options[option]? <;> rw [hoption] at hfields
              case none => exact hfields.elim
              case some types => exact haveCtors_of_meets vs fields types hfields hmeets
          | _ => trivial
      | wildcard => exact hctor.elim
      | _ => exact hmeets.elim

theorem haveCtors_of_meets : ∀ (vs : List Value) (ds : List DeconstructedPattern)
    (types : List ConcreteType), WellFormedList ds types → MeetsList inclusive ds vs →
    HaveCtors vs types
  | [], _, _, _, _ => trivial
  | _ :: _, [], _, _, hmeets => hmeets.elim
  | _ :: _, _ :: _, [], hds, _ => hds.elim
  | v :: vs, d :: ds, ty :: types, hds, hmeets =>
      ⟨hasCtors_of_meets v d ty hds.1 hmeets.1, haveCtors_of_meets vs ds types hds.2 hmeets.2⟩

end

variable {ctx : PatternContext} {pats : List Pattern}

/-- The rows of a list of patterns. -/
theorem fromHirList_rows (hpats : ∀ p ∈ pats, p.WellTyped ctx ty) :
    ∃ rows, fromHirList ctx pats = some rows ∧ RowsTyped (rows.map fun p => [p]) [ty] ∧
      ∀ reading v, (∃ row ∈ rows.map fun p => [p], MeetsList (ofReading reading) row [v]) ↔
        ∃ p ∈ pats, p.Matches ctx reading v := by
  induction pats with
  | nil => exact ⟨[], rfl, fun _ h => absurd h List.not_mem_nil, by simp⟩
  | cons p pats ih =>
      rw [List.forall_mem_cons] at hpats
      obtain ⟨d, hd, htyped, hmeets⟩ := fromHir_meets ctx p ty hpats.1
      obtain ⟨rows, hrows, htypeds, hmeetss⟩ := ih hpats.2
      refine ⟨d :: rows, by simp [fromHirList, hd, hrows],
        List.forall_mem_cons.mpr ⟨⟨htyped, trivial⟩, htypeds⟩, fun reading v => ?_⟩
      rw [List.map_cons, List.exists_mem_cons_iff, List.exists_mem_cons_iff, hmeetss, ← hmeets]
      simp [MeetsList]

/-- No value of a witness is matched by one of the patterns. -/
def Genuine (ctx : PatternContext) (ty : ConcreteType) (pats : List Pattern) (u : Usefulness) :
    Prop :=
  ∀ w ∈ u.witnesses, ∃ d, w = [d] ∧ d.WellFormed ty ∧ ∀ v : Value, v.HasType ty →
    d.Meets inclusive v → ∀ p ∈ pats, ¬ p.Matches ctx exact v

/-- Every value that can be in a witness and that is matched by one of the patterns is also matched
by one when literals are read differently. -/
def MatchedAlso (ctx : PatternContext) (ty : ConcreteType) (pats : List Pattern)
    (reading : Reading) : Prop :=
  ∀ v : Value, v.HasType ty → HasCtors v ty → (∃ p ∈ pats, p.Matches ctx exact v) →
    ∃ p ∈ pats, p.Matches ctx reading v

/-- The witnesses that are reported for a wildcard. -/
theorem isUseful_values (hty : ty.IsFinite) (hpats : ∀ p ∈ pats, p.WellTyped ctx ty) :
    ∃ rows, fromHirList ctx pats = some rows ∧ ∀ fuel > ty.weight, ∃ u,
      isUseful fuel [wildcard ty] (rows.map fun p => [p]) = some u ∧
      (∀ w ∈ u.witnesses, ∃ d, w = [d] ∧ d.WellFormed ty ∧ ∀ v : Value, v.HasType ty →
        d.Meets inclusive v → HasCtors v ty ∧ ¬ ∃ p ∈ pats, p.Matches ctx taken v) ∧
      ∀ v : Value, v.HasType ty → HasCtors v ty → (¬ ∃ p ∈ pats, p.Matches ctx within v) →
        ∃ d, [d] ∈ u.witnesses ∧ d.Meets inclusive v := by
  obtain ⟨rows, hrows, htyped, hmeets⟩ := fromHirList_rows hpats
  refine ⟨rows, hrows, fun fuel hfuel => ?_⟩
  obtain ⟨u, hu, hwitnesses⟩ := @isUseful_witnesses [ty] fuel _ (by simpa using hty) htyped
    (by simpa [weightSum] using hfuel)
  have hsingle : ∀ w ∈ u.witnesses, ∃ d, w = [d] ∧ d.WellFormed ty := by
    intro w hw
    have hformed := hwitnesses.wellFormed w hw
    obtain ⟨d, rfl⟩ : ∃ d, w = [d] := by
      have hlen := hformed.length_eq
      rw [List.length_reverse] at hlen
      exact List.length_eq_one_iff.mp hlen
    exact ⟨d, rfl, hformed.1⟩
  refine ⟨u, hu, fun w hw => ?_, fun v hv hctors hnone => ?_⟩
  · obtain ⟨d, rfl, hd⟩ := hsingle w hw
    refine ⟨d, rfl, hd, fun v hv hmeetsv => ⟨hasCtors_of_meets v d ty hd hmeetsv, fun h => ?_⟩⟩
    obtain ⟨row, hrow, h⟩ := (hmeets taken v).mpr h
    exact hwitnesses.sound _ hw [v] ⟨hv, trivial⟩ ⟨hmeetsv, trivial⟩ row hrow h
  · obtain ⟨w, hw, hmeetsw⟩ := hwitnesses.complete [v] ⟨hv, trivial⟩ ⟨hctors, trivial⟩
      fun row hrow h => hnone ((hmeets within v).mp ⟨row, hrow, h⟩)
    obtain ⟨d, rfl, -⟩ := hsingle w hw
    exact ⟨d, hw, hmeetsw.1⟩

/-- **Genuine witnesses.** The witnesses are well formed, and they are genuine if every matched
value is also matched when the largest value of a type is no literal. Conversely, when they are
genuine, every matched value is also matched when a literal may stand for the value above it. -/
theorem witnesses_genuine (ctx : PatternContext) (ty : ConcreteType) (hty : ty.IsFinite)
    (pats : List Pattern) (hpats : ∀ p ∈ pats, p.WellTyped ctx ty) :
    ∃ rows, fromHirList ctx pats = some rows ∧ ∀ fuel > ty.weight, ∃ u,
      isUseful fuel [wildcard ty] (rows.map fun p => [p]) = some u ∧
      (∀ w ∈ u.witnesses, ∃ d, w = [d] ∧ d.WellFormed ty) ∧
      (MatchedAlso ctx ty pats taken → Genuine ctx ty pats u) ∧
      (Genuine ctx ty pats u → MatchedAlso ctx ty pats within) := by
  obtain ⟨rows, hrows, huseful⟩ := isUseful_values hty hpats
  refine ⟨rows, hrows, fun fuel hfuel => ?_⟩
  obtain ⟨u, hu, hsound, hcomplete⟩ := huseful fuel hfuel
  refine ⟨u, hu, fun w hw => ?_, fun hmatched w hw => ?_, fun hgenuine v hv hctors hmatched => ?_⟩
  · obtain ⟨d, hd, hformed, -⟩ := hsound w hw
    exact ⟨d, hd, hformed⟩
  · obtain ⟨d, hd, hformed, hvalues⟩ := hsound w hw
    refine ⟨d, hd, hformed, fun v hv hmeets p hp hmatches => ?_⟩
    obtain ⟨hctors, hnone⟩ := hvalues v hv hmeets
    exact hnone (hmatched v hv hctors ⟨p, hp, hmatches⟩)
  · by_contra hnone
    obtain ⟨d, hd, hmeets⟩ := hcomplete v hv hctors hnone
    obtain ⟨d', heq, -, hvalues⟩ := hgenuine _ hd
    obtain rfl : d = d' := by simpa using heq
    obtain ⟨p, hp, hmatches⟩ := hmatched
    exact hvalues v hv hmeets p hp hmatches

/-- The witnesses of the literal `0` are those of the other values of `uint<2>`. -/
theorem witnesses_uint : ∃ rows, fromHirList (uintContext 2) [.integer 0 0] = some rows ∧
    ∀ fuel > 1, ∃ u, isUseful fuel [wildcard (.single .uint [.integer 2])]
      (rows.map fun p => [p]) = some u ∧ Genuine (uintContext 2) (.single .uint [.integer 2])
        [.integer 0 0] u := by
  obtain ⟨rows, hrows, h⟩ := witnesses_genuine (uintContext 2) (.single .uint [.integer 2])
    (.uint (by decide) (by decide)) [.integer 0 0]
    (by simp [Pattern.WellTyped, uintContext, ConcreteType.bounds])
  refine ⟨rows, hrows, fun fuel hfuel => ?_⟩
  obtain ⟨u, hu, -, hgenuine, -⟩ := h fuel hfuel
  refine ⟨u, hu, hgenuine fun v _ _ hmatched => ?_⟩
  obtain ⟨p, hp, hmatches⟩ := hmatched
  refine ⟨p, hp, ?_⟩
  obtain rfl := List.mem_singleton.mp hp
  cases v with
  | int n =>
      obtain rfl : n = 0 := hmatches
      exact ⟨0, 3, rfl, Or.inl ⟨rfl, Or.inl (by decide)⟩⟩
  | _ => exact hmatches.elim

/-- The literal `1` matches a value of the witness that is reported for `uint<1>`. -/
theorem not_witnesses_genuine : ¬ ∀ (ctx : PatternContext) (ty : ConcreteType), ty.IsFinite →
    ∀ pats : List Pattern, (∀ p ∈ pats, p.WellTyped ctx ty) → ∀ rows,
      fromHirList ctx pats = some rows → ∀ fuel u,
        isUseful fuel [wildcard ty] (rows.map fun p => [p]) = some u → Genuine ctx ty pats u := by
  intro h
  have hty : (ConcreteType.single .uint [.integer 1]).IsFinite := .uint (by decide) (by decide)
  have hpats : ∀ p ∈ [Pattern.integer 0 1],
      p.WellTyped (uintContext 1) (.single .uint [.integer 1]) := by
    simp [Pattern.WellTyped, uintContext, ConcreteType.bounds]
  obtain ⟨rows, hrows, huseful⟩ := isUseful_values hty hpats
  obtain ⟨u, hu, -, hcomplete⟩ := huseful 2 (by decide)
  have htyped : (Value.int 1).HasType (.single .uint [.integer 1]) := by
    simp [Value.HasType, ConcreteType.bounds]
  obtain ⟨d, hd, hmeets⟩ := hcomplete (.int 1) htyped trivial (by
    rintro ⟨p, hp, hmatches⟩
    obtain rfl := List.mem_singleton.mp hp
    obtain ⟨min, max, hbounds, -, -, hlt⟩ := hmatches
    obtain ⟨rfl, rfl⟩ : (0 : ℤ) = min ∧ (1 : ℤ) = max := by
      simpa [uintContext, ConcreteType.bounds] using hbounds
    omega)
  obtain ⟨d', heq, -, hvalues⟩ := h _ _ hty _ hpats rows hrows 2 u hu _ hd
  obtain rfl : d = d' := by simpa using heq
  exact hvalues _ htyped hmeets _ (List.mem_singleton_self _) rfl

end Spade.HirLowering

import Spade.HirLowering.Usefulness
import Spade.HirLowering.Coverage

/-!
# Exhaustiveness checking

What the usefulness algorithm finds out about a wildcard and a matrix of patterns.

* **Usefulness of wildcards** (`isUseful_wildcards`): with enough fuel the algorithm returns, and
  there is a witness exactly when no row covers some row of values that can be compared with
  patterns.
* **Exhaustiveness** (`exhaustiveness_iff`): the check of a list of patterns is right exactly when,
  with some unmatched value, there is also an unmatched one without bits, clocks and voids when the
  integer literals are read as `ranged` says.
-/

namespace Spade.ConcreteType

/-! ### The weight of a type -/

/- A measure of types that the fields of a constructor make smaller, one function for every
container the recursion goes through. -/
mutual

/-- The number of steps it takes to look at a wildcard of the type. -/
def weight : ConcreteType → ℕ
  | tuple inner => weightSum inner + 1
  | struct members => weightMembers members + 1
  | array inner size => size.toNat * inner.weight + 1
  | enum options => weightOptions options + 1
  | _ => 1

def weightSum : List ConcreteType → ℕ
  | [] => 0
  | ty :: types => ty.weight + weightSum types

def weightMembers : List (String × ConcreteType) → ℕ
  | [] => 0
  | (_, ty) :: members => ty.weight + weightMembers members

def weightOptions : List (List ConcreteType) → ℕ
  | [] => 0
  | types :: options => weightSum types + weightOptions options

end

theorem weightSum_append (types types' : List ConcreteType) :
    weightSum (types ++ types') = weightSum types + weightSum types' := by
  induction types with
  | nil => simp [weightSum]
  | cons ty types ih => simp [weightSum, ih, Nat.add_assoc]

theorem weightMembers_eq (members : List (String × ConcreteType)) :
    weightMembers members = weightSum (members.map Prod.snd) := by
  induction members with
  | nil => rfl
  | cons m members ih => simp [weightMembers, weightSum, ih]

theorem weightSum_replicate (n : ℕ) (ty : ConcreteType) :
    weightSum (List.replicate n ty) = n * ty.weight := by
  induction n with
  | zero => simp [weightSum]
  | succ n ih => simp [List.replicate_succ, weightSum, ih, Nat.succ_mul, Nat.add_comm]

theorem weightSum_le_weightOptions {options : List (List ConcreteType)} {types : List ConcreteType}
    (h : types ∈ options) : weightSum types ≤ weightOptions options := by
  induction options with
  | nil => exact absurd h List.not_mem_nil
  | cons types' options ih =>
      rw [weightOptions]
      rcases List.mem_cons.mp h with rfl | h
      · exact Nat.le_add_right _ _
      · exact (ih h).trans (Nat.le_add_left _ _)

end Spade.ConcreteType

namespace Spade.HirLowering

open Hir DeconstructedPattern ConcreteType

/-- The fields of a constructor have a smaller weight than the type. -/
theorem weightSum_fields {c : Constructor} {ty : ConcreteType} {types : List ConcreteType}
    (h : c.fields ty = some types) : weightSum types < ty.weight := by
  have hempty : types = [] → weightSum types < ty.weight := by
    rintro rfl
    cases ty <;> simp [weightSum, weight]
  cases c with
  | single =>
      cases ty with
      | tuple inner =>
          obtain rfl := Option.some.inj h
          exact Nat.lt_succ_self _
      | struct members =>
          obtain rfl := Option.some.inj h
          rw [weight, weightMembers_eq]
          exact Nat.lt_succ_self _
      | array inner size =>
          simp only [Constructor.fields, Option.bind_eq_bind, Option.bind_eq_some_iff,
            Option.some.injEq, toU128] at h
          obtain ⟨n, hn, rfl⟩ := h
          split_ifs at hn
          obtain rfl := Option.some.inj hn
          rw [weightSum_replicate, weight]
          exact Nat.lt_succ_self _
      | enum options => exact absurd h (by simp [Constructor.fields])
      | integer value => exact absurd h (by simp [Constructor.fields])
      | single base params => exact hempty (Option.some.inj h).symm
      | backward inner => exact hempty (Option.some.inj h).symm
      | wire inner => exact hempty (Option.some.inj h).symm
  | variant option =>
      cases ty with
      | enum options =>
          have hle := weightSum_le_weightOptions (List.mem_of_getElem? h)
          rw [weight]
          omega
      | _ => exact absurd h (by simp [Constructor.fields])
  | bool b => exact hempty (Option.some.inj h).symm
  | intRange low high => exact hempty (Option.some.inj h).symm
  | missing all => exact hempty (Option.some.inj h).symm
  | wildcard => exact absurd h (by simp [Constructor.fields])

/-- The fields of a constructor of data are data. -/
theorem isData_fields {c : Constructor} {ty : ConcreteType} {types : List ConcreteType}
    (hty : ty.IsData) (h : c.fields ty = some types) : ∀ type ∈ types, type.IsData := by
  have hempty : types = [] → ∀ type ∈ types, type.IsData := by
    rintro rfl type htype
    exact absurd htype List.not_mem_nil
  cases c with
  | single =>
      cases hty with
      | tuple hinner =>
          obtain rfl := Option.some.inj h
          exact hinner
      | struct hmembers =>
          obtain rfl := Option.some.inj h
          simpa using fun ty name hmem => hmembers (name, ty) hmem
      | enum hoptions => exact absurd h (by simp [Constructor.fields])
      | _ => exact hempty (Option.some.inj h).symm
  | variant option =>
      cases hty with
      | enum hoptions => exact hoptions types (List.mem_of_getElem? h)
      | _ => exact absurd h (by simp [Constructor.fields])
  | bool b => exact hempty (Option.some.inj h).symm
  | intRange low high => exact hempty (Option.some.inj h).symm
  | missing all => exact hempty (Option.some.inj h).symm
  | wildcard => exact absurd h (by simp [Constructor.fields])

/-! ### Witnesses -/

/-- Computations that all succeed with a property. -/
theorem exists_mapM {α β : Type} {f : α → Option β} {P : β → Prop} {l : List α}
    (h : ∀ x ∈ l, ∃ y, f x = some y ∧ P y) :
    ∃ ys, l.mapM f = some ys ∧ ys.length = l.length ∧ ∀ y ∈ ys, P y := by
  induction l with
  | nil => exact ⟨[], rfl, rfl, by simp⟩
  | cons x l ih =>
      rw [List.forall_mem_cons] at h
      obtain ⟨⟨y, hy, hPy⟩, hl⟩ := h
      obtain ⟨ys, hys, hlen, hP⟩ := ih hl
      exact ⟨y :: ys, by simp [hy, hys], by simp [hlen], List.forall_mem_cons.mpr ⟨hPy, hP⟩⟩

theorem applyConstructor_witness {c : Constructor} {ty : ConcreteType} {types : List ConcreteType}
    (h : c.fields ty = some types) {n : ℕ} {w : Witness} (hw : w.length = types.length + n) :
    ∃ w', w.applyConstructor c ty = some w' ∧ w'.length = n + 1 := by
  refine ⟨w.take (w.length - types.length) ++ [.mk c (w.drop (w.length - types.length)).reverse ty],
    ?_, by simp; omega⟩
  rw [Witness.applyConstructor, Constructor.arity, h]
  simp only [Option.map_some, Option.bind_eq_bind, Option.bind_some]
  rw [if_neg (by omega)]

theorem applyConstructors_witness {c : Constructor} {ty : ConcreteType}
    {types : List ConcreteType} (h : c.fields ty = some types)
    (hmissing : ∀ all, c = .missing all → all ≠ [] ∧ ∀ c' ∈ all, c'.fields ty = some [])
    {n : ℕ} {w : Witness} (hw : w.length = types.length + n) :
    ∃ ws, w.applyConstructors c ty = some ws ∧ ws ≠ [] ∧ ∀ w' ∈ ws, w'.length = n + 1 := by
  cases c with
  | missing all =>
      obtain ⟨hne, hfields⟩ := hmissing all rfl
      obtain rfl : [] = types := Option.some.inj h
      obtain ⟨ws, hws, hlen, hP⟩ := exists_mapM fun c' hc' =>
        applyConstructor_witness (hfields c' hc') hw
      refine ⟨ws, hws, ?_, hP⟩
      rintro rfl
      exact hne (List.length_eq_zero_iff.mp hlen.symm)
  | _ =>
      obtain ⟨w', hw', hlen⟩ := applyConstructor_witness h hw
      exact ⟨[w'], by simp [Witness.applyConstructors, hw'], by simp, by simpa using hlen⟩

/-- Applying a constructor to the witnesses keeps whether there are any. -/
theorem applyConstructor_usefulness {c : Constructor} {ty : ConcreteType}
    {types : List ConcreteType} (h : c.fields ty = some types)
    (hmissing : ∀ all, c = .missing all → all ≠ [] ∧ ∀ c' ∈ all, c'.fields ty = some [])
    {n : ℕ} {u : Usefulness} (hu : ∀ w ∈ u.witnesses, w.length = types.length + n) :
    ∃ u', u.applyConstructor c ty = some u' ∧ (∀ w ∈ u'.witnesses, w.length = n + 1) ∧
      u'.isUseful = u.isUseful := by
  obtain ⟨_ | ⟨w, ws⟩⟩ := u
  · exact ⟨⟨[]⟩, rfl, by simp, rfl⟩
  rw [List.forall_mem_cons] at hu
  obtain ⟨ws', hws', hne, hlen⟩ := applyConstructors_witness h hmissing hu.1
  obtain ⟨wss, hwss, -, hlens⟩ := exists_mapM fun w hw =>
    applyConstructors_witness h hmissing (hu.2 w hw)
  refine ⟨⟨(ws' :: wss).flatten⟩, by simp [Usefulness.applyConstructor, hws', hwss], ?_, ?_⟩
  · intro w hw
    obtain ⟨ws'', hws'', hmem⟩ := List.mem_flatten.mp hw
    rcases List.mem_cons.mp hws'' with rfl | hws''
    · exact hlen w hmem
    · exact (hlens ws'' hws'').2 w hmem
  · simp [Usefulness.isUseful, hne]

theorem extend_isUseful (u other : Usefulness) :
    (u.extend other).isUseful = (u.isUseful || other.isUseful) := by
  obtain ⟨_ | ⟨w, ws⟩⟩ := u <;> obtain ⟨_ | ⟨w', ws'⟩⟩ := other <;> rfl

theorem mem_extend {u other : Usefulness} {w : Witness} (h : w ∈ (u.extend other).witnesses) :
    w ∈ u.witnesses ∨ w ∈ other.witnesses := by
  obtain ⟨_ | ⟨w', ws⟩⟩ := u <;> obtain ⟨_ | ⟨w'', ws'⟩⟩ := other <;>
    simp_all [Usefulness.extend, or_assoc]

/-! ### One column of the matrix -/

/-- The rows of a matrix are well typed. -/
abbrev RowsTyped (rows : Matrix) (types : List ConcreteType) : Prop :=
  ∀ row ∈ rows, WellTypedList row types

/-- A well-typed row has a head. -/
theorem rowsTyped_cons {rows : Matrix} {ty : ConcreteType} {types : List ConcreteType}
    (h : RowsTyped rows (ty :: types)) :
    ∃ split : List (DeconstructedPattern × PatStack), rows = split.map (fun q => q.1 :: q.2) ∧
      ∀ q ∈ split, q.1.WellTyped ty ∧ WellTypedList q.2 types := by
  induction rows with
  | nil => exact ⟨[], rfl, by simp⟩
  | cons row rows ih =>
      obtain ⟨hrow, hrows⟩ := List.forall_mem_cons.mp h
      obtain ⟨split, rfl, hsplit⟩ := ih hrows
      cases row with
      | nil => exact hrow.elim
      | cons head rest =>
          exact ⟨(head, rest) :: split, rfl, List.forall_mem_cons.mpr ⟨hrow, hsplit⟩⟩

theorem mapM_head {split : List (DeconstructedPattern × PatStack)} :
    (split.map fun q => q.1 :: q.2).mapM List.head? = some (split.map Prod.fst) := by
  induction split with
  | nil => rfl
  | cons q split ih => simp [ih]

/-- Specializing a matrix keeps the rows whose head covers the constructor. -/
theorem specialize_rows {c : Constructor} {split : List (DeconstructedPattern × PatStack)}
    {types types' : List ConcreteType}
    (hcovered : ∀ q ∈ split, ∃ b, c.isCoveredBy q.1.ctor = some b)
    (hspecialized : ∀ q ∈ split, c.isCoveredBy q.1.ctor = some true →
      ∃ fields, q.1.specialize c = some fields ∧ WellTypedList fields types')
    (htyped : ∀ q ∈ split, WellTypedList q.2 types) :
    ∃ rows, Matrix.specialize c (split.map fun q => q.1 :: q.2) = some rows ∧
      RowsTyped rows (types' ++ types) ∧
      ∀ vs ws, vs.length = types'.length → ((∃ row ∈ rows, CoversList row (vs ++ ws)) ↔
        ∃ q ∈ split, Accepts c q.1 vs ∧ CoversList q.2 ws) := by
  induction split with
  | nil => exact ⟨[], rfl, fun _ h => absurd h List.not_mem_nil, by simp⟩
  | cons q split ih =>
      rw [List.forall_mem_cons] at hcovered hspecialized htyped
      obtain ⟨rows, hrows, hrowstyped, hiff⟩ := ih hcovered.2 hspecialized.2 htyped.2
      obtain ⟨_ | _, hb⟩ := hcovered.1
      · refine ⟨rows, by simp [Matrix.specialize, hb, hrows], hrowstyped, fun vs ws hlen => ?_⟩
        simp [hiff vs ws hlen, Accepts, hb]
      · obtain ⟨fields, hfields, hfieldstyped⟩ := hspecialized.1 hb
        refine ⟨(fields ++ q.2) :: rows,
          by simp [Matrix.specialize, hb, hrows, PatStack.popHead, hfields],
          List.forall_mem_cons.mpr ⟨wellTypedList_append hfieldstyped htyped.1, hrowstyped⟩,
          fun vs ws hlen => ?_⟩
        have hhead := @coversList_append fields q.2 vs ws
          (hfieldstyped.length_eq.trans hlen.symm)
        simp [hiff vs ws hlen, Accepts, hb, hfields, hhead]

/-- A value of the column and values of the remaining columns that no row covers. -/
def Uncovered (rows : Matrix) (types : List ConcreteType) : Prop :=
  ∃ vs, ComparableValues vs types ∧ ∀ row ∈ rows, ¬ CoversList row vs

theorem hasTypeList_append {vs : List Value} {types types' : List ConcreteType} :
    HasTypeList vs (types ++ types') ↔
      ∃ us ws, vs = us ++ ws ∧ HasTypeList us types ∧ HasTypeList ws types' := by
  induction types generalizing vs with
  | nil =>
      constructor
      · exact fun h => ⟨[], vs, rfl, trivial, h⟩
      · rintro ⟨us, ws, rfl, hus, hws⟩
        obtain rfl := List.length_eq_zero_iff.mp (HasTypeList.length_eq hus)
        exact hws
  | cons ty types ih =>
      cases vs with
      | nil =>
          refine ⟨fun h => h.elim, ?_⟩
          rintro ⟨us, ws, h, hus, -⟩
          obtain ⟨rfl, -⟩ := List.append_eq_nil_iff.mp h.symm
          exact hus.elim
      | cons v vs =>
          simp only [List.cons_append, HasTypeList, ih]
          constructor
          · rintro ⟨hv, us, ws, rfl, hus, hws⟩
            exact ⟨v :: us, ws, rfl, ⟨hv, hus⟩, hws⟩
          · rintro ⟨us, ws, h, hus, hws⟩
            cases us with
            | nil => exact hus.elim
            | cons u us =>
                obtain ⟨rfl, rfl⟩ : v = u ∧ vs = us ++ ws := by simpa using h
                exact ⟨hus.1, us, ws, rfl, hus.2, hws⟩

theorem comparableList_append {vs ws : List Value} :
    ComparableList (vs ++ ws) ↔ ComparableList vs ∧ ComparableList ws := by
  induction vs with
  | nil => simp [ComparableList]
  | cons v vs ih => simp [ComparableList, ih, and_assoc]

theorem uncovered_append {rows : Matrix} {types types' : List ConcreteType} :
    Uncovered rows (types' ++ types) ↔ ∃ vs ws, ComparableValues vs types' ∧
      ComparableValues ws types ∧ ¬ ∃ row ∈ rows, CoversList row (vs ++ ws) := by
  constructor
  · rintro ⟨_, ⟨htyped, hcomparable⟩, hnone⟩
    obtain ⟨vs, ws, rfl, hvs, hws⟩ := hasTypeList_append.mp htyped
    obtain ⟨hvs', hws'⟩ := comparableList_append.mp hcomparable
    exact ⟨vs, ws, ⟨hvs, hvs'⟩, ⟨hws, hws'⟩, by simpa using hnone⟩
  · rintro ⟨vs, ws, hvs, hws, hnone⟩
    exact ⟨vs ++ ws, ⟨hasTypeList_append.mpr ⟨vs, ws, rfl, hvs.1, hws.1⟩,
      comparableList_append.mpr ⟨hvs.2, hws.2⟩⟩, by simpa using hnone⟩

/-- **One column.** Values that are not covered exist exactly when they exist for one of the
constructors of the column. -/
theorem uncovered_iff {ty : ConcreteType} {types : List ConcreteType}
    {split : List (DeconstructedPattern × PatStack)} {ctors : List Constructor}
    (hsplits : Splits ty (split.map Prod.fst) ctors) :
    Uncovered (split.map fun q => q.1 :: q.2) (ty :: types) ↔
      ∃ c ∈ ctors, ∃ types', c.fields ty = some types' ∧ ∃ vs ws,
        ComparableValues vs types' ∧ ComparableValues ws types ∧
          ¬ ∃ q ∈ split, Accepts c q.1 vs ∧ CoversList q.2 ws := by
  constructor
  · rintro ⟨vs, ⟨htyped, hcomparable⟩, hnone⟩
    cases vs with
    | nil => exact htyped.elim
    | cons v ws =>
        obtain ⟨c, hc, types', vs, htypes', hvs, haccepts⟩ :=
          hsplits.exists_ctor v htyped.1 hcomparable.1
        refine ⟨c, hc, types', htypes', vs, ws, hvs, ⟨htyped.2, hcomparable.2⟩, ?_⟩
        rintro ⟨q, hq, haccept, hcovers⟩
        refine hnone (q.1 :: q.2) (List.mem_map.mpr ⟨q, hq, rfl⟩) ⟨?_, hcovers⟩
        exact haccepts q.1 (List.mem_map.mpr ⟨q, hq, rfl⟩) haccept
  · rintro ⟨c, hc, types', htypes', vs, ws, hvs, hws, hnone⟩
    obtain ⟨v, hv, hcomparable, haccepts⟩ := hsplits.exists_value c hc types' vs htypes' hvs
    refine ⟨v :: ws, ⟨⟨hv, hws.1⟩, ⟨hcomparable, hws.2⟩⟩, fun row hrow hcovers => ?_⟩
    obtain ⟨q, hq, rfl⟩ := List.mem_map.mp hrow
    exact hnone ⟨q, hq, haccepts q.1 (List.mem_map.mpr ⟨q, hq, rfl⟩) hcovers.1, hcovers.2⟩

/-! ### The algorithm -/

/-- The loop over the constructors finds a witness when one of them has one. -/
theorem usefulCtors_spec {recurse : PatStack → Matrix → Option Usefulness} {pattern : PatStack}
    {prev : Matrix} {ty : ConcreteType} {n : ℕ} {found : Constructor → Prop}
    {ctors : List Constructor}
    (hctors : ∀ c ∈ ctors, ∃ pattern' prev' u u', pattern.popHead c = some pattern' ∧
      prev.specialize c = some prev' ∧ recurse pattern' prev' = some u ∧
      u.applyConstructor c ty = some u' ∧ (∀ w ∈ u'.witnesses, w.length = n) ∧
      (u'.isUseful = true ↔ found c))
    {ret : Usefulness} (hret : ∀ w ∈ ret.witnesses, w.length = n) :
    ∃ u, usefulCtors recurse pattern prev ty ctors ret = some u ∧
      (∀ w ∈ u.witnesses, w.length = n) ∧
      (u.isUseful = true ↔ ret.isUseful = true ∨ ∃ c ∈ ctors, found c) := by
  induction ctors generalizing ret with
  | nil => exact ⟨ret, rfl, hret, by simp⟩
  | cons c ctors ih =>
      rw [List.forall_mem_cons] at hctors
      obtain ⟨⟨pattern', prev', u, u', hpattern, hprev, hu, hu', hlen, hfound⟩, hctors⟩ := hctors
      obtain ⟨result, hresult, hlens, hiff⟩ := ih hctors fun w hw =>
        (mem_extend hw).elim (hret w) (hlen w)
      refine ⟨result, ?_, hlens, ?_⟩
      · simpa [usefulCtors, hpattern, hprev, hu, hu'] using hresult
      · simp [hiff, extend_isUseful, hfound, or_assoc]

/-- **Usefulness of wildcards.** With enough fuel the algorithm returns, and it finds a witness
exactly when values exist that no row covers. -/
theorem isUseful_wildcards {fuel : ℕ} {types : List ConcreteType} {rows : Matrix}
    (hdata : ∀ ty ∈ types, ty.IsData) (hrows : RowsTyped rows types)
    (hfuel : weightSum types < fuel) :
    ∃ u, isUseful fuel (types.map wildcard) rows = some u ∧
      (∀ w ∈ u.witnesses, w.length = types.length) ∧
      (u.isUseful = true ↔ Uncovered rows types) := by
  induction fuel generalizing types rows with
  | zero => exact absurd hfuel (Nat.not_lt_zero _)
  | succ fuel ih =>
      cases types with
      | nil =>
          cases rows with
          | nil =>
              refine ⟨.newUseful, rfl, by simp [Usefulness.newUseful], ?_⟩
              exact iff_of_true rfl ⟨[], ⟨trivial, trivial⟩, by simp⟩
          | cons row rows =>
              refine ⟨.newUseless, rfl, by simp [Usefulness.newUseless], ?_⟩
              refine iff_of_false (by simp [Usefulness.newUseless, Usefulness.isUseful]) ?_
              rintro ⟨vs, ⟨hvs, -⟩, hnone⟩
              obtain rfl := List.length_eq_zero_iff.mp (HasTypeList.length_eq hvs)
              have hrow := hrows row List.mem_cons_self
              cases row with
              | nil => exact hnone [] List.mem_cons_self trivial
              | cons head rest => exact hrow.elim
      | cons ty types =>
          obtain ⟨split, rfl, hsplit⟩ := rowsTyped_cons hrows
          rw [List.forall_mem_cons] at hdata
          have hheads : ∀ p ∈ split.map Prod.fst, p.WellTyped ty := by
            intro p hp
            obtain ⟨q, hq, rfl⟩ := List.mem_map.mp hp
            exact (hsplit q hq).1
          obtain ⟨ctors, hctors, hsplits⟩ := splitWildcard_spec hdata.1 hheads
          have hhead : (wildcard ty).ctor.split (wildcard ty).ty
              ((split.map Prod.fst).map ctor) = some ctors := hctors
          have hloop := @usefulCtors_spec (isUseful fuel) ((ty :: types).map wildcard)
            (split.map fun q => q.1 :: q.2) ty (types.length + 1)
            (fun c => ∃ types', c.fields ty = some types' ∧ ∃ vs ws,
              ComparableValues vs types' ∧ ComparableValues ws types ∧
                ¬ ∃ q ∈ split, Accepts c q.1 vs ∧ CoversList q.2 ws) ctors ?_
            .newUseless (by simp [Usefulness.newUseless])
          · obtain ⟨u, hu, hlen, hiff⟩ := hloop
            refine ⟨u, ?_, hlen, ?_⟩
            · simp only [List.map_cons, isUseful, mapM_head, Option.bind_eq_bind,
                Option.bind_some]
              rw [hhead]
              exact hu
            · rw [hiff, uncovered_iff hsplits]
              simp [Usefulness.newUseless, Usefulness.isUseful]
          · intro c hc
            obtain ⟨types', htypes'⟩ := hsplits.fields c hc
            obtain ⟨rows', hrows', hrowstyped, hcovers⟩ := @specialize_rows c split types types'
              (fun q hq => hsplits.covered c hc q.1 (List.mem_map.mpr ⟨q, hq, rfl⟩))
              (fun q hq => hsplits.specialized c hc types' htypes' q.1
                (List.mem_map.mpr ⟨q, hq, rfl⟩))
              fun q hq => (hsplit q hq).2
            have hweight := weightSum_fields htypes'
            obtain ⟨u, hu, hlen, hiff⟩ := @ih (types' ++ types) rows'
              (List.forall_mem_append.mpr ⟨isData_fields hdata.1 htypes', hdata.2⟩) hrowstyped
              (by rw [weightSum_append]; rw [weightSum] at hfuel; omega)
            obtain ⟨u', hu', hlen', huseful⟩ := @applyConstructor_usefulness c ty types' htypes'
              (hsplits.missing c hc) types.length u (by simpa using hlen)
            refine ⟨(types' ++ types).map wildcard, rows', u, u', ?_, hrows', hu, hu', hlen', ?_⟩
            · simp [PatStack.popHead, wildcard, specialize_wildcard htypes']
            · rw [huseful, hiff, uncovered_append]
              constructor
              · rintro ⟨vs, ws, hvs, hws, hnone⟩
                refine ⟨types', htypes', vs, ws, hvs, hws, ?_⟩
                rwa [← hcovers vs ws (HasTypeList.length_eq hvs.1)]
              · rintro ⟨types'', htypes'', vs, ws, hvs, hws, hnone⟩
                obtain rfl : types' = types'' := Option.some.inj (htypes'.symm.trans htypes'')
                refine ⟨vs, ws, hvs, hws, ?_⟩
                rwa [hcovers vs ws (HasTypeList.length_eq hvs.1)]

/-! ### Exhaustiveness -/

variable {ctx : PatternContext}

/-- The usefulness of a wildcard with respect to some patterns. -/
theorem isUseful_patterns {ty : ConcreteType} (hty : ty.IsData) {pats : List Pattern}
    (hpats : ∀ p ∈ pats, p.WellTyped ctx ty) :
    ∃ rows, fromHirList ctx pats = some rows ∧ ∀ fuel > ty.weight, ∃ u,
      isUseful fuel [wildcard ty] (rows.map fun p => [p]) = some u ∧
        (u.isUseful = true ↔ ∃ v : Value, v.HasType ty ∧ v.Comparable ∧
          ∀ p ∈ pats, ¬ p.Matches ctx ranged v) := by
  obtain ⟨rows, hrows, htyped, hcovers⟩ : ∃ rows, fromHirList ctx pats = some rows ∧
      RowsTyped (rows.map fun p => [p]) [ty] ∧ ∀ v : Value,
        (∀ row ∈ rows.map fun p => [p], ¬ CoversList row [v]) ↔
          ∀ p ∈ pats, ¬ p.Matches ctx ranged v := by
    induction pats with
    | nil => exact ⟨[], rfl, fun _ h => absurd h List.not_mem_nil, by simp⟩
    | cons p pats ih =>
        rw [List.forall_mem_cons] at hpats
        obtain ⟨d, hd, hdtyped, hdcovers⟩ := fromHir_spec ctx p ty hpats.1
        obtain ⟨rows, hrows, htyped, hcovers⟩ := ih hpats.2
        refine ⟨d :: rows, by simp [fromHirList, hd, hrows],
          List.forall_mem_cons.mpr ⟨⟨hdtyped, trivial⟩, htyped⟩, fun v => ?_⟩
        rw [List.map_cons, List.forall_mem_cons, List.forall_mem_cons, hcovers, ← hdcovers]
        simp [CoversList]
  refine ⟨rows, hrows, fun fuel hfuel => ?_⟩
  obtain ⟨u, hu, -, hiff⟩ := @isUseful_wildcards fuel [ty] _ (by simpa using hty) htyped
    (by simpa [weightSum] using hfuel)
  refine ⟨u, hu, hiff.trans ?_⟩
  constructor
  · rintro ⟨vs, ⟨hvs, hcomparable⟩, hnone⟩
    obtain ⟨v, rfl⟩ := List.length_eq_one_iff.mp (HasTypeList.length_eq hvs)
    exact ⟨v, hvs.1, hcomparable.1, (hcovers v).mp hnone⟩
  · rintro ⟨v, hv, hcomparable, hnone⟩
    exact ⟨[v], ⟨⟨hv, trivial⟩, ⟨hcomparable, trivial⟩⟩, (hcovers v).mpr hnone⟩

theorem IsData.exists_isInteger {ty : ConcreteType} (hty : ty.IsData) {bounds : ℤ × ℤ}
    (h : ty.bounds = some bounds) : IsInteger ty bounds.1 bounds.2 := by
  cases hty with
  | int hpos hsize =>
      obtain rfl := Option.some.inj h
      exact isInteger_int hpos hsize
  | uint hpos hsize =>
      obtain rfl := Option.some.inj h
      exact isInteger_uint hpos hsize
  | _ => exact absurd h (by simp [ConcreteType.bounds])

mutual

/-- A value that can be compared with patterns has a value that is matched by no more patterns
than are read as ranges that match it: the largest integer is replaced by its predecessor. -/
theorem exists_exact : ∀ (v : Value) (ty : ConcreteType), ty.IsData → v.HasType ty →
    v.Comparable → ∃ v' : Value, v'.HasType ty ∧ ∀ p : Pattern, p.WellTyped ctx ty →
      p.Matches ctx exact v' → p.Matches ctx ranged v
  | .int n, ty, hty, hv, _ => by
      rcases hbounds : ty.bounds with _ | ⟨min, max⟩
      · simp [Value.HasType, hbounds] at hv
      have hint := IsData.exists_isInteger hty hbounds
      obtain ⟨hmin, hmax⟩ : min ≤ n ∧ n ≤ max := by simpa [Value.HasType, hbounds] using hv
      have hlt : min < max := hint.lt
      refine ⟨.int (if n = max then n - 1 else n), ?_, fun p hp hmatches => ?_⟩
      · simp only [Value.HasType, hbounds]
        split_ifs <;> omega
      · cases p with
        | integer id literal =>
            have heq : (if n = max then n - 1 else n) = literal := hmatches
            refine ⟨?_, ?_, (min, max), by rw [hp.1, hbounds], ?_⟩ <;> split_ifs at heq <;> omega
        | name id name => trivial
        | type id path targets args =>
            rcases hkind : ctx.patternableTypeById path <;>
              simp [Pattern.Matches, hkind] at hmatches
        | _ => exact absurd hmatches (by simp [Pattern.Matches])
  | .bool b, ty, _, hv, _ => by
      refine ⟨.bool b, hv, fun p _ hmatches => ?_⟩
      cases p with
      | bool id b' => exact hmatches
      | name id name => trivial
      | type id path targets args =>
          rcases hkind : ctx.patternableTypeById path <;>
            simp [Pattern.Matches, hkind] at hmatches
      | _ => exact absurd hmatches (by simp [Pattern.Matches])
  | .raw bits, _, _, _, hcomparable => hcomparable.elim
  | .fields vs, ty, hty, hv, hcomparable => by
      obtain ⟨types, hrecord, hdata⟩ : ∃ types, IsRecord ty types ∧ ∀ ty ∈ types, ty.IsData := by
        cases hty with
        | tuple h => exact ⟨_, .tuple _, h⟩
        | struct h => exact ⟨_, .struct _, by simpa using fun ty name hmem => h (name, ty) hmem⟩
        | _ => simp [Value.HasType] at hv
      obtain ⟨vs', heq, hvs⟩ := (hrecord.hasType_iff _).mp hv
      obtain rfl : vs = vs' := by simpa using heq
      obtain ⟨vs', hvs', hmatches'⟩ := exists_exactList vs types hdata hvs hcomparable
      refine ⟨.fields vs', (hrecord.hasType_iff _).mpr ⟨vs', rfl, hvs'⟩, fun p hp hmatches => ?_⟩
      cases p with
      | name id name => trivial
      | tuple id inner =>
          obtain ⟨-, hinner⟩ := hp
          cases hrecord with
          | tuple => exact hmatches' inner hinner hmatches
          | struct => exact hinner.elim
      | array id inner =>
          obtain ⟨-, hinner⟩ := hp
          cases hrecord <;> exact hinner.elim
      | type id path targets args =>
          obtain ⟨-, hargs⟩ := hp
          rcases hkind : ctx.patternableTypeById path <;>
            simp only [Pattern.Matches, hkind] at hmatches ⊢
          cases hrecord with
          | tuple => simp [hkind] at hargs
          | struct members =>
              simp only [hkind] at hargs
              exact hmatches' args hargs.2.2.2 hmatches
      | _ => exact absurd hmatches (by simp [Pattern.Matches])
  | .variant option vs, ty, hty, hv, hcomparable => by
      cases hty with
      | enum hoptions =>
          obtain ⟨_, _, types, heq, htypes, hvs⟩ := hasType_enum.mp hv
          obtain ⟨rfl, rfl⟩ := by simpa using heq
          obtain ⟨vs', hvs', hmatches'⟩ := exists_exactList vs types
            (hoptions types (List.mem_of_getElem? htypes)) hvs hcomparable
          refine ⟨.variant option vs', hasType_enum.mpr ⟨option, vs', types, rfl, htypes, hvs'⟩,
            fun p hp hmatches => ?_⟩
          cases p with
          | name id name => trivial
          | type id path targets args =>
              obtain ⟨-, hargs⟩ := hp
              rcases hkind : ctx.patternableTypeById path <;>
                simp only [Pattern.Matches, hkind] at hmatches ⊢
              obtain ⟨rfl, hmatches⟩ := hmatches
              simp only [hkind, htypes] at hargs
              exact ⟨rfl, hmatches' args hargs.2 hmatches⟩
          | _ => exact absurd hmatches (by simp [Pattern.Matches])
      | _ => simp [Value.HasType] at hv

theorem exists_exactList : ∀ (vs : List Value) (types : List ConcreteType),
    (∀ ty ∈ types, ty.IsData) → HasTypeList vs types → ComparableList vs →
    ∃ vs', HasTypeList vs' types ∧ ∀ ps : List Pattern, Hir.WellTypedList ctx ps types →
      MatchesList ctx exact ps vs' → MatchesList ctx ranged ps vs
  | [], [], _, _, _ => ⟨[], trivial, fun ps _ hmatches => by
      cases ps with
      | nil => trivial
      | cons p ps => exact hmatches.elim⟩
  | v :: vs, ty :: types, hdata, hvs, hcomparable => by
      rw [List.forall_mem_cons] at hdata
      obtain ⟨v', hv', hmatches⟩ := exists_exact v ty hdata.1 hvs.1 hcomparable.1
      obtain ⟨vs', hvs', hmatchess⟩ := exists_exactList vs types hdata.2 hvs.2 hcomparable.2
      refine ⟨v' :: vs', ⟨hv', hvs'⟩, fun ps hps hmatch => ?_⟩
      cases ps with
      | nil => exact hmatch.elim
      | cons p ps => exact ⟨hmatches p hps.1 hmatch.1, hmatchess ps hps.2 hmatch.2⟩
  | [], _ :: _, _, hvs, _ => hvs.elim
  | _ :: _, [], _, hvs, _ => hvs.elim

end

/-- The check of the patterns is right: the lowering and the usefulness algorithm return, and the
wildcard is useful exactly when some value of the type is matched by no pattern. -/
def CheckCorrect (ctx : PatternContext) (ty : ConcreteType) (pats : List Pattern) : Prop :=
  ∃ rows, fromHirList ctx pats = some rows ∧ ∃ bound, ∀ fuel > bound, ∃ u,
    isUseful fuel [wildcard ty] (rows.map fun p => [p]) = some u ∧
      (u.isUseful = true ↔ ∃ v : Value, v.HasType ty ∧ ∀ p ∈ pats, ¬ p.Matches ctx exact v)

theorem checkCorrect_iff {ty : ConcreteType} (hty : ty.IsData) {pats : List Pattern}
    (hpats : ∀ p ∈ pats, p.WellTyped ctx ty) :
    CheckCorrect ctx ty pats ↔
      ((∃ v : Value, v.HasType ty ∧ v.Comparable ∧ ∀ p ∈ pats, ¬ p.Matches ctx ranged v) ↔
        ∃ v : Value, v.HasType ty ∧ ∀ p ∈ pats, ¬ p.Matches ctx exact v) := by
  obtain ⟨rows, hrows, huseful⟩ := isUseful_patterns hty hpats
  constructor
  · rintro ⟨rows', hrows', bound, hbound⟩
    obtain rfl : rows = rows' := Option.some.inj (hrows.symm.trans hrows')
    obtain ⟨u, hu, hiff⟩ := huseful (max bound ty.weight + 1) (by omega)
    obtain ⟨u', hu', hiff'⟩ := hbound (max bound ty.weight + 1) (by omega)
    obtain rfl : u = u' := Option.some.inj (hu.symm.trans hu')
    exact hiff.symm.trans hiff'
  · intro h
    refine ⟨rows, hrows, ty.weight, fun fuel hfuel => ?_⟩
    obtain ⟨u, hu, hiff⟩ := huseful fuel hfuel
    exact ⟨u, hu, hiff.trans h⟩

/-- **Exhaustiveness.** The check is right exactly when, in case some value is matched by no
pattern, there is such a value without bits, clocks and voids for which the literals are read as
ranges. -/
theorem exhaustiveness_iff (ctx : PatternContext) (ty : ConcreteType) (hty : ty.IsData)
    (pats : List Pattern) (hpats : ∀ p ∈ pats, p.WellTyped ctx ty) :
    CheckCorrect ctx ty pats ↔
      ((∃ v : Value, v.HasType ty ∧ ∀ p ∈ pats, ¬ p.Matches ctx exact v) →
        ∃ v : Value, v.HasType ty ∧ v.Comparable ∧ ∀ p ∈ pats, ¬ p.Matches ctx ranged v) := by
  rw [checkCorrect_iff hty hpats]
  refine ⟨Iff.mpr, fun h => ⟨?_, h⟩⟩
  rintro ⟨v, hv, hcomparable, hnone⟩
  obtain ⟨v', hv', hmatches⟩ := exists_exact v ty hty hv hcomparable
  exact ⟨v', hv', fun p hp hmatch => hnone p hp (hmatches p (hpats p hp) hmatch)⟩

/-! ### Patterns of small integers -/

section Examples

/-- All patterns have type `uint<bits>`. -/
def uintContext (bits : ℤ) : PatternContext where
  typeOfId _ := .single .uint [.integer bits]
  patternableTypeById _ := .struct
  enumVariantById _ := 0
  structById _ := []

/-- A single literal does not match all of `uint<2>`, and the check says so. -/
theorem exhaustiveness_uint : CheckCorrect (uintContext 2) (.single .uint [.integer 2])
    [.integer 0 0] :=
  (exhaustiveness_iff _ _ (.uint (by decide) (by decide)) _
    (by simp [Pattern.WellTyped, uintContext, ConcreteType.bounds])).mpr fun _ =>
    ⟨.int 3, by simp [Value.HasType, ConcreteType.bounds], trivial,
      by simp [Pattern.Matches, ranged]⟩

/-- The literal `0` does not match all of `uint<1>`, but the check takes it to. -/
theorem not_exhaustiveness : ¬ ∀ (ctx : PatternContext) (ty : ConcreteType), ty.IsData →
    ∀ pats : List Pattern, (∀ p ∈ pats, p.WellTyped ctx ty) → CheckCorrect ctx ty pats := by
  intro h
  have hty : (ConcreteType.single .uint [.integer 1]).IsData := .uint (by decide) (by decide)
  have hpats : ∀ p ∈ [Pattern.integer 0 0],
      p.WellTyped (uintContext 1) (.single .uint [.integer 1]) := by
    simp [Pattern.WellTyped, uintContext, ConcreteType.bounds]
  obtain ⟨v, hv, -, hnone⟩ := ((checkCorrect_iff hty hpats).mp (h _ _ hty _ hpats)).mpr
    ⟨.int 1, by simp [Value.HasType, ConcreteType.bounds], by simp [Pattern.Matches, exact]⟩
  obtain ⟨n, rfl, hmin, hmax⟩ := ((isInteger_uint (by decide) (by decide)).hasType_iff v).mp hv
  refine hnone _ (List.mem_singleton_self _) ⟨hmin, by simpa using hmax, _, rfl, ?_⟩
  simp

end Examples

end Spade.HirLowering

import Spade.Mir.EvalHardware
import Spade.VcdTranslate.RoundTrip

/-!
# Recorded values

The translation of values as a simulator records them: of any length, with undefined bits, or cut
short by the rules of Verilog, which leave out what can be filled up from the left.

* **Totality** (`translateRecorded_iff`): a recorded value is accepted exactly where its type has a
  supported size and, in a build that checks for overflow, has no fewer bits than the value.
* **Integers** (`integer_decodes`): a constant is translated to its integer, also when it is cut.
-/

namespace Spade.VcdTranslate

open Mir hiding Value
open Hir

/-! ### Totality -/

theorem extended_of_le {value : List VcdValue} {t : ConcreteType} {ty : Ty}
    (ht : t.toMirType = some ty) (hlen : value.length ≤ ty.size) (hzero : ty.size ≠ 0)
    (hne : value ≠ []) :
    ∃ bits, extended value t = some (some bits) ∧ bits.length = ty.size := by
  obtain ⟨v, vs, rfl⟩ := List.exists_cons_of_ne_nil hne
  simp only [extended, ht, Option.bind_eq_bind, Option.bind_some, if_neg (not_lt.mpr hlen),
    if_neg hzero]
  cases v
  all_goals
    refine ⟨_, rfl, ?_⟩
    rw [List.length_append, List.length_replicate]
    omega

theorem extended_of_zero {value : List VcdValue} {t : ConcreteType} {ty : Ty}
    (ht : t.toMirType = some ty) (hlen : value.length ≤ ty.size) (hzero : ty.size = 0) :
    extended value t = some none := by
  simp only [extended, ht, Option.bind_eq_bind, Option.bind_some, if_neg (not_lt.mpr hlen),
    if_pos hzero]


theorem translateSignedInt_total {value : List VcdValue} (h : value ≠ []) :
    ∃ n, translateSignedInt value = some n := by
  obtain ⟨v, vs, rfl⟩ := List.exists_cons_of_ne_nil h
  unfold translateSignedInt
  split_ifs
  · exact ⟨_, rfl⟩
  · exact ⟨_, rfl⟩
  · dsimp only
    split_ifs
    · exact ⟨_, rfl⟩
    · exact ⟨_, rfl⟩

theorem translateElements_total {translate : List VcdValue → Option String} {size : ℕ}
    (h : ∀ bits : List VcdValue, bits.length = size → ∃ text, translate bits = some text)
    {n : ℕ} {value : List VcdValue} (hlen : size * n ≤ value.length) :
    ∃ parts, translateElements translate size n value = some parts := by
  induction n generalizing value with
  | zero => exact ⟨[], rfl⟩
  | succ n ih =>
      rw [Nat.mul_succ] at hlen
      obtain ⟨text, htext⟩ := h (value.take size) (by rw [List.length_take]; omega)
      have hrest : size * n ≤ (value.drop size).length := by
        rw [List.length_drop]
        omega
      obtain ⟨parts, hparts⟩ := ih hrest
      refine ⟨text :: parts, ?_⟩
      rw [translateElements, if_pos (by omega), htext, hparts]
      rfl

/-- Induction over a type and the types in it. -/
theorem typeInduction {motive : ConcreteType → Prop}
    (tuple : ∀ inner, (∀ t ∈ inner, motive t) → motive (.tuple inner))
    (struct : ∀ members, (∀ m ∈ members, motive m.2) → motive (.struct members))
    (array : ∀ inner size, motive inner → motive (.array inner size))
    (enum : ∀ options, (∀ o ∈ options, ∀ t ∈ o, motive t) → motive (.enum options))
    (single : ∀ base params, (∀ t ∈ params, motive t) → motive (.single base params))
    (integer : ∀ value, motive (.integer value))
    (backward : ∀ inner, motive inner → motive (.backward inner))
    (wire : ∀ inner, motive inner → motive (.wire inner)) (t : ConcreteType) : motive t := by
  refine @ConcreteType.rec motive (fun ts => ∀ t ∈ ts, motive t)
    (fun members => ∀ m ∈ members, motive m.2) (fun options => ∀ o ∈ options, ∀ t ∈ o, motive t)
    (fun m => motive m.2) tuple struct array enum single integer backward wire
    ?_ ?_ ?_ ?_ ?_ ?_ ?_ t
  · exact fun t h => absurd h List.not_mem_nil
  · exact fun t ts ht hts => List.forall_mem_cons.mpr ⟨ht, hts⟩
  · exact fun m h => absurd h List.not_mem_nil
  · exact fun m members hm hmembers => List.forall_mem_cons.mpr ⟨hm, hmembers⟩
  · exact fun o h => absurd h List.not_mem_nil
  · exact fun o options ho hoptions => List.forall_mem_cons.mpr ⟨ho, hoptions⟩
  · exact fun _ _ h => h

/-- The translation prints something for as many bits as the type has. -/
def TotalAt (t : ConcreteType) : Prop :=
  ∀ (names : VariantNames) (value : List VcdValue) (ty : Ty), t.toMirType = some ty →
    value.length = ty.size → ∃ text, innerTranslateValue names value t = some text

theorem translateTypes_total {ts : List ConcreteType} (h : ∀ t ∈ ts, TotalAt t)
    (names : VariantNames) {i : ℕ} {value : List VcdValue} {tys : List Ty}
    (hts : ConcreteType.toMirTypes ts = some tys) (hlen : Ty.sizeSum tys ≤ value.length) :
    ∃ parts, translateTypes names i value ts = some parts := by
  induction ts generalizing i value tys with
  | nil => exact ⟨[], rfl⟩
  | cons t ts ih =>
      rw [List.forall_mem_cons] at h
      rw [ConcreteType.toMirTypes] at hts
      obtain ⟨ty, hty, hts⟩ := Option.bind_eq_some_iff.mp hts
      obtain ⟨tys', htys, heq⟩ := Option.bind_eq_some_iff.mp hts
      obtain rfl := Option.some.inj heq
      rw [Ty.sizeSum] at hlen
      obtain ⟨text, htext⟩ := h.1 (names.child i) (value.take ty.size) ty hty
        (by rw [List.length_take]; omega)
      have hrest : Ty.sizeSum tys' ≤ (value.drop ty.size).length := by
        rw [List.length_drop]
        omega
      obtain ⟨parts, hparts⟩ := ih h.2 (i := i + 1) htys hrest
      refine ⟨text :: parts, ?_⟩
      have hle : ty.size ≤ value.length := by omega
      simp [translateTypes, hty, hle, htext, hparts]

theorem translateMembers_total {members : List (String × ConcreteType)}
    (h : ∀ m ∈ members, TotalAt m.2) (names : VariantNames) {i : ℕ} {value : List VcdValue}
    {fields : List (String × Ty)} (hfields : ConcreteType.toMirMembers members = some fields)
    (hlen : Ty.sizeFields fields ≤ value.length) :
    ∃ parts, translateMembers names i value members = some parts := by
  induction members generalizing i value fields with
  | nil => exact ⟨[], rfl⟩
  | cons m members ih =>
      rw [List.forall_mem_cons] at h
      rw [ConcreteType.toMirMembers] at hfields
      obtain ⟨ty, hty, hfields⟩ := Option.bind_eq_some_iff.mp hfields
      obtain ⟨fields', hfields', heq⟩ := Option.bind_eq_some_iff.mp hfields
      obtain rfl := Option.some.inj heq
      rw [Ty.sizeFields] at hlen
      obtain ⟨text, htext⟩ := h.1 (names.child i) (value.take ty.size) ty hty
        (by rw [List.length_take]; omega)
      have hrest : Ty.sizeFields fields' ≤ (value.drop ty.size).length := by
        rw [List.length_drop]
        omega
      obtain ⟨parts, hparts⟩ := ih h.2 (i := i + 1) hfields' hrest
      refine ⟨(m.1 ++ ":" ++ text) :: parts, ?_⟩
      have hle : ty.size ≤ value.length := by omega
      simp [translateMembers, hty, hle, htext, hparts]

/-- The variants of an enum and the sizes of their payloads. -/
theorem toMirOptions_eq_some {options : List (List ConcreteType)} {os : List (List Ty)}
    (h : ConcreteType.toMirOptions options = some os) :
    os.length = options.length ∧ ∀ types ∈ options, ∃ tys,
      ConcreteType.toMirTypes types = some tys ∧ Ty.sizeSum tys ≤ Ty.sizeMax os := by
  induction options generalizing os with
  | nil =>
      obtain rfl := Option.some.inj h
      exact ⟨rfl, by simp⟩
  | cons o options ih =>
      rw [ConcreteType.toMirOptions] at h
      obtain ⟨tys, htys, h⟩ := Option.bind_eq_some_iff.mp h
      obtain ⟨os', hos, heq⟩ := Option.bind_eq_some_iff.mp h
      obtain rfl := Option.some.inj heq
      obtain ⟨hlen, hall⟩ := ih hos
      refine ⟨by rw [List.length_cons, List.length_cons, hlen], ?_⟩
      rw [List.forall_mem_cons, Ty.sizeMax]
      refine ⟨⟨tys, htys, le_max_left _ _⟩, ?_⟩
      intro types htypes
      obtain ⟨tys', htys', hle⟩ := hall types htypes
      exact ⟨tys', htys', hle.trans (le_max_right _ _)⟩

/-- Types without bits print nothing, and the values of the others need no extension. -/
theorem TotalAt.of_ne_zero {t : ConcreteType}
    (h : ∀ (names : VariantNames) (value : List VcdValue) (ty : Ty), t.toMirType = some ty →
      value.length = ty.size → ty.size ≠ 0 → extended value t = some (some value) →
      ∃ text, innerTranslateValue names value t = some text) : TotalAt t := by
  intro names value ty hty hlen
  have hext := extended_eq hty (hlen.trans (bitCount_of_eq hty).symm)
  rw [bitCount_of_eq hty] at hext
  by_cases hzero : ty.size = 0
  · rw [if_pos hzero] at hext
    exact ⟨"", innerTranslateValue_empty hext⟩
  · rw [if_neg hzero] at hext
    exact h names value ty hty hlen hzero hext

theorem totalAt_tuple {inner : List ConcreteType} (h : ∀ t ∈ inner, TotalAt t) :
    TotalAt (.tuple inner) := by
  apply TotalAt.of_ne_zero
  intro names value ty hty hlen _ hext
  rw [ConcreteType.toMirType] at hty
  obtain ⟨tys, htys, heq⟩ := Option.bind_eq_some_iff.mp hty
  obtain rfl := Option.some.inj heq
  rw [Ty.size] at hlen
  obtain ⟨parts, hparts⟩ := translateTypes_total h names (i := 0) htys hlen.ge
  exact ⟨_, innerTranslateValue_tuple hext hparts⟩

theorem totalAt_struct {members : List (String × ConcreteType)} (h : ∀ m ∈ members, TotalAt m.2) :
    TotalAt (.struct members) := by
  apply TotalAt.of_ne_zero
  intro names value ty hty hlen _ hext
  rw [ConcreteType.toMirType] at hty
  obtain ⟨fields, hfields, heq⟩ := Option.bind_eq_some_iff.mp hty
  obtain rfl := Option.some.inj heq
  rw [Ty.size] at hlen
  obtain ⟨parts, hparts⟩ := translateMembers_total h names (i := 0) hfields hlen.ge
  exact ⟨_, innerTranslateValue_struct hext hparts⟩

theorem totalAt_array {inner : ConcreteType} (size : ℤ) (h : TotalAt inner) :
    TotalAt (.array inner size) := by
  apply TotalAt.of_ne_zero
  intro names value ty hty hlen _ hext
  rw [ConcreteType.toMirType] at hty
  split_ifs at hty with hneg
  obtain ⟨inner', hinner, heq⟩ := Option.bind_eq_some_iff.mp hty
  obtain rfl := Option.some.inj heq
  rw [Ty.size] at hlen
  obtain ⟨parts, hparts⟩ := translateElements_total
    (fun bits hbits => h (names.child 0) bits inner' hinner hbits) hlen.ge
  rw [← bitCount_of_eq hinner] at hparts
  exact ⟨_, innerTranslateValue_array hext hinner hparts⟩

theorem totalAt_enum {options : List (List ConcreteType)}
    (h : ∀ o ∈ options, ∀ t ∈ o, TotalAt t) : TotalAt (.enum options) := by
  apply TotalAt.of_ne_zero
  intro names value ty hty hlen _ hext
  rw [ConcreteType.toMirType] at hty
  obtain ⟨os, hos, heq⟩ := Option.bind_eq_some_iff.mp hty
  obtain rfl := Option.some.inj heq
  obtain ⟨hcount, htypes⟩ := toMirOptions_eq_some hos
  rw [Ty.size, hcount] at hlen
  have htag_le : ¬ value.length < tagSize options.length := by omega
  unfold innerTranslateValue
  rw [hext]
  simp only [Option.bind_eq_bind, Option.bind_some, if_neg htag_le]
  cases translateUint (value.take (tagSize options.length)) false with
  | undef => exact ⟨_, rfl⟩
  | highImpedance => exact ⟨_, rfl⟩
  | value tag =>
      dsimp only
      split_ifs with htag
      · exact ⟨_, rfl⟩
      · rw [not_le] at htag
        have hget : options[tag]? = some options[tag] := List.getElem?_eq_getElem htag
        have hmem : options[tag] ∈ options := List.getElem_mem htag
        obtain ⟨tys, htys, hle⟩ := htypes _ hmem
        have hrest : Ty.sizeSum tys ≤ (value.drop (tagSize options.length)).length := by
          rw [List.length_drop]
          omega
        obtain ⟨parts, hparts⟩ :=
          translateTypes_total (h _ hmem) (names.child tag) (i := 0) htys hrest
        rw [translateVariant_eq hget, hparts]
        exact ⟨_, rfl⟩

theorem totalAt_single (base : PrimitiveType) {params : List ConcreteType}
    (h : ∀ t ∈ params, TotalAt t) : TotalAt (.single base params) := by
  apply TotalAt.of_ne_zero
  intro names value ty hty hlen hzero hext
  obtain ⟨v, vs, rfl⟩ := List.exists_cons_of_length_pos (by omega : 0 < value.length)
  unfold innerTranslateValue
  rw [hext]
  simp only [Option.bind_eq_bind, Option.bind_some]
  cases base with
  | bool | bit | clock => cases v <;> exact ⟨_, rfl⟩
  | int =>
      obtain ⟨n, hn⟩ := translateSignedInt_total (List.cons_ne_nil v vs)
      exact ⟨n.write, by simp [hn]⟩
  | uint | memory | void => exact ⟨_, rfl⟩
  | inOut =>
      rcases params with _ | ⟨inner, _ | ⟨t, ts⟩⟩
      · exact absurd hty (by simp [ConcreteType.toMirType])
      · rw [ConcreteType.toMirType] at hty
        obtain ⟨inner', hinner, heq⟩ := Option.bind_eq_some_iff.mp hty
        obtain rfl := Option.some.inj heq
        exact h inner List.mem_cons_self (names.child 0) _ inner' hinner hlen
      · exact absurd hty (by simp [ConcreteType.toMirType])

/-- Every type is translated from as many bits as it has. -/
theorem totalAt (t : ConcreteType) : TotalAt t := by
  induction t using typeInduction with
  | tuple inner ih => exact totalAt_tuple ih
  | struct members ih => exact totalAt_struct ih
  | array inner size ih => exact totalAt_array size ih
  | enum options ih => exact totalAt_enum ih
  | single base params ih => exact totalAt_single base ih
  | integer value =>
      intro names value ty hty
      exact absurd hty (by simp [ConcreteType.toMirType])
  | backward inner ih =>
      apply TotalAt.of_ne_zero
      intro names value ty hty _ hzero
      rw [ConcreteType.toMirType] at hty
      obtain ⟨inner', -, heq⟩ := Option.bind_eq_some_iff.mp hty
      obtain rfl := Option.some.inj heq
      exact absurd rfl hzero
  | wire inner ih =>
      apply TotalAt.of_ne_zero
      intro names value ty hty hlen _ hext
      rw [ConcreteType.toMirType] at hty
      obtain ⟨text, htext⟩ := ih (names.child 0) value ty hty hlen
      unfold innerTranslateValue
      rw [hext]
      exact ⟨text, htext⟩

/-! ### Extension -/

/-- What is extended has as many bits as the type, and is not extended again. -/
theorem extended_extended {value bits : List VcdValue} {t : ConcreteType}
    (h : extended value t = some (some bits)) :
    ∃ ty, t.toMirType = some ty ∧ value.length ≤ ty.size ∧ value ≠ [] ∧
      bits.length = ty.size ∧ extended bits t = some (some bits) := by
  obtain ⟨ty, hty, hrest⟩ := Option.bind_eq_some_iff.mp h
  rcases Nat.lt_or_ge ty.size value.length with hlt | hle
  · rw [if_pos hlt] at hrest
    exact absurd hrest (by simp)
  rw [if_neg (not_lt.mpr hle)] at hrest
  by_cases hzero : ty.size = 0
  · rw [if_pos hzero] at hrest
    exact absurd hrest (by simp)
  have hne : value ≠ [] := by
    rintro rfl
    rw [if_neg hzero] at hrest
    exact absurd hrest (by simp)
  obtain ⟨bits', hext, hlen⟩ := extended_of_le hty hle hzero hne
  rw [h] at hext
  obtain rfl := Option.some.inj (Option.some.inj hext)
  have hagain := extended_eq hty (hlen.trans (bitCount_of_eq hty).symm)
  rw [bitCount_of_eq hty, if_neg hzero] at hagain
  exact ⟨ty, hty, hle, hne, hlen, hagain⟩

theorem extended_inOut (value : List VcdValue) (inner : ConcreteType) :
    extended value (.single .inOut [inner]) = extended value inner := by
  unfold extended
  rw [ConcreteType.toMirType]
  cases inner.toMirType with
  | none => rfl
  | some ty => rfl

/-- A value is translated as what it is extended to. -/
theorem innerTranslateValue_extended (names : VariantNames) {value bits : List VcdValue}
    {t : ConcreteType} (h : extended value t = some (some bits)) :
    innerTranslateValue names value t = innerTranslateValue names bits t := by
  induction t using typeInduction generalizing names with
  | tuple _ _ | struct _ _ | array _ _ _ | enum _ _ | integer _ =>
      obtain ⟨-, -, -, -, -, hagain⟩ := extended_extended h
      unfold innerTranslateValue
      rw [h, hagain]
  | single base params ih =>
      obtain ⟨-, -, -, -, -, hagain⟩ := extended_extended h
      unfold innerTranslateValue
      rw [h, hagain]
      cases base with
      | inOut =>
          rcases params with _ | ⟨inner, _ | ⟨t, ts⟩⟩
          · rfl
          · rw [extended_inOut] at h
            exact ih inner List.mem_cons_self (names.child 0) h
          · rfl
      | _ => rfl
  | backward inner _ =>
      -- No value of a type without bits is extended.
      obtain ⟨ty, hty, hle, hne, -, -⟩ := extended_extended h
      obtain ⟨inner', -, heq⟩ := Option.bind_eq_some_iff.mp hty
      obtain rfl := Option.some.inj heq
      exact absurd (List.length_eq_zero_iff.mp (Nat.le_zero.mp hle)) hne
  | wire inner ih =>
      obtain ⟨-, -, -, -, -, hagain⟩ := extended_extended h
      unfold innerTranslateValue
      rw [h, hagain]
      exact ih (names.child 0) h

/-! ### Recorded values -/

/-- `translate_value` with the checks of the size that precede the rest of `inner_translate_value`:
it has to fit in a `usize`, from which the number of bits of the value is subtracted. Where that
goes below zero, a build with overflow checks panics, and otherwise the comparison that follows
leaves the result as it is. The parts of a value are as long as their types. -/
def translateRecorded (checks : Bool) (names : VariantNames) (value : List VcdValue)
    (t : ConcreteType) : Option String := do
  let typeSize := (← t.toMirType).size
  if 2 ^ 64 ≤ typeSize then none
  else if typeSize < value.length then if checks then none else some ""
  else innerTranslateValue names value t

/-- A recorded value is accepted: the translation ends, and prints nothing for a value that is
longer than the type. -/
def Accepted (checks : Bool) (names : VariantNames) (value : List VcdValue) (t : ConcreteType) :
    Prop :=
  ∃ text, translateRecorded checks names value t = some text ∧
    (bitCount t < value.length → text = "")

/-- A recorded value is accepted exactly where its type is one of a value, with a size that fits in
a `usize` and, with overflow checks, no fewer bits than the value. -/
theorem translateRecorded_iff (checks : Bool) (names : VariantNames) (value : List VcdValue)
    (t : ConcreteType) (hne : value ≠ []) :
    Accepted checks names value t ↔
      ∃ ty, t.toMirType = some ty ∧ ty.size < 2 ^ 64 ∧
        (checks = true → value.length ≤ ty.size) := by
  unfold Accepted translateRecorded
  constructor
  · rintro ⟨text, htext, -⟩
    obtain ⟨ty, hty, htext⟩ := Option.bind_eq_some_iff.mp htext
    dsimp only at htext
    by_cases hlarge : 2 ^ 64 ≤ ty.size
    · rw [if_pos hlarge] at htext
      exact absurd htext (by simp)
    · refine ⟨ty, hty, not_le.mp hlarge, ?_⟩
      intro hchecks
      by_contra hlong
      rw [if_neg hlarge, if_pos (not_le.mp hlong), if_pos hchecks] at htext
      exact absurd htext (by simp)
  · rintro ⟨ty, hty, hsmall, hlen⟩
    rw [bitCount_of_eq hty, hty]
    simp only [Option.bind_eq_bind, Option.bind_some, if_neg (not_le.mpr hsmall)]
    rcases Nat.lt_or_ge ty.size value.length with hlong | hfits
    · have hchecks : ¬ checks = true := fun h => absurd (hlen h) (not_le.mpr hlong)
      rw [if_pos hlong, if_neg hchecks]
      exact ⟨"", rfl, fun _ => rfl⟩
    · rw [if_neg (not_lt.mpr hfits)]
      by_cases hzero : ty.size = 0
      · exact ⟨"", innerTranslateValue_empty (extended_of_zero hty hfits hzero), fun _ => rfl⟩
      · obtain ⟨bits, hext, hbits⟩ := extended_of_le hty hfits hzero hne
        obtain ⟨text, htext⟩ := totalAt t names bits ty hty hbits
        rw [innerTranslateValue_extended names hext]
        exact ⟨text, htext, fun hlong => absurd hlong (not_lt.mpr hfits)⟩

/-- Two bits recorded for a wire of type `bool`. -/
theorem translateRecorded_wire :
    Accepted false (fun _ _ => "") [.v1, .z] (.wire (.single .bool [])) := by
  apply (translateRecorded_iff false _ _ _ (List.cons_ne_nil _ _)).mpr
  exact ⟨.bool, rfl, by decide, fun h => absurd h (by decide)⟩

/-- With overflow checks, a value of two bits makes the translation of a `bool` panic. -/
theorem long_value_not_accepted :
    ¬ Accepted true (fun _ _ => "") [.v1, .z] (.single .bool []) := by
  have hpanic : translateRecorded true (fun _ _ => "") [.v1, .z] (.single .bool []) = none := rfl
  rintro ⟨text, htext, -⟩
  rw [hpanic] at htext
  exact absurd htext (by simp)

/-! ### Integers -/

/-- `value_from_str`. -/
def valueFromStr (s : List Char) : Option (List VcdValue) := s.mapM vcdChar

/-- The bit that Verilog puts in front of a value whose leftmost bit is given. -/
def fillBit : VcdValue → VcdValue
  | .x => .x
  | .z => .z
  | _ => .v0

/-- A value filled up from the left to a width. -/
def leftExtend (w : ℕ) (value : List VcdValue) : List VcdValue :=
  List.replicate (w - value.length) (fillBit (value.headD .v0)) ++ value

/-- `int<w>` or `uint<w>`. -/
def integerType (signed : Bool) (w : ℕ) : ConcreteType :=
  .single (if signed then .int else .uint) [.integer w]

/-- The integers of `int<w>` or `uint<w>`. -/
def IntegerInRange (signed : Bool) (w : ℕ) (i : ℤ) : Prop :=
  if signed then -2 ^ (w - 1) ≤ i ∧ i < 2 ^ (w - 1) else 0 ≤ i ∧ i < 2 ^ w

/-- The constants for an integer. One that is not signed may also be a `Value::Int`. -/
def IsConstant (signed : Bool) (w : ℕ) (i : ℤ) (v : Mir.Value) : Prop :=
  v = .int w i ∨ signed = false ∧ v = .uint w i.toNat

/-- `translate_signed_int` or `translate_unsigned_int`. -/
def translateInteger (signed : Bool) (value : List VcdValue) : Option (MaybeValue ℤ) :=
  if signed then translateSignedInt value
  else some ((translateUnsignedInt value).map fun n : ℕ => (n : ℤ))

theorem IsConstant.asString {signed : Bool} {w : ℕ} {i : ℤ} {v : Mir.Value}
    (hv : IsConstant signed w i v) (hw : 1 ≤ w) (hlimit : w < 2 ^ 64)
    (hrange : IntegerInRange signed w i) :
    v.asString = some ((BitString.ofInt w i).map bitChar) := by
  unfold IntegerInRange at hrange
  rcases hv with rfl | ⟨rfl, rfl⟩
  · cases signed with
    | true =>
        rw [if_pos rfl] at hrange
        exact asString_int (Or.inl rfl) ⟨by omega, hrange.1, hrange.2, fun _ => hlimit⟩
    | false => exact asString_int (Or.inr rfl) ⟨by omega, hrange⟩
  · obtain ⟨k, rfl⟩ := Int.eq_ofNat_of_zero_le hrange.1
    have hcast : ((2 ^ w : ℕ) : ℤ) = 2 ^ w := by push_cast; rfl
    have hlt : (k : ℤ) < 2 ^ w := hrange.2
    rw [BitString.ofInt_natCast, Int.toNat_natCast, Mir.Value.asString]
    exact paddedBinary_eq (by omega) (by omega)

theorem toMirType_integerType (signed : Bool) (w : ℕ) :
    ∃ ty, (integerType signed w).toMirType = some ty ∧ ty.size = w := by
  cases signed with
  | true => exact ⟨.int w, toMirType_int w, rfl⟩
  | false => exact ⟨.uint w, toMirType_uint w, rfl⟩

/-- The translation of the bits of an integer, as a number and as a text. -/
theorem translate_ofInt (names : VariantNames) {signed : Bool} {w : ℕ} {i : ℤ} (hw : 1 ≤ w)
    (hrange : IntegerInRange signed w i) :
    translateInteger signed ((BitString.ofInt w i).map vcdBit) = some (.value i) ∧
      innerTranslateValue names ((BitString.ofInt w i).map vcdBit) (integerType signed w) =
        some (toString i) := by
  obtain ⟨ty, hty, hsize⟩ := toMirType_integerType signed w
  have hlen : ((BitString.ofInt w i).map vcdBit).length = bitCount (integerType signed w) := by
    rw [bitCount_of_eq hty, hsize, List.length_map, BitString.length_ofInt]
  have hext := extended_eq hty hlen
  rw [bitCount_of_eq hty, hsize, if_neg (by omega)] at hext
  cases signed with
  | true =>
      have htype : Value.HasType (.int i) (.single .int [.integer w]) := by
        simp only [Value.HasType, ConcreteType.bounds, Int.toNat_natCast]
        exact ⟨hrange.1, by have := hrange.2; omega⟩
      have hint := translateSignedInt_ofInt (by omega : w ≠ 0) htype
      exact ⟨hint, innerTranslateValue_int hext hint⟩
  | false =>
      have htype : Value.HasType (.int i) (.single .uint [.integer w]) := by
        simp only [Value.HasType, ConcreteType.bounds, Int.toNat_natCast]
        exact ⟨hrange.1, by have := hrange.2; omega⟩
      have huint := translateUnsignedInt_ofInt htype
      have hpos : 0 ≤ i := hrange.1
      refine ⟨?_, ?_⟩
      · simp [translateInteger, huint, MaybeValue.map, hpos]
      · rw [← toString_toNat hpos]
        exact innerTranslateValue_uint hext huint

/-- What Verilog fills up to the width of the type is what the translation extends it to. -/
theorem extended_eq_leftExtend {value : List VcdValue} {t : ConcreteType} {ty : Ty}
    (hty : t.toMirType = some ty) (hne : value ≠ []) (hle : value.length ≤ ty.size) :
    extended value t = some (some (leftExtend ty.size value)) := by
  obtain ⟨v, vs, rfl⟩ := List.exists_cons_of_ne_nil hne
  rw [List.length_cons] at hle
  simp only [extended, hty, Option.bind_eq_bind, Option.bind_some, List.length_cons,
    if_neg (not_lt.mpr hle), if_neg (by omega : ¬ ty.size = 0), leftExtend, List.headD_cons]
  cases v <;> rfl

/-- The bits of a constant, as they are printed for the simulator, are translated to its integer,
and so is everything that Verilog fills up to these bits. -/
theorem integer_decodes (checks : Bool) (names : VariantNames) {signed : Bool} {w : ℕ} {i : ℤ}
    {v : Mir.Value} (hw : 1 ≤ w) (hlimit : w < 2 ^ 64) (hrange : IntegerInRange signed w i)
    (hv : IsConstant signed w i v) :
    ∃ text bits, v.asString = some text ∧ valueFromStr text = some bits ∧
      translateInteger signed bits = some (.value i) ∧
      translateRecorded checks names bits (integerType signed w) = some (toString i) ∧
      ∀ short, short ≠ [] → leftExtend w short = bits →
        translateRecorded checks names short (integerType signed w) = some (toString i) := by
  obtain ⟨hint, htext⟩ := translate_ofInt names hw hrange
  obtain ⟨ty, hty, rfl⟩ := toMirType_integerType signed w
  set bits := (BitString.ofInt ty.size i).map vcdBit with hbits
  have hbits_len : bits.length = ty.size := by
    rw [hbits, List.length_map, BitString.length_ofInt]
  have hrecorded : ∀ short : List VcdValue, short.length ≤ ty.size →
      innerTranslateValue names short (integerType signed ty.size) = some (toString i) →
      translateRecorded checks names short (integerType signed ty.size) = some (toString i) := by
    intro short hle htranslate
    unfold translateRecorded
    rw [hty]
    simp only [Option.bind_eq_bind, Option.bind_some, if_neg (not_le.mpr hlimit),
      if_neg (not_lt.mpr hle)]
    exact htranslate
  refine ⟨_, bits, hv.asString hw hlimit hrange, mapM_vcdChar_bits _, hint,
    hrecorded bits hbits_len.le htext, ?_⟩
  intro short hne hextend
  have hle : short.length ≤ ty.size := by
    have hlen := congrArg List.length hextend
    rw [hbits_len, leftExtend, List.length_append] at hlen
    omega
  apply hrecorded short hle
  have hext := extended_eq_leftExtend hty hne hle
  rw [hextend] at hext
  rw [innerTranslateValue_extended names hext]
  exact htext

/-- The smallest integer of `int<65>`. -/
theorem integer_decodes_min :
    ∃ text bits, (Mir.Value.int 65 (-2 ^ 64)).asString = some text ∧
      valueFromStr text = some bits ∧
      translateInteger true bits = some (.value (-2 ^ 64)) ∧
      translateRecorded true (fun _ _ => "") bits (integerType true 65) =
        some (toString (-2 ^ 64 : ℤ)) ∧
      ∀ short, short ≠ [] → leftExtend 65 short = bits →
        translateRecorded true (fun _ _ => "") short (integerType true 65) =
          some (toString (-2 ^ 64 : ℤ)) :=
  integer_decodes true (fun _ _ => "") (by decide) (by decide) ⟨by decide, by decide⟩
    (Or.inl rfl)

/-- A negative integer of a size that does not fit in a `usize` cannot be printed. -/
theorem integer_too_wide :
    IntegerInRange true (2 ^ 64) (-1) ∧ IsConstant true (2 ^ 64) (-1) (.int (2 ^ 64) (-1)) ∧
      (Mir.Value.int (2 ^ 64) (-1)).asString = none := by
  have hrange : ∀ k : ℕ, -2 ^ k ≤ (-1 : ℤ) ∧ (-1 : ℤ) < 2 ^ k := by
    intro k
    have hpos : (0 : ℤ) < 2 ^ k := Int.pow_pos (by decide)
    omega
  refine ⟨hrange _, Or.inl rfl, ?_⟩
  rw [Mir.Value.asString, if_neg (by decide), if_neg (lt_irrefl _)]

end Spade.VcdTranslate

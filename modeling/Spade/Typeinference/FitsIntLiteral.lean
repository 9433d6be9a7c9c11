import Mathlib.Tactic.Linarith
import Spade.Typeinference.TypeState

/-!
# Integer literals that fit their types

The check of `Requirement::FitsIntLiteral` in `spade-typeinference/src/requirements.rs`, and what it
answers while the value and the type of a literal become known.

* **Known literals** (`checkFitsIntLiteral_known`): the check accepts a value in the range of its
  type, as long as the width fits 32 bits.
* **Order** (`fits_run_iff`): whatever is replaced and checked in between, a literal is accepted in
  the end if and only if its value is in the range of its type.
-/

namespace Spade.Typeinference

/-! ### The check -/

/-- The names under which the symbol table has `int` and `uint`. -/
structure IntTypes where
  int : NameID
  uint : NameID
  ne : uint ≠ int

/-- Why a literal is rejected: the errors, and the ones that are bugs of the compiler. -/
inductive FitsError where
  /-- Expected another named type, got an integer literal. -/
  | expectedType (name : NameID)
  | doesNotFit (unsigned : Bool) (value size lower upper : ℤ)
  /-- Integer size does not fit in 32-bit unsigned number. -/
  | sizeTooLarge
  /-- Inferred non-integer type for type level integer. -/
  | nonInteger (other : TypeVar)
  /-- Inferred another type for integer literal. -/
  | inferredOther (other : TypeVar)
  /-- The number of parameters is not one. -/
  | paramCount

/-- `RequirementResult`, an error, or a failed assertion. -/
inductive FitsResult where
  | noChange
  | satisfied
  | error (e : FitsError)
  | panic

/-- `BigInt::to_u32`. -/
def toU32 (size : ℤ) : Option ℕ := if 0 ≤ size ∧ size < 2 ^ 32 then some size.toNat else none

/-- The range of the values of an integer type; `saturating_sub` is the subtraction of naturals. -/
def containedRange (unsigned : Bool) (size : ℕ) : ℤ × ℤ :=
  if unsigned then (0, 2 ^ size - 1) else (-2 ^ (size - 1), 2 ^ (size - 1) - 1)

/-- The check of a value against the range of its type. Zero fits every integer. -/
def checkRange (unsigned : Bool) (size : ℕ) (value : ℤ) : FitsResult :=
  if value = 0 then .satisfied
  else if value < (containedRange unsigned size).1 ∨ value > (containedRange unsigned size).2 then
    .error (.doesNotFit unsigned value size (containedRange unsigned size).1
      (containedRange unsigned size).2)
  else .satisfied

/-- The check of a literal of a known type. -/
def checkSize (unsigned : Bool) (size : ℤ) (value : ConstantInt) : FitsResult :=
  match toU32 size with
  | none => .error .sizeTooLarge
  | some size =>
      match value with
      | .generic (.unknown ..) => .noChange
      | .generic (.known (.integer val) _) => checkRange unsigned size val
      | .generic other => .error (.nonInteger other)
      | .literal val => checkRange unsigned size val

/-- `Requirement::check` for `FitsIntLiteral`. -/
def checkFitsIntLiteral (types : IntTypes) (value : ConstantInt) (targetType : TypeVar) :
    FitsResult :=
  match targetType with
  | .unknown .. => .noChange
  | .known (.named name) params =>
      if name = types.int ∨ name = types.uint then
        let unsigned := decide (name ≠ types.int)
        match params with
        | [.known (.integer size) sizeParams] =>
            if sizeParams.isEmpty then checkSize unsigned size value else .panic
        | [.unknown ..] => .noChange
        | [.known ..] => .error (.inferredOther targetType)
        | _ => .error .paramCount
      else .error (.expectedType name)
  | .known .. => .error (.inferredOther targetType)

/-! ### Known literals -/

/-- The value is one of `int<n>` or `uint<n>`. -/
def Representable (unsigned : Bool) (n : ℕ) (v : ℤ) : Prop :=
  if unsigned then 0 ≤ v ∧ v ≤ 2 ^ n - 1 else -2 ^ (n - 1) ≤ v ∧ v ≤ 2 ^ (n - 1) - 1

/-- `int<n>` or `uint<n>`. -/
def IntTypes.intType (types : IntTypes) (unsigned : Bool) (n : ℕ) : TypeVar :=
  .known (.named (if unsigned then types.uint else types.int)) [.known (.integer n) []]

/-- The value of the literal is known. -/
inductive ConstantInt.IsValue : ConstantInt → ℤ → Prop
  | literal (v : ℤ) : IsValue (.literal v) v
  | generic (v : ℤ) (params : List TypeVar) : IsValue (.generic (.known (.integer v) params)) v

theorem toU32_eq_some_iff {n m : ℕ} : toU32 n = some m ↔ n = m ∧ n < 2 ^ 32 := by
  have hcast : (n : ℤ) < 2 ^ 32 ↔ n < 2 ^ 32 := by
    rw [← Nat.cast_lt (α := ℤ)]
    norm_num
  unfold toU32
  split_ifs with h
  · rw [Int.toNat_natCast, Option.some.injEq]
    exact ⟨fun heq => ⟨heq, hcast.mp h.2⟩, fun heq => heq.1⟩
  · exact ⟨nofun, fun heq => absurd ⟨Int.natCast_nonneg n, hcast.mpr heq.2⟩ h⟩

theorem zero_representable (unsigned : Bool) (n : ℕ) : Representable unsigned n 0 := by
  have hpow : ∀ k, (1 : ℤ) ≤ 2 ^ k := fun k => one_le_pow₀ (by norm_num)
  unfold Representable
  split_ifs
  · exact ⟨le_refl 0, by linarith [hpow n]⟩
  · exact ⟨by linarith [hpow (n - 1)], by linarith [hpow (n - 1)]⟩

/-- The range check accepts the representable values. -/
theorem checkRange_eq_satisfied_iff {unsigned : Bool} {n : ℕ} {v : ℤ} :
    checkRange unsigned n v = .satisfied ↔ Representable unsigned n v := by
  unfold checkRange
  split_ifs with hzero hout
  · simp [hzero, zero_representable]
  · refine iff_of_false nofun fun h => ?_
    unfold Representable at h
    unfold containedRange at hout
    split_ifs at h hout <;> omega
  · refine iff_of_true rfl ?_
    unfold Representable
    unfold containedRange at hout
    split_ifs at hout ⊢ <;> omega

theorem checkRange_cases (unsigned : Bool) (n : ℕ) (v : ℤ) :
    checkRange unsigned n v = .satisfied ∨ ∃ e, checkRange unsigned n v = .error e := by
  unfold checkRange
  split_ifs
  · exact .inl rfl
  · exact .inr ⟨_, rfl⟩
  · exact .inl rfl

theorem toU32_eq_none {n : ℕ} (hn : ¬n < 2 ^ 32) : toU32 n = none := by
  cases h : toU32 n with
  | none => rfl
  | some m => exact absurd (toU32_eq_some_iff.mp h).2 hn

theorem checkSize_of_none {unsigned : Bool} {size : ℤ} (value : ConstantInt)
    (h : toU32 size = none) : checkSize unsigned size value = .error .sizeTooLarge := by
  rw [checkSize, h]

theorem checkSize_of_some {unsigned : Bool} {size : ℤ} {n : ℕ} {value : ConstantInt} {v : ℤ}
    (h : toU32 size = some n) (hvalue : value.IsValue v) :
    checkSize unsigned size value = checkRange unsigned n v := by
  rw [checkSize, h]
  cases hvalue with
  | literal => rfl
  | generic => rfl

theorem checkFitsIntLiteral_intType (types : IntTypes) (unsigned : Bool) (n : ℕ)
    (value : ConstantInt) :
    checkFitsIntLiteral types value (types.intType unsigned n) = checkSize unsigned n value := by
  cases unsigned <;> simp [checkFitsIntLiteral, IntTypes.intType, types.ne]

/-- The answer about a known literal. -/
def knownAnswer (unsigned : Bool) (n : ℕ) (v : ℤ) : FitsResult :=
  if n < 2 ^ 32 then checkRange unsigned n v else .error .sizeTooLarge

/-- **Known literals.** -/
theorem checkFitsIntLiteral_known (types : IntTypes) {unsigned : Bool} {n : ℕ} {value : ConstantInt}
    {v : ℤ} (hvalue : value.IsValue v) :
    checkFitsIntLiteral types value (types.intType unsigned n) = knownAnswer unsigned n v := by
  rw [checkFitsIntLiteral_intType, knownAnswer]
  by_cases hn : n < 2 ^ 32
  · rw [if_pos hn, checkSize_of_some (toU32_eq_some_iff.mpr ⟨rfl, hn⟩) hvalue]
  · rw [if_neg hn, checkSize_of_none value (toU32_eq_none hn)]

theorem knownAnswer_eq_satisfied_iff {unsigned : Bool} {n : ℕ} {v : ℤ} :
    knownAnswer unsigned n v = .satisfied ↔ n < 2 ^ 32 ∧ Representable unsigned n v := by
  rw [knownAnswer]
  by_cases hn : n < 2 ^ 32
  · rw [if_pos hn, checkRange_eq_satisfied_iff, and_iff_right hn]
  · rw [if_neg hn]
    exact iff_of_false nofun fun h => hn h.1

theorem knownAnswer_cases (unsigned : Bool) (n : ℕ) (v : ℤ) :
    knownAnswer unsigned n v = .satisfied ∨ ∃ e, knownAnswer unsigned n v = .error e := by
  rw [knownAnswer]
  by_cases hn : n < 2 ^ 32
  · rw [if_pos hn]
    exact checkRange_cases unsigned n v
  · rw [if_neg hn]
    exact .inr ⟨_, rfl⟩

/-! ### Literals that become known -/

/-- What happens to a requirement: an unknown type is replaced everywhere, or it is checked. -/
inductive RequirementEvent where
  | replace (id : ℕ) (traits : List TraitReq) (metaType : MetaType) (new : TypeVar)
  | check

/-- A requirement that is kept, or the first answer of its check that ends it. -/
inductive FitsOutcome where
  | kept (value : ConstantInt) (targetType : TypeVar)
  | satisfied
  | error (e : FitsError)
  | panic

def ConstantInt.replace (old new : TypeVar) : ConstantInt → ConstantInt
  | generic var => generic (var.replace old new)
  | literal val => literal val

theorem Requirement.replace_fitsIntLiteral (old new : TypeVar) (value : ConstantInt)
    (targetType : TypeVar) :
    (fitsIntLiteral value targetType).replace old new =
      fitsIntLiteral (value.replace old new) (targetType.replace old new) := by
  cases value <;> rfl

/-- The outcome of an answer that ends a requirement, or of what comes after it. -/
def FitsResult.outcome : FitsResult → FitsOutcome → FitsOutcome
  | noChange, rest => rest
  | satisfied, _ => .satisfied
  | error e, _ => .error e
  | panic, _ => .panic

/-- The requirement through a list of events, where a check drops it, keeps it or fails. -/
def runFits (types : IntTypes) : ConstantInt → TypeVar → List RequirementEvent → FitsOutcome
  | value, targetType, [] => .kept value targetType
  | value, targetType, .replace id traits metaType new :: events =>
      let old := .unknown id traits metaType
      runFits types (value.replace old new) (targetType.replace old new) events
  | value, targetType, .check :: events =>
      (checkFitsIntLiteral types value targetType).outcome (runFits types value targetType events)

/-- The type after all replacements of the events. -/
def replacedType : TypeVar → List RequirementEvent → TypeVar
  | t, [] => t
  | t, .replace id traits metaType new :: events =>
      replacedType (t.replace (.unknown id traits metaType) new) events
  | t, .check :: events => replacedType t events

/-- The value after all replacements of the events. -/
def replacedValue : ConstantInt → List RequirementEvent → ConstantInt
  | value, [] => value
  | value, .replace id traits metaType new :: events =>
      replacedValue (value.replace (.unknown id traits metaType) new) events
  | value, .check :: events => replacedValue value events

theorem replacedValue_literal (val : ℤ) (events : List RequirementEvent) :
    replacedValue (.literal val) events = .literal val := by
  induction events with
  | nil => rfl
  | cons event events ih => cases event <;> exact ih

theorem replacedValue_generic (var : TypeVar) (events : List RequirementEvent) :
    replacedValue (.generic var) events = .generic (replacedType var events) := by
  induction events generalizing var with
  | nil => rfl
  | cons event events ih => cases event <;> exact ih _

theorem TypeVar.replaceAll_eq (ts : List TypeVar) (old new : TypeVar) :
    TypeVar.replaceAll ts old new = ts.map (·.replace old new) := by
  induction ts with
  | nil => rfl
  | cons t ts ih => exact congrArg _ ih

/-- What is known about a type stays, and its parameters become known one by one. -/
theorem replacedType_known (base : KnownType) (params : List TypeVar)
    (events : List RequirementEvent) :
    replacedType (.known base params) events =
      .known base (params.map (replacedType · events)) := by
  induction events generalizing params with
  | nil => simp [replacedType]
  | cons event events ih =>
      cases event with
      | check => exact ih params
      | replace id traits metaType new =>
          have hstep : (TypeVar.known base params).replace (.unknown id traits metaType) new =
              .known base (params.map (·.replace (.unknown id traits metaType) new)) := by
            rw [TypeVar.replace, TypeVar.replaceAll_eq]
            rfl
          rw [replacedType, hstep, ih, List.map_map]
          rfl

/-- A type that becomes `int<n>` or `uint<n>` is that type, or it is not known how it goes on. -/
theorem intType_of_replacedType (types : IntTypes) {unsigned : Bool} {n : ℕ}
    {targetType : TypeVar} {events : List RequirementEvent} (value : ConstantInt)
    (h : replacedType targetType events = types.intType unsigned n) :
    checkFitsIntLiteral types value targetType = .noChange ∨
      targetType = types.intType unsigned n := by
  cases targetType with
  | unknown => exact .inl rfl
  | known base params =>
      rw [replacedType_known] at h
      obtain ⟨rfl, hparams⟩ := TypeVar.known.inj h
      obtain ⟨p, rfl, hp⟩ := List.map_eq_singleton_iff.mp hparams
      cases p with
      | unknown id traits metaType =>
          left
          cases unsigned <;> simp [checkFitsIntLiteral]
      | known base ps =>
          rw [replacedType_known] at hp
          obtain ⟨rfl, hps⟩ := TypeVar.known.inj hp
          obtain rfl := List.map_eq_nil_iff.mp hps
          exact .inr rfl

/-- A check answers that nothing has changed, or as it does when everything is known. -/
theorem check_eq_noChange_or_known (types : IntTypes) {unsigned : Bool} {n : ℕ}
    {value : ConstantInt} {targetType : TypeVar} {v : ℤ} {events : List RequirementEvent}
    (hvalue : (replacedValue value events).IsValue v)
    (htype : replacedType targetType events = types.intType unsigned n) :
    checkFitsIntLiteral types value targetType = .noChange ∨
      checkFitsIntLiteral types value targetType = knownAnswer unsigned n v := by
  rcases intType_of_replacedType types value htype with hnone | rfl
  · exact .inl hnone
  cases value with
  | literal val =>
      rw [replacedValue_literal] at hvalue
      exact .inr (checkFitsIntLiteral_known types hvalue)
  | generic var =>
      rw [replacedValue_generic] at hvalue
      cases var with
      | known base params =>
          rw [replacedType_known] at hvalue
          cases hvalue
          exact .inr (checkFitsIntLiteral_known types (.generic v params))
      | unknown id traits metaType =>
          rw [checkFitsIntLiteral_intType, knownAnswer]
          by_cases hn : n < 2 ^ 32
          · left
            rw [checkSize, toU32_eq_some_iff.mpr ⟨rfl, hn⟩]
          · right
            rw [if_neg hn, checkSize_of_none _ (toU32_eq_none hn)]

theorem outcome_knownAnswer (unsigned : Bool) (n : ℕ) (v : ℤ) (rest rest' : FitsOutcome) :
    (knownAnswer unsigned n v).outcome rest = (knownAnswer unsigned n v).outcome rest' := by
  rcases knownAnswer_cases unsigned n v with h | ⟨e, h⟩
  · rw [h]
    rfl
  · rw [h]
    rfl

/-- A check after everything is known ends the requirement as any earlier check that ends it. -/
theorem runFits_eq (types : IntTypes) {unsigned : Bool} {n : ℕ} {v : ℤ}
    {events : List RequirementEvent} {value : ConstantInt} {targetType : TypeVar}
    (hvalue : (replacedValue value events).IsValue v)
    (htype : replacedType targetType events = types.intType unsigned n) (rest : FitsOutcome) :
    runFits types value targetType (events ++ [.check]) =
      (knownAnswer unsigned n v).outcome rest := by
  induction events generalizing value targetType with
  | nil =>
      rw [replacedType] at htype
      rw [replacedValue] at hvalue
      rw [List.nil_append, runFits, htype, checkFitsIntLiteral_known types hvalue]
      exact outcome_knownAnswer unsigned n v _ _
  | cons event events ih =>
      cases event with
      | replace id traits metaType new => exact ih hvalue htype
      | check =>
          rw [List.cons_append, runFits]
          rcases check_eq_noChange_or_known types hvalue htype with h | h
          · rw [h]
            exact ih hvalue htype
          · rw [h]
            exact outcome_knownAnswer unsigned n v _ _

/-- **Order.** Whatever is replaced and checked before the type and the value of a literal are
known, it is accepted in the end if and only if its value is in the range of its type and the width
fits 32 bits. Otherwise it is rejected. -/
theorem fits_run_iff (types : IntTypes) {unsigned : Bool} {n : ℕ} {v : ℤ}
    {events : List RequirementEvent} {value : ConstantInt} {targetType : TypeVar}
    (hvalue : (replacedValue value events).IsValue v)
    (htype : replacedType targetType events = types.intType unsigned n) :
    (runFits types value targetType (events ++ [.check]) = .satisfied ↔
      n < 2 ^ 32 ∧ Representable unsigned n v) ∧
    (¬(n < 2 ^ 32 ∧ Representable unsigned n v) →
      ∃ e, runFits types value targetType (events ++ [.check]) = .error e) := by
  rw [runFits_eq types hvalue htype .satisfied, ← knownAnswer_eq_satisfied_iff]
  rcases knownAnswer_cases unsigned n v with h | ⟨e, h⟩
  · rw [h]
    exact ⟨iff_of_true rfl rfl, fun hnot => absurd rfl hnot⟩
  · rw [h]
    exact ⟨iff_of_false nofun nofun, fun _ => ⟨e, rfl⟩⟩

/-- The names of the two types in an example. -/
def sampleIntTypes : IntTypes where
  int := ⟨0, "int"⟩
  uint := ⟨1, "uint"⟩
  ne := by decide

/-- The value 255 becomes known, then the type `uint`, then the width 8, with checks in between. -/
def sampleEvents : List RequirementEvent :=
  [.replace 2 [] .int (.known (.integer 255) []), .check,
    .replace 0 [] .type (.known (.named sampleIntTypes.uint) [.unknown 1 [] .uint]), .check,
    .replace 1 [] .uint (.known (.integer 8) [])]

theorem fits_run_sample :
    runFits sampleIntTypes (.generic (.unknown 2 [] .int)) (.unknown 0 [] .type)
      (sampleEvents ++ [.check]) = .satisfied := by
  have hvalue : (replacedValue (.generic (.unknown 2 [] .int)) sampleEvents).IsValue 255 :=
    .generic 255 []
  have htype : replacedType (.unknown 0 [] .type) sampleEvents =
      sampleIntTypes.intType true 8 := rfl
  refine (fits_run_iff sampleIntTypes hvalue htype).1.mpr ⟨by norm_num, ?_⟩
  norm_num [Representable]

theorem one_representable {n : ℕ} (hn : n ≠ 0) : Representable true n 1 := by
  have hpow : (2 : ℤ) ≤ 2 ^ n := le_self_pow₀ one_le_two hn
  exact ⟨Int.one_nonneg, by linarith⟩

/-- One is not accepted as a `uint` of `2 ^ 32` bits. -/
theorem wide_literal_rejected :
    Representable true (2 ^ 32) 1 ∧
      runFits sampleIntTypes (.literal 1) (sampleIntTypes.intType true (2 ^ 32)) [.check] ≠
        .satisfied := by
  refine ⟨one_representable (Nat.pos_iff_ne_zero.mp (Nat.two_pow_pos 32)), ?_⟩
  have hvalue : (replacedValue (.literal 1) []).IsValue 1 := .literal 1
  have htype : replacedType (sampleIntTypes.intType true (2 ^ 32)) [] =
      sampleIntTypes.intType true (2 ^ 32) := rfl
  have hanswer : knownAnswer true (2 ^ 32) 1 = .error .sizeTooLarge := if_neg (Nat.lt_irrefl _)
  have hrun := runFits_eq sampleIntTypes hvalue htype .satisfied
  rw [List.nil_append, hanswer] at hrun
  rw [hrun]
  exact nofun

end Spade.Typeinference

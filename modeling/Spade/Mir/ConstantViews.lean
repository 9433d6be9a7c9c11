import Spade.Mir.EvalHardware

/-!
# The views of a constant

The embedding of `as_u64` and `as_u32_chunks` of `spade-mir/src/eval.rs`, next to the text of
`as_string`: three recursions over one value.

* **Text** (`exists_text_iff`): the text is as wide as the value, and its digits are those of the
  number of the value.
* **Words** (`asU64_eq_iff`): `as_u64` gives that number exactly where it fits in 64 bits, no shift
  being too far for the build.
* **Views** (`views_agree_iff`): `as_u32_chunks` goes through `as_u64` for the members of a
  concatenation, and so the views agree exactly where every member fits in 64 bits.

Whether arithmetic on `u64` checks for overflow depends on the build, which is a parameter here.
-/

namespace Spade.Mir

/-! ### Words -/

/-- `to_u64().unwrap()`, and the same of `to_usize`. -/
def toU64 (n : ℕ) : Option ℕ := if n < 2 ^ 64 then some n else none

/-- `<<` on `u64`: a build without checks takes the low bits of the distance. -/
def shlU64 (checks : Bool) (a distance : ℕ) : Option ℕ :=
  if checks && decide (64 ≤ distance) then none else some (a * 2 ^ (distance % 64) % 2 ^ 64)

/-- `+` on `u64`. -/
def addU64 (checks : Bool) (a b : ℕ) : Option ℕ :=
  if checks && decide (2 ^ 64 ≤ a + b) then none else some ((a + b) % 2 ^ 64)

namespace Value

/-- The low bits of a negative number, which is masked. -/
def masked (size : ℕ) (val : ℤ) : Option ℕ := do some (val % 2 ^ (← toU64 size)).toNat

/- `as_u64` and its loop over the members of a concatenation. -/
mutual

/-- `Value::as_u64`. -/
def asU64 (checks : Bool) : Value → Option ℕ
  | bit val => some val.toNat
  | int size val => if 0 ≤ val then toU64 val.toNat else do toU64 (← masked size val)
  | uint _ val => toU64 val
  | concat inner => asU64From checks 0 inner
  | undef _ => some 0

def asU64From (checks : Bool) (current : ℕ) : List Value → Option ℕ
  | [] => some current
  | next :: inner => do
      let shifted ← shlU64 checks current (← toU64 next.width)
      asU64From checks (← addU64 checks shifted (← next.asU64 checks)) inner

end

/-- The loop of `as_u32_chunks` over the members of a concatenation. -/
def chunksFrom (checks : Bool) (current : ℕ) : List Value → Option ℕ
  | [] => some current
  | next :: inner => do
      let shifted := current * 2 ^ (← toU64 next.width)
      chunksFrom checks (shifted + (← next.asU64 checks)) inner

/-- `Value::as_u32_chunks`. -/
def asU32Chunks (checks : Bool) : Value → Option ℕ
  | bit val => some val.toNat
  | int size val => if 0 ≤ val then some val.toNat else masked size val
  | uint _ val => some val
  | concat inner => chunksFrom checks 0 inner
  | undef _ => some 0

/-! ### Numbers -/

/- The number that a value stands for, undefined bits being zero. -/
mutual

def number : Value → ℕ
  | bit val => val.toNat
  | int size val => (val % 2 ^ size).toNat
  | uint _ val => val
  | concat inner => numberFrom 0 inner
  | undef _ => 0

def numberFrom (current : ℕ) : List Value → ℕ
  | [] => current
  | next :: inner => numberFrom (current * 2 ^ next.width + next.number) inner

end

/- A condition on the parts of a value, at any depth. -/
mutual

def Everywhere (P : Value → Prop) : Value → Prop
  | concat inner => P (concat inner) ∧ EverywhereIn P inner
  | v => P v

def EverywhereIn (P : Value → Prop) : List Value → Prop
  | [] => True
  | v :: vs => v.Everywhere P ∧ EverywhereIn P vs

end

/-- An integer lies within its size. -/
def InRange : Value → Prop
  | int size val => -2 ^ size ≤ 2 * val ∧ 2 * val < 2 ^ size
  | uint size val => val < 2 ^ size
  | _ => True

/-- An integer has bits, and the size of a negative one fits in a `usize`. -/
def Sized : Value → Prop
  | int size val => size ≠ 0 ∧ (val < 0 → size < 2 ^ 64)
  | uint size _ => size ≠ 0
  | _ => True

/-- The members of a concatenation are no wider than the build can shift by. -/
def Shiftable (checks : Bool) : Value → Prop
  | concat inner => ∀ v ∈ inner, v.width < 2 ^ 64 ∧ (checks = true → v.width < 64)
  | _ => True

/-- The number of an integer fits in 64 bits. -/
def Narrow : Value → Prop
  | int size val => (int size val).number < 2 ^ 64
  | uint size val => (uint size val).number < 2 ^ 64
  | _ => True

/-- Induction over a value and its members. -/
theorem nestedInduction {motive : Value → Prop} (bit : ∀ b, motive (.bit b))
    (int : ∀ size val, motive (.int size val)) (uint : ∀ size val, motive (.uint size val))
    (undef : ∀ size, motive (.undef size))
    (concat : ∀ inner, (∀ v ∈ inner, motive v) → motive (.concat inner)) (v : Value) :
    motive v := by
  refine @Value.rec motive (fun inner => ∀ v ∈ inner, motive v) bit int uint concat undef ?_ ?_ v
  · intro v hv
    exact absurd hv List.not_mem_nil
  · intro v vs hv hvs
    exact List.forall_mem_cons.mpr ⟨hv, hvs⟩

theorem everywhereIn_iff {P : Value → Prop} {vs : List Value} :
    EverywhereIn P vs ↔ ∀ v ∈ vs, v.Everywhere P := by
  induction vs with
  | nil => simp [EverywhereIn]
  | cons v vs ih => simp [EverywhereIn, ih]

theorem everywhere_concat {P : Value → Prop} {inner : List Value} :
    (concat inner).Everywhere P ↔ P (concat inner) ∧ ∀ v ∈ inner, v.Everywhere P := by
  rw [Everywhere, everywhereIn_iff]

theorem shiftable_concat {checks : Bool} {inner : List Value} :
    (concat inner).Shiftable checks ↔
      ∀ v ∈ inner, v.width < 2 ^ 64 ∧ (checks = true → v.width < 64) := Iff.rfl

/-! ### Horner's rule -/

theorem numberFrom_eq (current : ℕ) (vs : List Value) :
    numberFrom current vs = current * 2 ^ widths vs + numberFrom 0 vs := by
  induction vs generalizing current with
  | nil => simp [numberFrom, widths]
  | cons v vs ih =>
      rw [numberFrom, ih, numberFrom, ih (0 * 2 ^ v.width + v.number), widths, Nat.pow_add]
      ring

theorem le_numberFrom (current : ℕ) (vs : List Value) : current ≤ numberFrom current vs := by
  rw [numberFrom_eq]
  exact (Nat.le_mul_of_pos_right _ (Nat.two_pow_pos _)).trans (Nat.le_add_right _ _)

theorem int_number_lt (size : ℕ) (val : ℤ) : (int size val).number < 2 ^ size := by
  have hpos : (0 : ℤ) < 2 ^ size := Int.pow_pos (by decide)
  have hnonneg := Int.emod_nonneg val hpos.ne'
  have hlt := Int.emod_lt_of_pos val hpos
  have hpow : ((2 ^ size : ℕ) : ℤ) = 2 ^ size := by push_cast; rfl
  rw [number]
  omega

theorem number_lt {v : Value} (h : v.Everywhere InRange) : v.number < 2 ^ v.width := by
  induction v using nestedInduction with
  | bit b => cases b <;> simp [number, width]
  | int size val => exact int_number_lt size val
  | uint size val => exact h
  | undef size => exact Nat.two_pow_pos size
  | concat inner ih =>
      obtain ⟨-, hinner⟩ := everywhere_concat.mp h
      rw [number, width]
      clear h
      induction inner with
      | nil => exact Nat.zero_lt_one
      | cons v vs ihs =>
          have hv := ih v List.mem_cons_self (hinner v List.mem_cons_self)
          have hvs := ihs (fun w hw => ih w (List.mem_cons_of_mem v hw))
            (fun w hw => hinner w (List.mem_cons_of_mem v hw))
          rw [numberFrom, numberFrom_eq, widths, Nat.pow_add, Nat.zero_mul, Nat.zero_add]
          calc v.number * 2 ^ widths vs + numberFrom 0 vs
              < v.number * 2 ^ widths vs + 2 ^ widths vs := Nat.add_lt_add_left hvs _
            _ = (v.number + 1) * 2 ^ widths vs := by ring
            _ ≤ 2 ^ v.width * 2 ^ widths vs := Nat.mul_le_mul_right _ hv

/-! ### Text -/

/-- The number whose binary digits are the text, an `X` being a zero. -/
def digitsNumber (text : List Char) : ℕ := BitString.toNat (text.map (· == '1'))

/-- The text of a value has a character for every bit, and its digits are those of the number. -/
structure ShowsNumber (v : Value) (text : List Char) : Prop where
  asString : v.asString = some text
  length : text.length = v.width
  number : digitsNumber text = v.number

theorem digitsNumber_append (text text' : List Char) :
    digitsNumber (text ++ text') =
      digitsNumber text * 2 ^ text'.length + digitsNumber text' := by
  unfold digitsNumber
  rw [List.map_append, BitString.toNat_append, List.length_map]

theorem digitsNumber_bits (bits : BitString) :
    digitsNumber (bits.map bitChar) = bits.toNat := by
  have hdigit : ((· == '1') ∘ bitChar) = id := by
    funext b
    cases b <;> rfl
  unfold digitsNumber
  rw [List.map_map, hdigit, List.map_id]

theorem showsNumber_int {size : ℕ} {val : ℤ} (hfits : (int size val).InRange)
    (hsized : (int size val).Sized) :
    ShowsNumber (.int size val) ((BitString.ofInt size val).map bitChar) where
  asString := by
    obtain ⟨k, rfl⟩ := Nat.exists_eq_succ_of_ne_zero hsized.1
    obtain ⟨hlow, hhigh⟩ := hfits
    have hpow : (2 : ℤ) ^ (k + 1) = 2 * 2 ^ k := by ring
    apply asString_int (Or.inl rfl)
    refine ⟨hsized.1, ?_, ?_, hsized.2⟩
    all_goals
      simp only [Nat.succ_eq_add_one, Nat.add_sub_cancel] at hlow hhigh ⊢
      omega
  length := by rw [List.length_map, BitString.length_ofInt, width]
  number := by
    rw [digitsNumber_bits, BitString.ofInt]
    exact BitString.toNat_ofNat_of_lt (int_number_lt size val)

theorem showsNumber_uint {size val : ℕ} (hfits : (uint size val).InRange)
    (hsized : (uint size val).Sized) :
    ShowsNumber (.uint size val) ((BitString.ofNat size val).map bitChar) where
  asString := paddedBinary_eq (Nat.pos_of_ne_zero hsized) hfits
  length := by rw [List.length_map, BitString.length_ofNat, width]
  number := by rw [digitsNumber_bits, BitString.toNat_ofNat_of_lt hfits, number]

theorem showsNumber_undef (size : ℕ) : ShowsNumber (.undef size) (List.replicate size 'X') where
  asString := rfl
  length := List.length_replicate
  number := by
    unfold digitsNumber
    rw [List.map_replicate]
    exact BitString.toNat_replicate_false size

theorem showsNumber_concat {inner : List Value} (h : ∀ v ∈ inner, ∃ text, ShowsNumber v text) :
    ∃ text, ShowsNumber (.concat inner) text := by
  induction inner with
  | nil => exact ⟨[], rfl, rfl, rfl⟩
  | cons v vs ih =>
      obtain ⟨text, hv⟩ := h v List.mem_cons_self
      obtain ⟨texts, hvs⟩ := ih fun w hw => h w (List.mem_cons_of_mem v hw)
      have hstring := hvs.asString
      have hlength := hvs.length
      have hnumber := hvs.number
      rw [Value.asString] at hstring
      rw [width] at hlength
      rw [Value.number] at hnumber
      refine ⟨text ++ texts, ?_, ?_, ?_⟩
      · rw [Value.asString, asStrings, hv.asString, hstring]
        rfl
      · rw [List.length_append, hv.length, hlength, width, widths]
      · rw [digitsNumber_append, hv.number, hnumber, hlength, Value.number, numberFrom,
          Nat.zero_mul, Nat.zero_add, ← numberFrom_eq]

theorem exists_text {v : Value} (hfits : v.Everywhere InRange) (hsized : v.Everywhere Sized) :
    ∃ text, ShowsNumber v text := by
  induction v using nestedInduction with
  | bit b => exact ⟨[bitChar b], rfl, rfl, by cases b <;> rfl⟩
  | int size val => exact ⟨_, showsNumber_int hfits hsized⟩
  | uint size val => exact ⟨_, showsNumber_uint hfits hsized⟩
  | undef size => exact ⟨_, showsNumber_undef size⟩
  | concat inner ih =>
      have hfits' := (everywhere_concat.mp hfits).2
      have hsized' := (everywhere_concat.mp hsized).2
      exact showsNumber_concat fun v hv => ih v hv (hfits' v hv) (hsized' v hv)

/-- The digits of zero do not fit in no bits. -/
theorem paddedBinary_zero (val : ℕ) : paddedBinary 0 val = none := by
  have hpos := @Nat.length_toDigits_pos 2 val
  have hnone : checkedSub 0 (Nat.toDigits 2 val).length = none := by
    apply if_neg
    omega
  simp only [paddedBinary, hnone, Option.bind_eq_bind, Option.bind_none]

theorem sized_of_asString {v : Value} (hfits : v.Everywhere InRange) {text : List Char}
    (h : v.asString = some text) : v.Everywhere Sized := by
  induction v using nestedInduction generalizing text with
  | bit b => trivial
  | int size val =>
      obtain ⟨hlow, hhigh⟩ : (int size val).InRange := hfits
      rw [asString] at h
      have hsize : size ≠ 0 := by
        rintro rfl
        rw [if_pos (by omega), paddedBinary_zero] at h
        exact absurd h (by simp)
      refine ⟨hsize, ?_⟩
      intro hneg
      rw [if_neg (by omega)] at h
      by_contra hlarge
      rw [if_neg hlarge] at h
      exact absurd h (by simp)
  | uint size val =>
      rintro rfl
      rw [asString, paddedBinary_zero] at h
      exact absurd h (by simp)
  | undef size => trivial
  | concat inner ih =>
      have hfits' := (everywhere_concat.mp hfits).2
      rw [asString] at h
      apply everywhere_concat.mpr
      refine ⟨trivial, ?_⟩
      clear hfits
      induction inner generalizing text with
      | nil => exact fun v hv => absurd hv List.not_mem_nil
      | cons v vs ihs =>
          rw [asStrings] at h
          obtain ⟨first, hfirst, h⟩ := Option.bind_eq_some_iff.mp h
          obtain ⟨rest, hrest, -⟩ := Option.bind_eq_some_iff.mp h
          rw [List.forall_mem_cons]
          exact ⟨ih v List.mem_cons_self (hfits' v List.mem_cons_self) hfirst,
            ihs (fun w hw => ih w (List.mem_cons_of_mem v hw)) hrest
              (fun w hw => hfits' w (List.mem_cons_of_mem v hw))⟩

/-! ### Words -/

theorem toU64_of_lt {n : ℕ} (h : n < 2 ^ 64) : toU64 n = some n := if_pos h

theorem lt_of_toU64 {n m : ℕ} (h : toU64 n = some m) : n < 2 ^ 64 ∧ m = n := by
  unfold toU64 at h
  split_ifs at h with hlt
  exact ⟨hlt, (Option.some.inj h).symm⟩

theorem shlU64_of_lt {checks : Bool} {a w : ℕ} (hw : checks = true → w < 64)
    (h : a * 2 ^ w < 2 ^ 64) : shlU64 checks a w = some (a * 2 ^ w) := by
  have hcheck : ¬ (checks && decide (64 ≤ w)) = true := by
    simp only [Bool.and_eq_true, decide_eq_true_eq, not_and, not_le]
    exact hw
  unfold shlU64
  rw [if_neg hcheck]
  rcases Nat.lt_or_ge w 64 with hlt | hge
  · rw [Nat.mod_eq_of_lt hlt, Nat.mod_eq_of_lt h]
  · -- Only zero can be shifted that far and stay small.
    have hzero : a = 0 := by
      by_contra hne
      have hpow : 2 ^ 64 ≤ 2 ^ w := Nat.pow_le_pow_right (by decide) hge
      have := Nat.le_mul_of_pos_left (2 ^ w) (Nat.pos_of_ne_zero hne)
      omega
    rw [hzero, Nat.zero_mul, Nat.zero_mul]
    rfl

theorem addU64_of_lt {checks : Bool} {a b : ℕ} (h : a + b < 2 ^ 64) :
    addU64 checks a b = some (a + b) := by
  have hcheck : ¬ (checks && decide (2 ^ 64 ≤ a + b)) = true := by
    simp only [Bool.and_eq_true, decide_eq_true_eq, not_and, not_le]
    exact fun _ => h
  unfold addU64
  rw [if_neg hcheck, Nat.mod_eq_of_lt h]

theorem shlU64_eq_some {checks : Bool} {a w b : ℕ} (h : shlU64 checks a w = some b) :
    (checks = true → w < 64) ∧ b < 2 ^ 64 := by
  unfold shlU64 at h
  split_ifs at h with hcheck
  simp only [Bool.and_eq_true, decide_eq_true_eq, not_and, not_le] at hcheck
  obtain rfl := Option.some.inj h
  exact ⟨hcheck, Nat.mod_lt _ (by decide)⟩

theorem addU64_lt {checks : Bool} {a b c : ℕ} (h : addU64 checks a b = some c) : c < 2 ^ 64 := by
  unfold addU64 at h
  split_ifs at h
  obtain rfl := Option.some.inj h
  exact Nat.mod_lt _ (by decide)

/-- The number of an integer that is not negative. -/
theorem int_number_of_nonneg {size : ℕ} {val : ℤ} (hfits : (int size val).InRange)
    (h : 0 ≤ val) : (int size val).number = val.toNat := by
  obtain ⟨-, hhigh⟩ := hfits
  have hlt : val < 2 ^ size := by omega
  rw [number, Int.emod_eq_of_lt h hlt]

/-- A negative integer has its highest bit set. -/
theorem int_number_of_neg {size : ℕ} {val : ℤ} (hfits : (int size val).InRange)
    (h : val < 0) : 2 ^ size ≤ 2 * (int size val).number := by
  obtain ⟨hlow, -⟩ := hfits
  have hpow : ((2 ^ size : ℕ) : ℤ) = 2 ^ size := by push_cast; rfl
  have hmod : val % 2 ^ size = val + 2 ^ size := by
    rw [← Int.add_emod_right, Int.emod_eq_of_lt (by omega) (by omega)]
  rw [number, hmod]
  omega

/-- `as_u64` of an integer. -/
theorem asU64_int_eq {checks : Bool} {size : ℕ} {val : ℤ} (hfits : (int size val).InRange)
    {n : ℕ} : (int size val).asU64 checks = some n ↔
      (int size val).number < 2 ^ 64 ∧ n = (int size val).number := by
  have hiff : ∀ {m : ℕ}, toU64 m = some n ↔ m < 2 ^ 64 ∧ n = m := by
    intro m
    constructor
    · exact lt_of_toU64
    · rintro ⟨hlt, rfl⟩
      exact toU64_of_lt hlt
  rw [asU64]
  split_ifs with h
  · rw [int_number_of_nonneg hfits h]
    exact hiff
  · have hneg := int_number_of_neg hfits (not_le.mp h)
    constructor
    · intro heq
      obtain ⟨m, hmasked, hm⟩ := Option.bind_eq_some_iff.mp heq
      obtain ⟨k, hk, hnumber⟩ := Option.bind_eq_some_iff.mp hmasked
      rw [(lt_of_toU64 hk).2] at hnumber
      rw [← Option.some.inj hnumber] at hm
      exact hiff.mp hm
    · rintro ⟨hlt, heq⟩
      have hmasked : masked size val = some (int size val).number := by
        have hsize : size < 65 := by
          apply (Nat.pow_lt_pow_iff_right (by decide : 1 < 2)).mp
          omega
        unfold masked
        rw [toU64_of_lt (by omega)]
        rfl
      rw [hmasked]
      exact hiff.mpr ⟨hlt, heq⟩

/-- The loop of `as_u64` follows Horner's rule as long as the members and the number fit. -/
theorem asU64From_of_lt {checks : Bool} {inner : List Value}
    (hshift : (concat inner).Shiftable checks)
    (hinner : ∀ v ∈ inner, v.number < 2 ^ 64 → v.asU64 checks = some v.number) {current : ℕ}
    (h : numberFrom current inner < 2 ^ 64) :
    asU64From checks current inner = some (numberFrom current inner) := by
  induction inner generalizing current with
  | nil => rfl
  | cons v vs ih =>
      obtain ⟨⟨hwidth, hchecks⟩, hshifts⟩ := List.forall_mem_cons.mp hshift
      obtain ⟨hv, hvs⟩ := List.forall_mem_cons.mp hinner
      rw [numberFrom] at h ⊢
      have hstep := (le_numberFrom _ vs).trans_lt h
      rw [asU64From, toU64_of_lt hwidth, hv (by omega)]
      simp only [Option.bind_eq_bind, Option.bind_some]
      rw [shlU64_of_lt hchecks (by omega), Option.bind_some, addU64_of_lt hstep, Option.bind_some]
      exact ih hshifts hvs h

theorem asU64_of_lt {checks : Bool} {v : Value} (hfits : v.Everywhere InRange)
    (hshift : v.Everywhere (Shiftable checks)) (h : v.number < 2 ^ 64) :
    v.asU64 checks = some v.number := by
  induction v using nestedInduction with
  | bit b => rfl
  | int size val => exact (asU64_int_eq hfits).mpr ⟨h, rfl⟩
  | uint size val => exact toU64_of_lt h
  | undef size => rfl
  | concat inner ih =>
      obtain ⟨hhere, hshifts⟩ := everywhere_concat.mp hshift
      have hfits' := (everywhere_concat.mp hfits).2
      rw [asU64, number] at *
      exact asU64From_of_lt hhere (fun v hv => ih v hv (hfits' v hv) (hshifts v hv)) h

theorem asU64From_lt {checks : Bool} {inner : List Value} {current n : ℕ}
    (hcurrent : current < 2 ^ 64) (h : asU64From checks current inner = some n) : n < 2 ^ 64 := by
  induction inner generalizing current with
  | nil =>
      obtain rfl := Option.some.inj h
      exact hcurrent
  | cons v vs ih =>
      rw [asU64From] at h
      obtain ⟨_, -, h⟩ := Option.bind_eq_some_iff.mp h
      obtain ⟨_, -, h⟩ := Option.bind_eq_some_iff.mp h
      obtain ⟨_, -, h⟩ := Option.bind_eq_some_iff.mp h
      obtain ⟨_, hadd, h⟩ := Option.bind_eq_some_iff.mp h
      exact ih (addU64_lt hadd) h

theorem asU64_lt {checks : Bool} {v : Value} (hfits : v.Everywhere InRange) {n : ℕ}
    (h : v.asU64 checks = some n) : n < 2 ^ 64 := by
  cases v with
  | bit b =>
      obtain rfl := Option.some.inj h
      cases b <;> decide
  | int size val =>
      obtain ⟨hlt, rfl⟩ := (asU64_int_eq hfits).mp h
      exact hlt
  | uint size val =>
      obtain ⟨hlt, rfl⟩ := lt_of_toU64 h
      exact hlt
  | undef size =>
      obtain rfl := Option.some.inj h
      decide
  | concat inner =>
      rw [asU64] at h
      exact asU64From_lt (by decide) h

/-- What `as_u64` goes through without a panic. -/
theorem fits_of_asU64 {checks : Bool} {v : Value} (hfits : v.Everywhere InRange) {n : ℕ}
    (h : v.asU64 checks = some n) : v.Everywhere Narrow ∧ v.Everywhere (Shiftable checks) := by
  induction v using nestedInduction generalizing n with
  | bit b => exact ⟨trivial, trivial⟩
  | int size val => exact ⟨((asU64_int_eq hfits).mp h).1, trivial⟩
  | uint size val => exact ⟨(lt_of_toU64 h).1, trivial⟩
  | undef size => exact ⟨trivial, trivial⟩
  | concat inner ih =>
      have hfits' := (everywhere_concat.mp hfits).2
      rw [asU64] at h
      rw [everywhere_concat, everywhere_concat, shiftable_concat]
      clear hfits
      generalize 0 = current at h
      induction inner generalizing current with
      | nil => simp [Narrow]
      | cons v vs ihs =>
          rw [asU64From] at h
          obtain ⟨width, hwidth, h₁⟩ := Option.bind_eq_some_iff.mp h
          obtain ⟨shifted, hshl, h₂⟩ := Option.bind_eq_some_iff.mp h₁
          obtain ⟨word, hword, h₃⟩ := Option.bind_eq_some_iff.mp h₂
          obtain ⟨sum, -, h₄⟩ := Option.bind_eq_some_iff.mp h₃
          obtain ⟨hlt, rfl⟩ := lt_of_toU64 hwidth
          obtain ⟨hnarrow, hshift⟩ := ih v List.mem_cons_self (hfits' v List.mem_cons_self) hword
          obtain ⟨⟨-, hnarrows⟩, hhere, hshifts⟩ :=
            ihs (fun w hw => ih w (List.mem_cons_of_mem v hw))
              (fun w hw => hfits' w (List.mem_cons_of_mem v hw)) sum h₄
          simp only [List.forall_mem_cons]
          exact ⟨⟨trivial, hnarrow, hnarrows⟩, ⟨⟨hlt, (shlU64_eq_some hshl).1⟩, hhere⟩,
            hshift, hshifts⟩

/-- `as_u64` gives the number exactly where that fits in 64 bits and no shift is too far. -/
theorem asU64_eq_iff {checks : Bool} {v : Value} (hfits : v.Everywhere InRange) :
    v.asU64 checks = some v.number ↔ v.number < 2 ^ 64 ∧ v.Everywhere (Shiftable checks) := by
  constructor
  · intro h
    exact ⟨asU64_lt hfits h, (fits_of_asU64 hfits h).2⟩
  · rintro ⟨hlt, hshift⟩
    exact asU64_of_lt hfits hshift hlt

/-- A word of a member stays within the width of the member. -/
theorem asU64_lt_width {checks : Bool} {v : Value} (hfits : v.Everywhere InRange) {n : ℕ}
    (h : v.asU64 checks = some n) : n < 2 ^ v.width := by
  rcases Nat.lt_or_ge v.width 64 with hlt | hge
  · have hpow := Nat.pow_lt_pow_right (by decide : 1 < 2) hlt
    have hnumber := number_lt hfits
    rw [asU64_of_lt hfits (fits_of_asU64 hfits h).2 (hnumber.trans hpow)] at h
    obtain rfl := Option.some.inj h
    exact hnumber
  · exact (asU64_lt hfits h).trans_le (Nat.pow_le_pow_right (by decide) hge)

/-- A word that is no wider than the distance goes into the bits that the shift has freed. -/
theorem exists_shl_add {checks : Bool} (a : ℕ) {w b : ℕ} (hw : checks = true → w < 64)
    (hb : b < 2 ^ w) :
    ∃ shifted, shlU64 checks a w = some shifted ∧ ∃ sum, addU64 checks shifted b = some sum := by
  cases checks with
  | false => exact ⟨_, rfl, _, rfl⟩
  | true =>
      have hlt := hw rfl
      refine ⟨a * 2 ^ w % 2 ^ 64, ?_, a * 2 ^ w % 2 ^ 64 + b, addU64_of_lt ?_⟩
      · unfold shlU64
        rw [if_neg (by simpa using hlt), Nat.mod_eq_of_lt hlt]
      · obtain ⟨k, hk⟩ : 2 ^ w ∣ a * 2 ^ w % 2 ^ 64 := by
          apply (Nat.dvd_mod_iff (Nat.pow_dvd_pow 2 hlt.le)).mpr
          exact Nat.dvd_mul_left _ _
        have hmod := Nat.mod_lt (a * 2 ^ w) (by decide : 0 < 2 ^ 64)
        have hsplit : 2 ^ 64 = 2 ^ w * 2 ^ (64 - w) := by
          rw [← Nat.pow_add, Nat.add_sub_cancel' hlt.le]
        rw [hk, hsplit] at hmod
        rw [hk, hsplit]
        have hk_lt := Nat.lt_of_mul_lt_mul_left hmod
        calc 2 ^ w * k + b < 2 ^ w * k + 2 ^ w := Nat.add_lt_add_left hb _
          _ = 2 ^ w * (k + 1) := by ring
          _ ≤ 2 ^ w * 2 ^ (64 - w) := Nat.mul_le_mul_left _ hk_lt

/-- Where `as_u64` does not panic: every integer fits, and so do the shifts. -/
theorem asU64_ne_none_iff {checks : Bool} {v : Value} (hfits : v.Everywhere InRange) :
    v.asU64 checks ≠ none ↔ v.Everywhere Narrow ∧ v.Everywhere (Shiftable checks) := by
  constructor
  · intro h
    obtain ⟨n, hn⟩ := Option.ne_none_iff_exists'.mp h
    exact fits_of_asU64 hfits hn
  · rintro ⟨hnarrow, hshift⟩
    rw [Option.ne_none_iff_exists']
    induction v using nestedInduction with
    | bit b => exact ⟨_, rfl⟩
    | int size val => exact ⟨_, (asU64_int_eq hfits).mpr ⟨hnarrow, rfl⟩⟩
    | uint size val => exact ⟨_, toU64_of_lt hnarrow⟩
    | undef size => exact ⟨_, rfl⟩
    | concat inner ih =>
        have hfits' := (everywhere_concat.mp hfits).2
        have hnarrows := (everywhere_concat.mp hnarrow).2
        obtain ⟨hhere, hshifts⟩ := everywhere_concat.mp hshift
        rw [shiftable_concat] at hhere
        rw [asU64]
        clear hfits hnarrow hshift
        generalize 0 = current
        induction inner generalizing current with
        | nil => exact ⟨current, rfl⟩
        | cons v vs ihs =>
            rw [List.forall_mem_cons] at hfits' hnarrows hhere hshifts ih
            obtain ⟨word, hword⟩ := ih.1 hfits'.1 hnarrows.1 hshifts.1
            obtain ⟨shifted, hshl, sum, hadd⟩ :=
              exists_shl_add current hhere.1.2 (asU64_lt_width hfits'.1 hword)
            obtain ⟨n, hn⟩ := ihs ih.2 hfits'.2 hnarrows.2 hhere.2 hshifts.2 sum
            refine ⟨n, ?_⟩
            rw [asU64From, toU64_of_lt hhere.1.1]
            simp only [Option.bind_eq_bind, Option.bind_some]
            rw [hshl, Option.bind_some, hword, Option.bind_some, hadd, Option.bind_some]
            exact hn

/-! ### Chunks -/

/-- A step of Horner's rule can be taken back. -/
theorem step_injective {w a a' b b' : ℕ} (hb : b < 2 ^ w) (hb' : b' < 2 ^ w)
    (h : a * 2 ^ w + b = a' * 2 ^ w + b') : a = a' ∧ b = b' := by
  have hpos := Nat.two_pow_pos w
  have hdiv := congrArg (· / 2 ^ w) h
  simp only [Nat.add_comm (_ * 2 ^ w), Nat.add_mul_div_right _ _ hpos,
    Nat.div_eq_of_lt hb, Nat.div_eq_of_lt hb', Nat.zero_add] at hdiv
  subst hdiv
  exact ⟨rfl, by omega⟩

/-- The loop of `as_u32_chunks` gives the number exactly where `as_u64` does so for every member. -/
theorem chunksFrom_eq_iff {checks : Bool} {inner : List Value}
    (hfits : ∀ v ∈ inner, v.Everywhere InRange) {current current' : ℕ} :
    chunksFrom checks current inner = some (numberFrom current' inner) ↔
      current = current' ∧ ∀ v ∈ inner, v.width < 2 ^ 64 ∧ v.number < 2 ^ 64 ∧
        v.Everywhere (Shiftable checks) := by
  induction inner generalizing current current' with
  | nil => simp [chunksFrom, numberFrom]
  | cons v vs ih =>
      obtain ⟨hv, hvs⟩ := List.forall_mem_cons.mp hfits
      rw [List.forall_mem_cons, chunksFrom, numberFrom]
      constructor
      · intro h
        obtain ⟨width, hwidth, h₁⟩ := Option.bind_eq_some_iff.mp h
        obtain ⟨word, hword, h₂⟩ := Option.bind_eq_some_iff.mp h₁
        obtain ⟨hlt, rfl⟩ := lt_of_toU64 hwidth
        obtain ⟨hstep, hrest⟩ := (ih hvs).mp h₂
        obtain ⟨rfl, rfl⟩ := step_injective (asU64_lt_width hv hword) (number_lt hv) hstep
        exact ⟨rfl, ⟨hlt, (asU64_eq_iff hv).mp hword⟩, hrest⟩
      · rintro ⟨rfl, ⟨hlt, hword⟩, hrest⟩
        rw [toU64_of_lt hlt, (asU64_eq_iff hv).mpr hword]
        exact (ih hvs).mpr ⟨rfl, hrest⟩

/-- The condition under which the members of a concatenation go through `as_u64`. -/
def MembersFit (checks : Bool) : Value → Prop
  | concat inner => ∀ v ∈ inner, v.width < 2 ^ 64 ∧ v.number < 2 ^ 64 ∧
      v.Everywhere (Shiftable checks)
  | _ => True

theorem asU32Chunks_eq_iff {checks : Bool} {v : Value} (hfits : v.Everywhere InRange)
    (hsized : v.Everywhere Sized) :
    v.asU32Chunks checks = some v.number ↔ v.MembersFit checks := by
  cases v with
  | bit b => exact iff_of_true rfl trivial
  | int size val =>
      apply iff_of_true _ trivial
      rw [asU32Chunks]
      split_ifs with h
      · rw [int_number_of_nonneg hfits h]
      · unfold masked
        rw [toU64_of_lt (hsized.2 (not_le.mp h))]
        rfl
  | uint size val => exact iff_of_true rfl trivial
  | undef size => exact iff_of_true rfl trivial
  | concat inner =>
      rw [asU32Chunks, number, chunksFrom_eq_iff (everywhere_concat.mp hfits).2]
      exact and_iff_right rfl

/-! ### Views -/

/-- The views of a value agree: the text has the width of the value, `as_u32_chunks` gives the
number of its digits, and so does `as_u64` up to 64 bits. -/
def Agree (checks : Bool) (v : Value) : Prop :=
  ∃ text, v.asString = some text ∧ text.length = v.width ∧
    v.asU32Chunks checks = some (digitsNumber text) ∧
    (v.width ≤ 64 → v.asU64 checks = some (digitsNumber text))

/-- The views of a value agree exactly where its integers have bits, the members of a concatenation
go through `as_u64`, and the shifts of a value that is not wide are not too far. Of a wide value,
`as_u64` panics exactly where an integer in it is wide or a shift is too far. -/
theorem views_agree_iff (checks : Bool) (v : Value) (hfits : v.Everywhere InRange) :
    (v.Agree checks ↔ v.Everywhere Sized ∧ v.MembersFit checks ∧
      (v.width ≤ 64 → v.Everywhere (Shiftable checks))) ∧
    (v.asU64 checks ≠ none ↔ v.Everywhere Narrow ∧ v.Everywhere (Shiftable checks)) := by
  refine ⟨?_, asU64_ne_none_iff hfits⟩
  have hword : v.width ≤ 64 → (v.asU64 checks = some v.number ↔
      v.Everywhere (Shiftable checks)) := by
    intro hwidth
    rw [asU64_eq_iff hfits]
    exact and_iff_right
      ((number_lt hfits).trans_le (Nat.pow_le_pow_right (by decide) hwidth))
  constructor
  · rintro ⟨text, hstring, -, hchunks, hu64⟩
    have hsized := sized_of_asString hfits hstring
    obtain ⟨text', htext'⟩ := exists_text hfits hsized
    obtain rfl := Option.some.inj (hstring.symm.trans htext'.asString)
    rw [htext'.number] at hchunks hu64
    exact ⟨hsized, (asU32Chunks_eq_iff hfits hsized).mp hchunks,
      fun hwidth => (hword hwidth).mp (hu64 hwidth)⟩
  · rintro ⟨hsized, hmembers, hshift⟩
    obtain ⟨text, htext⟩ := exists_text hfits hsized
    refine ⟨text, htext.asString, htext.length, ?_, ?_⟩
    · rw [htext.number]
      exact (asU32Chunks_eq_iff hfits hsized).mpr hmembers
    · intro hwidth
      rw [htext.number]
      exact (hword hwidth).mpr (hshift hwidth)

/-- A concatenation with a negative and an undefined member. -/
def mixed : Value :=
  .concat [.int 8 (-1), .bit true, .undef 7, .uint 8 3, .bit true]

theorem views_agree_mixed : mixed.Agree true ∧ mixed.asU64 true ≠ none := by
  have hfits : mixed.Everywhere InRange := by
    simp [mixed, Everywhere, EverywhereIn, InRange]
  have hshift : mixed.Everywhere (Shiftable true) := by
    simp [mixed, Everywhere, EverywhereIn, Shiftable, width]
  obtain ⟨hagree, hu64⟩ := views_agree_iff true mixed hfits
  refine ⟨hagree.mpr ⟨?_, ?_, fun _ => hshift⟩, hu64.mpr ⟨?_, hshift⟩⟩
  · simp [mixed, Everywhere, EverywhereIn, Sized]
  · simp [mixed, MembersFit, Everywhere, Shiftable, width, number]
  · simp [mixed, Everywhere, EverywhereIn, Narrow, number]

/-- A concatenation with a member of 65 bits. -/
def wide : Value := .concat [.uint 65 (2 ^ 64)]

theorem views_of_wide_disagree :
    wide.Everywhere InRange ∧ ¬ wide.Agree true ∧ ¬ wide.Agree false := by
  have hchunks : ∀ checks, wide.asU32Chunks checks = none := by
    intro checks
    cases checks <;> rfl
  refine ⟨by simp [wide, Everywhere, EverywhereIn, InRange], ?_, ?_⟩
  all_goals
    rintro ⟨text, -, -, h, -⟩
    rw [hchunks] at h
    exact absurd h (by simp)

end Value

end Spade.Mir

import Mathlib.Analysis.SpecialFunctions.Log.Base
import Mathlib.Data.Int.Log
import Mathlib.Data.Nat.Size
import Mathlib.Data.Real.Basic
import Mathlib.Algebra.Order.Floor.Ring
import Mathlib.Algebra.Order.Archimedean.Real.Basic
import Mathlib.Algebra.Order.Round

/-!
# Rounding to significant bits

Real numbers rounded to the nearest number with `p` significant bits, ties to the even one, as
floating point formats with an unbounded range of exponents do.

* **Integers** (`roundEven_lt_iff`): a tie below an even number goes up.
* **Bounds** (`le_roundBits`, `two_zpow_le_roundBits`): small integers and powers of two stay below
  what they were below.
* **Thresholds** (`roundBits_lt_iff`): a number below an integer is rounded to the integer exactly
  from half a unit of its last bit on.
* **Doubles** (`F64`): 53 significant bits, with infinities and a value that is no number.
-/

namespace Spade.Lib

/-- The nearest integer; ties go to the even one. -/
noncomputable def roundEven (y : ℝ) : ℤ :=
  if Int.fract y < 1 / 2 then ⌊y⌋
  else if 1 / 2 < Int.fract y then ⌊y⌋ + 1
  else if Even ⌊y⌋ then ⌊y⌋ else ⌊y⌋ + 1

/-- The unit of the last of `p` bits of a number. -/
noncomputable def lastBit (p : ℕ) (x : ℝ) : ℝ := 2 ^ (Int.log 2 |x| + 1 - p)

/-- The nearest number with `p` significant bits. -/
noncomputable def roundBits (p : ℕ) (x : ℝ) : ℝ := roundEven (x / lastBit p x) * lastBit p x

/-! ### Integers -/

theorem floor_le_roundEven (y : ℝ) : ⌊y⌋ ≤ roundEven y := by
  unfold roundEven
  split_ifs <;> omega

theorem roundEven_le_floor_add_one (y : ℝ) : roundEven y ≤ ⌊y⌋ + 1 := by
  unfold roundEven
  split_ifs <;> omega

theorem le_roundEven {m : ℤ} {y : ℝ} (h : (m : ℝ) ≤ y) : m ≤ roundEven y :=
  (Int.le_floor.mpr h).trans (floor_le_roundEven y)

theorem roundEven_intCast (m : ℤ) : roundEven m = m := by
  unfold roundEven
  rw [Int.fract_intCast, Int.floor_intCast, if_pos (by norm_num)]

/-- Below an even number, a tie goes up to it. -/
theorem roundEven_lt_iff {m : ℤ} (hm : Even m) {y : ℝ} :
    roundEven y < m ↔ y < m - 1 / 2 := by
  have hy : y = ⌊y⌋ + Int.fract y := (Int.floor_add_fract y).symm
  have hf := Int.fract_nonneg y
  have hf' := Int.fract_lt_one y
  constructor
  · intro h
    by_contra hge
    rw [not_lt] at hge
    have hfloor : m - 1 ≤ ⌊y⌋ := by
      apply Int.le_floor.mpr
      push_cast
      linarith
    have hle := floor_le_roundEven y
    have heq : ⌊y⌋ = m - 1 := by omega
    have hcast : (⌊y⌋ : ℝ) = m - 1 := by
      rw [heq]
      push_cast
      ring
    have hodd : ¬ Even ⌊y⌋ := by
      rw [heq, Int.even_sub_one]
      exact not_not.mpr hm
    unfold roundEven at h
    rw [if_neg (by linarith), if_neg hodd] at h
    split_ifs at h <;> omega
  · intro h
    have hfloor : ⌊y⌋ < m := by
      apply Int.floor_lt.mpr
      linarith
    rcases (Int.le_sub_one_of_lt hfloor).lt_or_eq with hlt | heq
    · have := roundEven_le_floor_add_one y
      omega
    · have hcast : (⌊y⌋ : ℝ) = m - 1 := by
        rw [heq]
        push_cast
        ring
      unfold roundEven
      rw [if_pos (by linarith)]
      exact hfloor

/-! ### Bounds -/

theorem lastBit_pos (p : ℕ) (x : ℝ) : 0 < lastBit p x := by
  unfold lastBit
  exact zpow_pos two_pos _

/-- A multiple of the last bit stays below a number that is rounded. -/
theorem mul_le_roundBits {p : ℕ} {m : ℤ} {x : ℝ} (h : m * lastBit p x ≤ x) :
    m * lastBit p x ≤ roundBits p x := by
  have hpos := lastBit_pos p x
  unfold roundBits
  apply mul_le_mul_of_nonneg_right _ hpos.le
  exact_mod_cast le_roundEven ((le_div_iff₀ hpos).mpr h)

theorem roundBits_zero (p : ℕ) : roundBits p 0 = 0 := by
  unfold roundBits
  rw [zero_div]
  have h : roundEven 0 = 0 := by exact_mod_cast roundEven_intCast 0
  rw [h, Int.cast_zero, zero_mul]

theorem roundBits_nonneg {p : ℕ} {x : ℝ} (h : 0 ≤ x) : 0 ≤ roundBits p x := by
  have := mul_le_roundBits (p := p) (m := 0) (x := x) (by rwa [Int.cast_zero, zero_mul])
  rwa [Int.cast_zero, zero_mul] at this

/-- A power of two stays below what it was below. -/
theorem two_zpow_le_roundBits {p : ℕ} (hp : 1 ≤ p) {j : ℤ} {x : ℝ} (h : (2 : ℝ) ^ j ≤ x) :
    (2 : ℝ) ^ j ≤ roundBits p x := by
  have hx : 0 < x := (zpow_pos two_pos j).trans_le h
  have hj : j ≤ Int.log 2 x := (Int.zpow_le_iff_le_log (by norm_num) hx).mp (by exact_mod_cast h)
  have hlog : (2 : ℝ) ^ Int.log 2 x ≤ x := by
    exact_mod_cast Int.zpow_log_le_self (R := ℝ) (by norm_num : 1 < 2) hx
  have hmul : ((2 ^ (p - 1) : ℤ) : ℝ) * lastBit p x = 2 ^ Int.log 2 x := by
    unfold lastBit
    rw [abs_of_pos hx]
    push_cast
    rw [← zpow_natCast, ← zpow_add₀ two_ne_zero]
    congr 1
    omega
  calc (2 : ℝ) ^ j ≤ 2 ^ Int.log 2 x := zpow_le_zpow_right₀ one_le_two hj
    _ = ((2 ^ (p - 1) : ℤ) : ℝ) * lastBit p x := hmul.symm
    _ ≤ roundBits p x := mul_le_roundBits (hmul.trans_le hlog)

/-- An integer of at most `p` bits in units of the last bit of a number of its magnitude. -/
theorem natCast_eq_mul_lastBit {p k : ℕ} (hk : Nat.log 2 k < p) {x : ℝ}
    (hx : Int.log 2 |x| = Nat.log 2 k) :
    (k : ℝ) = ((k * 2 ^ (p - 1 - Nat.log 2 k) : ℕ) : ℤ) * lastBit p x := by
  unfold lastBit
  rw [hx]
  push_cast
  rw [mul_assoc, ← zpow_natCast, ← zpow_add₀ two_ne_zero]
  have hzero : ((p - 1 - Nat.log 2 k : ℕ) : ℤ) + ((Nat.log 2 k : ℤ) + 1 - p) = 0 := by omega
  rw [hzero, zpow_zero, mul_one]

/-- An integer of at most `p` bits is not rounded. -/
theorem roundBits_natCast {p k : ℕ} (hk : Nat.log 2 k < p) : roundBits p k = k := by
  have hunits := natCast_eq_mul_lastBit hk (x := k) (by rw [Nat.abs_cast, Int.log_natCast])
  have hdiv := (div_eq_iff (lastBit_pos p k).ne').mpr hunits
  unfold roundBits
  rw [hdiv, roundEven_intCast, ← hunits]

/-- An integer of at most `p` bits stays below what it was below. -/
theorem natCast_le_roundBits {p k : ℕ} (hk₀ : k ≠ 0) (hk : Nat.log 2 k < p) {y : ℝ}
    (h : (k : ℝ) ≤ y) : (k : ℝ) ≤ roundBits p y := by
  have hkpos : (0 : ℝ) < k := by exact_mod_cast Nat.pos_of_ne_zero hk₀
  have hy : 0 < y := hkpos.trans_le h
  have hlog : (Nat.log 2 k : ℤ) ≤ Int.log 2 y := by
    rw [← Int.log_natCast (R := ℝ)]
    exact Int.log_mono_right hkpos h
  rcases hlog.lt_or_eq with hlt | heq
  · have hk' : (k : ℝ) ≤ 2 ^ ((Nat.log 2 k : ℤ) + 1) := by
      have := (Nat.lt_pow_succ_log_self (by norm_num : 1 < 2) k).le
      exact_mod_cast this
    have hpow : (2 : ℝ) ^ ((Nat.log 2 k : ℤ) + 1) ≤ 2 ^ Int.log 2 y :=
      zpow_le_zpow_right₀ one_le_two hlt
    have hself : (2 : ℝ) ^ Int.log 2 y ≤ y := by
      exact_mod_cast Int.zpow_log_le_self (R := ℝ) (by norm_num : 1 < 2) hy
    exact (hk'.trans hpow).trans (two_zpow_le_roundBits (by omega) hself)
  · have hunits := natCast_eq_mul_lastBit hk (x := y) (by rw [abs_of_pos hy]; exact heq.symm)
    rw [hunits] at h ⊢
    exact mul_le_roundBits h

/-! ### Thresholds -/

/-- Half of the last bit of the numbers just below an integer. -/
noncomputable def halfBelow (p k : ℕ) : ℝ := 2 ^ ((Nat.clog 2 k : ℤ) - p - 1)

theorem halfBelow_pos (p k : ℕ) : 0 < halfBelow p k := zpow_pos two_pos _

/-- The numbers from one below an integer on have the magnitude of the integers below it. -/
theorem log_eq_of_mem_Ico {k : ℕ} (hk : 2 ≤ k) {y : ℝ} (h₁ : (k : ℝ) - 1 ≤ y) (h₂ : y < k) :
    Int.log 2 |y| = Nat.clog 2 k - 1 := by
  have hk1 : ((k - 1 : ℕ) : ℝ) = k - 1 := by
    rw [Nat.cast_sub (by omega)]
    norm_num
  have hkpos : (0 : ℝ) < (k - 1 : ℕ) := by
    exact_mod_cast (by omega : 0 < k - 1)
  have hy : 0 < y := hkpos.trans_le (hk1 ▸ h₁)
  have hclog : 1 ≤ Nat.clog 2 k := Nat.clog_pos (by norm_num) hk
  rw [abs_of_pos hy]
  apply le_antisymm
  · have hup : (k : ℝ) ≤ ((2 : ℕ) : ℝ) ^ (Nat.clog 2 k : ℤ) := by
      exact_mod_cast Nat.le_pow_clog (by norm_num : 1 < 2) k
    have := (Int.lt_zpow_iff_log_lt (by norm_num : 1 < 2) hy).mp (h₂.trans_le hup)
    omega
  · have hlow : 2 ^ (Nat.clog 2 k - 1) < k := Nat.pow_pred_clog_lt_self (by norm_num) (by omega)
    apply (Int.zpow_le_iff_le_log (by norm_num) hy).mp
    refine le_trans ?_ (hk1 ▸ h₁)
    have hle : 2 ^ (Nat.clog 2 k - 1) ≤ k - 1 := by omega
    have hcast : ((Nat.clog 2 k : ℤ) - 1) = ((Nat.clog 2 k - 1 : ℕ) : ℤ) := by omega
    rw [hcast, zpow_natCast]
    exact_mod_cast hle

/-- A number just below an integer is rounded to the integer from half a unit on. -/
theorem roundBits_lt_iff {p k : ℕ} (hk : 2 ≤ k) (hp : Nat.clog 2 k < p) {y : ℝ}
    (h₁ : (k : ℝ) - 1 ≤ y) (h₂ : y < k) :
    roundBits p y < k ↔ y < k - halfBelow p k := by
  have hlog := log_eq_of_mem_Ico hk h₁ h₂
  have hpos := lastBit_pos p y
  have hunit : lastBit p y = 2 * halfBelow p k := by
    unfold lastBit halfBelow
    rw [hlog, ← zpow_one_add₀ two_ne_zero]
    congr 1
    omega
  set m : ℤ := ((k * 2 ^ (p - Nat.clog 2 k) : ℕ) : ℤ) with hm
  have hkm : (k : ℝ) = m * lastBit p y := by
    rw [hm]
    unfold lastBit
    rw [hlog]
    push_cast
    rw [mul_assoc, ← zpow_natCast, ← zpow_add₀ two_ne_zero]
    have hzero : ((p - Nat.clog 2 k : ℕ) : ℤ) + ((Nat.clog 2 k : ℤ) - 1 + 1 - p) = 0 := by omega
    rw [hzero, zpow_zero, mul_one]
  have heven : Even m := by
    rw [hm]
    have : Even (k * 2 ^ (p - Nat.clog 2 k)) :=
      (Nat.even_pow.mpr ⟨even_two, by omega⟩).mul_left k
    exact_mod_cast this
  unfold roundBits
  have hsplit : k - halfBelow p k = (m - 1 / 2) * lastBit p y := by
    rw [sub_mul, ← hkm, hunit]
    ring
  calc (roundEven (y / lastBit p y) : ℝ) * lastBit p y < k
      ↔ (roundEven (y / lastBit p y) : ℝ) * lastBit p y < m * lastBit p y := by rw [← hkm]
    _ ↔ roundEven (y / lastBit p y) < m := by rw [mul_lt_mul_iff_left₀ hpos, Int.cast_lt]
    _ ↔ y < k - halfBelow p k := by
      rw [roundEven_lt_iff heven, div_lt_iff₀ hpos, hsplit]

/-! ### Double precision -/

/-- A double precision number: one with 53 significant bits, an infinity or not a number. -/
inductive F64 where
  | nan
  | posInf
  | negInf
  | finite (x : ℝ)

namespace F64

/-- `to_f64`: the nearest number; what rounds out of the range of exponents is infinite. -/
noncomputable def ofInt (val : ℤ) : F64 :=
  if 2 ^ 1024 ≤ roundBits 53 val then posInf
  else if roundBits 53 val ≤ -2 ^ 1024 then negInf
  else finite (roundBits 53 val)

/-- `log2`, correctly rounded. -/
noncomputable def log2 : F64 → F64
  | nan => nan
  | posInf => posInf
  | negInf => nan
  | finite x =>
      if x = 0 then negInf
      else if x < 0 then nan
      else finite (roundBits 53 (Real.logb 2 x))

/-- `floor`. -/
noncomputable def floor : F64 → F64
  | finite x => finite ⌊x⌋
  | x => x

/-- `as i128`: the integer part, kept within the bounds of the type. -/
noncomputable def asI128 : F64 → ℤ
  | nan => 0
  | posInf => 2 ^ 127 - 1
  | negInf => -2 ^ 127
  | finite x => max (-2 ^ 127) (min (2 ^ 127 - 1) (if 0 ≤ x then ⌊x⌋ else ⌈x⌉))

end F64

/-- A number is not zero, its nearest double is finite, and the logarithm of that is further from
the number of digits than half of its last bit. -/
def ClearOfPower (n : ℕ) : Prop :=
  n ≠ 0 ∧ roundBits 53 n < 2 ^ 1024 ∧
    roundBits 53 n < (2 : ℝ) ^ ((n.size : ℝ) - halfBelow 53 n.size)

end Spade.Lib

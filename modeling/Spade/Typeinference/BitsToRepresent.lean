import Spade.Typeinference.TypeState
import Spade.Lib.SignificantBits

/-!
# The number of bits of an integer

`UintBitsToRepresent` of `spade-typeinference/src/constraints.rs` takes the logarithm of a number in
floating point, and `visit_index` of `expression.rs` sizes the index of an array with it.

* **Bits** (`uintBitsToRepresent_iff`): the number of binary digits comes out, and the index reaches
  every element, exactly where the rounded number stays clear of the next power of two.
* **Small numbers** (`clearOfPower_of_lt`): all numbers below `2 ^ 48` but zero do.
* **Zero** (`bits_zero`): the index of an array of one element gets a negative size.
-/

namespace Spade.Typeinference

open Lib

/-- The number of bits of `UintBitsToRepresent`; the addition of `i128` wraps around. -/
noncomputable def f64Bits (val : ℤ) : ℤ :=
  ((F64.ofInt val).log2.floor.asI128 + 1).bmod (2 ^ 128)

/-! ### Index types -/

/-- `bits_to_store`. -/
def bitsToStore (inner : ConstraintExpr) : ConstraintExpr := .uintBitsToRepresent inner

/-- The size that `visit_index` constrains the index of an array to. -/
def indexSize (arraySize : TypeVar) : ConstraintExpr :=
  bitsToStore (.sum (.var arraySize) (.sub (.integer 1)))

/-- The size of the index once the array is known to have `n` elements. -/
noncomputable def knownIndexSize (id n : ℕ) : ConstraintExpr :=
  let arraySize := .unknown id [] .uint
  ((indexSize arraySize).replace arraySize (.known (.integer n) [])).evaluate f64Bits

theorem knownIndexSize_eq (id n : ℕ) :
    knownIndexSize id n = .integer (f64Bits (n + -1)) := by
  simp [knownIndexSize, indexSize, bitsToStore, ConstraintExpr.replace, TypeVar.replace,
    TypeVar.isReplaced, ConstraintExpr.evaluate, ConstraintExpr.evaluateBinary,
    ConstraintExpr.evaluateUnary]

/-! ### Exact bits -/

theorem bits_zero : f64Bits 0 = -2 ^ 127 + 1 := by
  have h : F64.ofInt 0 = .finite 0 := by
    unfold F64.ofInt
    rw [Int.cast_zero, roundBits_zero, if_neg (by norm_num), if_neg (by norm_num)]
  unfold f64Bits
  rw [h]
  simp only [F64.log2, if_true, F64.floor, F64.asI128]
  decide

theorem bits_of_overflow {n : ℕ} (h : 2 ^ 1024 ≤ roundBits 53 n) : f64Bits n = -2 ^ 127 := by
  have h : F64.ofInt n = .posInf := by
    unfold F64.ofInt
    rw [if_pos (by exact_mod_cast h)]
  unfold f64Bits
  rw [h]
  simp only [F64.log2, F64.floor, F64.asI128]
  decide

/-- A number is rounded to no less than the power of two below it. -/
theorem two_pow_le_round {n : ℕ} (hn : n ≠ 0) :
    (2 : ℝ) ^ (n.size - 1) ≤ roundBits 53 n := by
  have hlow : 2 ^ (n.size - 1) ≤ n := by
    apply Nat.lt_size.mp
    have := Nat.size_pos.mpr (Nat.pos_of_ne_zero hn)
    omega
  have := two_zpow_le_roundBits (p := 53) (by norm_num) (j := (n.size - 1 : ℕ)) (x := n)
    (by exact_mod_cast hlow)
  exact_mod_cast this

theorem round_pos {n : ℕ} (hn : n ≠ 0) : 0 < roundBits 53 n :=
  (pow_pos two_pos _).trans_le (two_pow_le_round hn)

/-- The digits of a number that is rounded to a finite one. -/
theorem size_le_of_round_lt {n : ℕ} (hn : n ≠ 0) (h : roundBits 53 n < 2 ^ 1024) :
    n.size ≤ 1024 := by
  have hlt : (2 : ℝ) ^ (n.size - 1) < 2 ^ 1024 := (two_pow_le_round hn).trans_lt h
  have := (pow_lt_pow_iff_right₀ one_lt_two).mp hlt
  omega

theorem bits_of_finite {n : ℕ} (hn : n ≠ 0) (h : roundBits 53 n < 2 ^ 1024) :
    f64Bits n =
      (max (-2 ^ 127) (min (2 ^ 127 - 1) ⌊roundBits 53 (Real.logb 2 (roundBits 53 n))⌋) + 1).bmod
        (2 ^ 128) := by
  have hpos := round_pos hn
  have hof : F64.ofInt n = .finite (roundBits 53 n) := by
    have hneg : ¬ roundBits 53 n ≤ -2 ^ 1024 := by
      apply not_le.mpr
      apply lt_trans _ hpos
      apply neg_neg_of_pos
      positivity
    unfold F64.ofInt
    rw [Int.cast_natCast, if_neg (not_le.mpr h), if_neg hneg]
  unfold f64Bits
  rw [hof]
  simp only [F64.log2, if_neg hpos.ne', if_neg (not_lt.mpr hpos.le), F64.floor, F64.asI128,
    Int.floor_intCast, Int.ceil_intCast, ite_self]

/-- The logarithm of the rounded number is no less than the position of the first digit. -/
theorem size_pred_le_logb {n : ℕ} (hn : n ≠ 0) :
    ((n.size - 1 : ℕ) : ℝ) ≤ Real.logb 2 (roundBits 53 n) := by
  apply (Real.le_logb_iff_rpow_le one_lt_two (round_pos hn)).mpr
  rw [Real.rpow_natCast]
  exact two_pow_le_round hn

/-- Rounding the logarithm keeps it there. -/
theorem size_pred_le_log {n : ℕ} (hn : n ≠ 0) (h : roundBits 53 n < 2 ^ 1024) :
    ((n.size - 1 : ℕ) : ℝ) ≤ roundBits 53 (Real.logb 2 (roundBits 53 n)) := by
  have hlog := size_pred_le_logb hn
  rcases Nat.eq_zero_or_pos (n.size - 1) with hzero | hpos
  · rw [hzero] at hlog ⊢
    exact_mod_cast roundBits_nonneg (by exact_mod_cast hlog)
  · apply natCast_le_roundBits hpos.ne' _ hlog
    have := size_le_of_round_lt hn h
    calc Nat.log 2 (n.size - 1) ≤ Nat.log 2 1024 := Nat.log_mono_right (by omega)
      _ < 53 := by decide

/-- The rounded logarithm stays below the number of digits exactly where the condition holds. -/
theorem log_lt_size_iff {n : ℕ} (hn : n ≠ 0) (h : roundBits 53 n < 2 ^ 1024) :
    roundBits 53 (Real.logb 2 (roundBits 53 n)) < n.size ↔
      roundBits 53 n < (2 : ℝ) ^ ((n.size : ℝ) - halfBelow 53 n.size) := by
  have hsize := size_le_of_round_lt hn h
  have hlog := Real.logb_lt_iff_lt_rpow (y := n.size - halfBelow 53 n.size) one_lt_two
    (round_pos hn)
  have hhalf := halfBelow_pos 53 n.size
  rw [← hlog]
  rcases (Nat.succ_le_of_lt (Nat.size_pos.mpr (Nat.pos_of_ne_zero hn))).lt_or_eq with htwo | hone
  · have hclog : Nat.clog 2 n.size < 53 := by
      calc Nat.clog 2 n.size ≤ Nat.clog 2 1024 := Nat.clog_mono_right 2 hsize
        _ < 53 := by decide
    rcases lt_or_ge (Real.logb 2 (roundBits 53 n)) n.size with hlt | hge
    · apply roundBits_lt_iff htwo hclog _ hlt
      have hpred := size_pred_le_logb hn
      rwa [Nat.cast_sub (by omega), Nat.cast_one] at hpred
    · -- Rounding does not take it below an integer of few bits.
      have hfew : Nat.log 2 n.size < 53 := (Nat.log_le_clog 2 n.size).trans_lt hclog
      have hround := natCast_le_roundBits (by omega) hfew hge
      constructor <;> intro <;> linarith
  · -- The only number of one digit is one.
    have hn_one : n = 1 := by
      have := Nat.lt_size_self n
      rw [← hone] at this
      omega
    have hround : roundBits 53 (1 : ℕ) = (1 : ℕ) := roundBits_natCast (by norm_num)
    rw [hn_one, hround, Nat.cast_one, Real.logb_one, roundBits_zero]
    unfold halfBelow
    norm_num

/-- `size` comes out exactly where the rounded logarithm stays below it. -/
theorem bits_eq_size_iff {n : ℕ} (hn : n ≠ 0) (h : roundBits 53 n < 2 ^ 1024) :
    f64Bits n = n.size ↔ roundBits 53 (Real.logb 2 (roundBits 53 n)) < n.size := by
  have hlow := size_pred_le_log hn h
  have hsize := size_le_of_round_lt hn h
  have hsize_pos := Nat.size_pos.mpr (Nat.pos_of_ne_zero hn)
  have hfloor : (n.size : ℤ) - 1 ≤ ⌊roundBits 53 (Real.logb 2 (roundBits 53 n))⌋ := by
    apply Int.le_floor.mpr
    rw [Nat.cast_sub hsize_pos] at hlow
    exact_mod_cast hlow
  have hlt : roundBits 53 (Real.logb 2 (roundBits 53 n)) < n.size ↔
      ⌊roundBits 53 (Real.logb 2 (roundBits 53 n))⌋ < n.size := by
    rw [Int.floor_lt, Int.cast_natCast]
  rw [bits_of_finite hn h, hlt]
  generalize ⌊roundBits 53 (Real.logb 2 (roundBits 53 n))⌋ = l at hfloor ⊢
  rw [Int.bmod_def]
  constructor
  · intro heq
    by_contra hge
    omega
  · intro hlt
    omega

/-- The bits of a number are its binary digits, and the index of an array that has one element more
reaches all of them, exactly where the logarithm stays clear of the number of digits. -/
theorem uintBitsToRepresent_iff (n id : ℕ) :
    ((ConstraintExpr.uintBitsToRepresent (.integer n)).evaluate f64Bits = .integer n.size ∧
        ∃ w : ℕ, knownIndexSize id (n + 1) = .integer w ∧ ∀ i < n + 1, i < 2 ^ w) ↔
      ClearOfPower n := by
  have heval : (ConstraintExpr.uintBitsToRepresent (.integer n)).evaluate f64Bits =
      .integer (f64Bits n) := rfl
  have hindex : knownIndexSize id (n + 1) = .integer (f64Bits n) := by
    rw [knownIndexSize_eq, Nat.cast_add, Nat.cast_one, add_neg_cancel_right]
  rw [heval, hindex, ConstraintExpr.integer.injEq]
  unfold ClearOfPower
  constructor
  · rintro ⟨hbits, -⟩
    have hn : n ≠ 0 := by
      rintro rfl
      rw [Nat.cast_zero, bits_zero] at hbits
      omega
    have hfinite : roundBits 53 n < 2 ^ 1024 := by
      by_contra hge
      rw [bits_of_overflow (not_lt.mp hge)] at hbits
      omega
    exact ⟨hn, hfinite, (log_lt_size_iff hn hfinite).mp ((bits_eq_size_iff hn hfinite).mp hbits)⟩
  · rintro ⟨hn, hfinite, hclear⟩
    have hbits := (bits_eq_size_iff hn hfinite).mpr ((log_lt_size_iff hn hfinite).mpr hclear)
    refine ⟨hbits, n.size, congrArg _ hbits, ?_⟩
    intro i hi
    exact (Nat.lt_succ_iff.mp hi).trans_lt (Nat.lt_size_self n)

/-- Zero gets a negative number of bits. -/
theorem bits_of_zero_not_exact :
    (ConstraintExpr.uintBitsToRepresent (.integer 0)).evaluate f64Bits ≠
      .integer (Nat.size 0) := by
  have heval : (ConstraintExpr.uintBitsToRepresent (.integer 0)).evaluate f64Bits =
      .integer (f64Bits 0) := rfl
  rw [heval, bits_zero, ne_eq, ConstraintExpr.integer.injEq]
  decide

/-! ### Small numbers -/

/-- Half a unit below an exponent takes less than one from a power of at most 48 bits. -/
theorem two_pow_sub_one_lt {k : ℕ} (hk : k ≤ 48) :
    (2 : ℝ) ^ k - 1 < (2 : ℝ) ^ ((k : ℝ) - halfBelow 53 k) := by
  have hhalf : halfBelow 53 k ≤ 2 ^ (-48 : ℤ) := by
    have hclog : Nat.clog 2 k ≤ Nat.clog 2 48 := Nat.clog_mono_right 2 hk
    have hsix : Nat.clog 2 48 = 6 := by decide
    apply zpow_le_zpow_right₀ one_le_two
    omega
  have hpow : (2 : ℝ) ^ k ≤ 2 ^ 48 := pow_le_pow_right₀ one_le_two hk
  have hpos := halfBelow_pos 53 k
  have hlog : Real.log 2 < 1 := by
    have := Real.log_lt_sub_one_of_pos two_pos (by norm_num)
    linarith
  have hexp : 1 - halfBelow 53 k < (2 : ℝ) ^ (-halfBelow 53 k) := by
    rw [Real.rpow_def_of_pos two_pos]
    have := Real.add_one_le_exp (Real.log 2 * -halfBelow 53 k)
    nlinarith only [this, hlog, hpos]
  have hunit : (2 : ℝ) ^ k * halfBelow 53 k ≤ 1 := by
    calc (2 : ℝ) ^ k * halfBelow 53 k ≤ 2 ^ 48 * 2 ^ (-48 : ℤ) :=
          mul_le_mul hpow hhalf hpos.le (by positivity)
      _ = 1 := by norm_num
  have hk_pos : (0 : ℝ) < 2 ^ k := pow_pos two_pos k
  rw [sub_eq_add_neg (k : ℝ), Real.rpow_add two_pos, Real.rpow_natCast]
  nlinarith only [hexp, hunit, hk_pos]

/-- The numbers below `2 ^ 48` but zero are clear of the next power of two. -/
theorem clearOfPower_of_lt {n : ℕ} (hn : n ≠ 0) (h : n < 2 ^ 48) : ClearOfPower n := by
  have hlog : Nat.log 2 n < 53 := (Nat.log_lt_of_lt_pow hn h).trans (by norm_num)
  have hsize : n.size ≤ 48 := Nat.size_le.mpr h
  unfold ClearOfPower
  rw [roundBits_natCast hlog]
  refine ⟨hn, ?_, ?_⟩
  · exact_mod_cast h.trans (Nat.pow_lt_pow_right one_lt_two (by norm_num))
  · have hle : (n : ℝ) + 1 ≤ 2 ^ n.size := by exact_mod_cast Nat.lt_size_self n
    have := two_pow_sub_one_lt hsize
    linarith

end Spade.Typeinference

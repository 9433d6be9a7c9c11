import Mathlib.Algebra.Order.Round
import Mathlib.Data.Rat.Floor
import Spade.Lib.VerilogSizing

/-!
# Division by powers of two

The block emitted for `Operator::DivPow2` in `spade-mir/src/codegen/mod.rs`, on which `div_pow2` of
`ops.spade` rests: the quotient rounded to the nearest integer, halves upwards.

* **The block** (`divPow2_eq_ofInt`): the dividend and a correction are added in at least 32 bits,
  and the sum is shifted; the correction is made in 32 bits.
* **Rounding** (`divPow2_eq_round_iff`): the result is the rounded quotient unless the sum overflows
  the dividend, or half a divisor does not fit 32 signed bits where it matters.
-/

namespace Spade.Mir

open VerilogSizing

namespace DivPow2

/-! ### The block -/

/-- The operands of the binding. -/
inductive Operand where
  | dividend | divisor

/-- `if (divisor == 0) name = dividend;`
`else name = $signed($signed(dividend) + $signed(1 << (divisor - 1))) >>> $signed(divisor);` -/
def code : IfElse Operand where
  cond := .eq (.ident .divisor) (.dec 0)
  value := .ident .dividend
  otherwise :=
    .ashr
      (.signed (.add (.signed (.ident .dividend))
        (.signed (.shl (.dec 1) (.sub (.ident .divisor) (.dec 1))))))
      (.signed (.ident .divisor))

variable {N : ℕ}

/-- Operands of `N` bits. -/
def operands (x p : BitVec N) : Operand → Vector
  | .dividend => ⟨N, x⟩
  | .divisor => ⟨N, p⟩

/-- What the block assigns to a binding of `N` bits. -/
def divPow2 (x p : BitVec N) : BitVec N := code.assigned (operands x p) N

/-- The quotient rounded to the nearest integer, where halves are rounded upwards, in `N` bits. -/
def rounded (x : BitVec N) (p : ℕ) : BitVec N :=
  BitVec.ofInt N (round ((x.toInt : ℚ) / 2 ^ p))

/-- The number added to the dividend: half a divisor, made in 32 bits. -/
def correction (p : ℕ) : ℤ := (1#32 <<< (p - 1)).toInt

/-! ### What the block computes -/

section

variable {x : BitVec N} {p : ℕ}

theorem toNat_divisor (hp : p < N) : (BitVec.ofNat N p).toNat = p := by
  rw [BitVec.toNat_ofNat]
  exact Nat.mod_eq_of_lt (hp.trans Nat.lt_two_pow_self)

theorem toNat_setWidth_divisor (hp : p < N) {w : ℕ} (hw : N ≤ w) :
    ((BitVec.ofNat N p).setWidth w).toNat = p := by
  rw [BitVec.toNat_setWidth, toNat_divisor hp]
  exact Nat.mod_eq_of_lt (hp.trans_le (hw.trans Nat.lt_two_pow_self.le))

theorem cond_iff (hp : p < N) :
    (code.cond.evalSelf (operands x (BitVec.ofNat N p))).toNat ≠ 0 ↔ p = 0 := by
  have heval : (code.cond.evalSelf (operands x (BitVec.ofNat N p))).toNat =
      (BitVec.ofBool ((BitVec.ofNat N p).setWidth (max N 32) ==
        (0#32).setWidth (max N 32))).toNat := rfl
  have heq : (BitVec.ofNat N p).setWidth (max N 32) = (0#32).setWidth (max N 32) ↔ p = 0 := by
    rw [← BitVec.toNat_inj, toNat_setWidth_divisor hp (Nat.le_max_left N 32), BitVec.toNat_setWidth]
    simp
  rw [heval, ← heq]
  simp

theorem amount_eq (hp : p < N) (hpos : 0 < p) :
    ((Expr.sub (.ident .divisor) (.dec 1)).evalSelf (operands x (BitVec.ofNat N p))).toNat =
      p - 1 := by
  have heval : ((Expr.sub (.ident .divisor) (.dec 1)).evalSelf
      (operands x (BitVec.ofNat N p))).toNat =
      ((BitVec.ofNat N p).setWidth (max N 32) - (1#32).setWidth (max N 32)).toNat := rfl
  have hp' := toNat_setWidth_divisor hp (Nat.le_max_left N 32)
  have hone : ((1#32).setWidth (max N 32)).toNat = 1 :=
    BitVec.toNat_setWidth_of_le (Nat.le_max_right N 32)
  rw [heval, BitVec.toNat_sub_of_le, hp', hone]
  rw [BitVec.le_def, hp', hone]
  exact hpos

/-- The self-determined sum. -/
theorem sum_toInt (hp : p < N) (hpos : 0 < p) :
    ((Expr.add (.signed (.ident .dividend))
        (.signed (.shl (.dec 1) (.sub (.ident .divisor) (.dec 1))))).evalSelf
      (operands x (BitVec.ofNat N p))).toInt = (x.toInt + correction p).bmod (2 ^ max N 32) := by
  have heval : ((Expr.add (.signed (.ident .dividend))
        (.signed (.shl (.dec 1) (.sub (.ident .divisor) (.dec 1))))).evalSelf
      (operands x (BitVec.ofNat N p))).toInt =
      ((x.setWidth N).signExtend (max N 32) + (((1#32).signExtend 32) <<<
        ((Expr.sub (.ident .divisor) (.dec 1)).evalSelf
          (operands x (BitVec.ofNat N p))).toNat).signExtend (max N 32)).toInt := rfl
  rw [heval, amount_eq hp hpos, BitVec.toInt_add,
    BitVec.toInt_signExtend_of_le (Nat.le_max_left N 32),
    BitVec.toInt_signExtend_of_le (Nat.le_max_right N 32), BitVec.setWidth_eq, BitVec.signExtend_eq]
  rfl

theorem divPow2_zero (hN : 0 < N) : divPow2 x (BitVec.ofNat N 0) = x := by
  rw [divPow2, IfElse.assigned, if_pos ((cond_iff hN).mpr rfl)]
  have heval : code.value.assigned (operands x (BitVec.ofNat N 0)) N =
      (x.setWidth (max N N)).setWidth N := rfl
  rw [heval, BitVec.setWidth_setWidth_of_le _ (Nat.le_max_left N N), BitVec.setWidth_eq]

/-- **The block.** -/
theorem divPow2_eq_ofInt (hp : p < N) (hpos : 0 < p) :
    divPow2 x (BitVec.ofNat N p) =
      BitVec.ofInt N ((x.toInt + correction p).bmod (2 ^ max N 32) / 2 ^ p) := by
  have hcond : ¬(code.cond.evalSelf (operands x (BitVec.ofNat N p))).toNat ≠ 0 :=
    fun h => absurd ((cond_iff hp).mp h) hpos.ne'
  rw [divPow2, IfElse.assigned, if_neg hcond, assigned_eq_ofInt]
  congr 1
  let width := max N (max N 32)
  have heval : (code.otherwise.eval (operands x (BitVec.ofNat N p))
        (max N (code.otherwise.selfWidth (operands x (BitVec.ofNat N p))))
        code.otherwise.isSigned).toInt =
      (((Expr.add (.signed (.ident .dividend))
        (.signed (.shl (.dec 1) (.sub (.ident .divisor) (.dec 1))))).evalSelf
      (operands x (BitVec.ofNat N p))).signExtend width |>.sshiftRight
        (((BitVec.ofNat N p).setWidth N).signExtend N).toNat).toInt := rfl
  rw [heval, BitVec.toInt_sshiftRight, BitVec.toInt_signExtend_of_le, sum_toInt hp hpos,
    BitVec.signExtend_eq, BitVec.setWidth_eq, toNat_divisor hp, Int.shiftRight_eq_div_pow]
  · rfl
  · exact Nat.le_max_right _ _

end

/-! ### Rounding -/

theorem round_div_two_pow (a : ℤ) {p : ℕ} (hpos : 0 < p) :
    round ((a : ℚ) / 2 ^ p) = (a + 2 ^ (p - 1)) / 2 ^ p := by
  have hpow : (2 : ℚ) ^ p = 2 * 2 ^ (p - 1) := by
    rw [← pow_succ', Nat.sub_add_cancel hpos]
  have hsum : (a : ℚ) / 2 ^ p + 1 / 2 = ((a + 2 ^ (p - 1) : ℤ) : ℚ) / ((2 ^ p : ℕ) : ℚ) := by
    push_cast
    rw [add_div, hpow]
    congr 1
    field_simp
  rw [round_eq, hsum, Rat.floor_intCast_div_natCast]
  push_cast
  rfl

theorem correction_of_lt {p : ℕ} (hp : p < 32) : correction p = 2 ^ (p - 1) := by
  have htwo : correction p = (BitVec.twoPow 32 (p - 1)).toInt := rfl
  rw [htwo, BitVec.toInt_twoPow, if_neg (by omega), if_neg (by omega)]

theorem correction_of_eq : correction 32 = -2 ^ 31 := by decide

theorem correction_of_gt {p : ℕ} (hp : 32 < p) : correction p = 0 := by
  have htwo : correction p = (BitVec.twoPow 32 (p - 1)).toInt := rfl
  rw [htwo, BitVec.toInt_twoPow, if_pos (by omega)]

/-- A number in the range of a width is not changed in it. -/
theorem bmod_two_pow_eq_self {w : ℕ} {y : ℤ} (hlo : -(2 ^ w) ≤ 2 * y) (hhi : 2 * y < 2 ^ w) :
    y.bmod (2 ^ w) = y := by
  refine Int.bmod_eq_of_le_mul_two ?_ ?_
  · push_cast
    linarith
  · push_cast
    linarith

/-- Different numbers that are closer than the modulus are different words. -/
theorem ofInt_ne {a b : ℤ} (hne : a - b ≠ 0) (hlt : |a - b| < 2 ^ N) :
    BitVec.ofInt N a ≠ BitVec.ofInt N b := by
  rw [Ne, ofInt_eq_ofInt_iff]
  exact fun hdvd => hne (Int.eq_zero_of_abs_lt_dvd hdvd hlt)

/-- When the block rounds right: the sum does not overflow when it is made in the width of the
dividend, and half a divisor is not lost if it matters. -/
def RoundsRight (N : ℕ) (x : ℤ) (p : ℕ) : Prop :=
  p = 0 ∨ N < 32 ∨ (p < 32 ∧ x + 2 ^ (p - 1) < 2 ^ (N - 1)) ∨ (32 < p ∧ x % 2 ^ p < 2 ^ (p - 1))

section

variable {x : BitVec N} {p : ℕ}

/-- A divisor is a proper part of the range of its dividend. -/
theorem exists_two_pow_eq_mul (hp : p < N) (hpos : 0 < p) :
    ∃ k : ℤ, (2 : ℤ) ^ N = k * 2 ^ p ∧ 2 ≤ k ∧ k < 2 ^ N := by
  refine ⟨2 ^ (N - p), ?_, ?_, ?_⟩
  · rw [← pow_add, Nat.sub_add_cancel hp.le]
  · exact le_self_pow₀ one_le_two (by omega)
  · exact pow_lt_pow_right₀ one_lt_two (by omega)

theorem two_pow_eq_two_mul {n : ℕ} (hn : 0 < n) : (2 : ℤ) ^ n = 2 * 2 ^ (n - 1) := by
  rw [← pow_succ', Nat.sub_add_cancel hn]

/-- Below 32 bits the sum is made in 32 bits and fits. -/
theorem sum_of_narrow (hp : p < N) (hpos : 0 < p) (hN : N < 32) :
    (x.toInt + correction p).bmod (2 ^ max N 32) = x.toInt + 2 ^ (p - 1) := by
  have hlo := BitVec.le_two_mul_toInt (x := x)
  have hhi := BitVec.two_mul_toInt_lt (x := x)
  have hpN : (2 : ℤ) ^ p ≤ 2 ^ N := pow_le_pow_right₀ one_le_two hp.le
  have hN31 : (2 : ℤ) ^ N ≤ 2 ^ 31 := pow_le_pow_right₀ one_le_two (by omega)
  have hpospow : (0 : ℤ) < 2 ^ (p - 1) := by positivity
  have hhalf := two_pow_eq_two_mul hpos
  rw [correction_of_lt (hp.trans hN), Nat.max_eq_right hN.le]
  exact bmod_two_pow_eq_self (by linarith) (by linarith)

/-- From 32 bits on the sum is made in the width of the dividend, where it may overflow. -/
theorem sum_of_wide (hp : p < N) (hpos : 0 < p) (hp32 : p < 32) (hN : 32 ≤ N) :
    (x.toInt + correction p).bmod (2 ^ max N 32) =
      if x.toInt + 2 ^ (p - 1) < 2 ^ (N - 1) then x.toInt + 2 ^ (p - 1)
      else x.toInt + 2 ^ (p - 1) - 2 ^ N := by
  have hlo := BitVec.le_two_mul_toInt (x := x)
  have hhi := BitVec.two_mul_toInt_lt (x := x)
  have hpN : (2 : ℤ) ^ p ≤ 2 ^ N := pow_le_pow_right₀ one_le_two hp.le
  have hpospow : (0 : ℤ) < 2 ^ (p - 1) := by positivity
  have hhalf := two_pow_eq_two_mul hpos
  have hhalfN := two_pow_eq_two_mul (n := N) (by omega)
  rw [correction_of_lt hp32, Nat.max_eq_left hN]
  split_ifs with hfit
  · exact bmod_two_pow_eq_self (by linarith) (by linarith)
  · rw [← Int.sub_bmod_right, Nat.cast_pow]
    exact bmod_two_pow_eq_self (by push_cast; linarith) (by push_cast; linarith)

/-- Half of `2 ^ 32` is negative in 32 bits. -/
theorem sum_of_eq (hN : 32 < N) :
    (x.toInt + correction 32).bmod (2 ^ max N 32) =
      if -2 ^ (N - 1) ≤ x.toInt - 2 ^ 31 then x.toInt - 2 ^ 31 else x.toInt - 2 ^ 31 + 2 ^ N := by
  have hlo := BitVec.le_two_mul_toInt (x := x)
  have hhi := BitVec.two_mul_toInt_lt (x := x)
  have hpN : (2 : ℤ) ^ 33 ≤ 2 ^ N := pow_le_pow_right₀ one_le_two hN
  have hhalfN := two_pow_eq_two_mul (n := N) (by omega)
  rw [correction_of_eq, Nat.max_eq_left hN.le]
  split_ifs with hfit
  · exact bmod_two_pow_eq_self (by linarith) (by linarith)
  · rw [← Int.add_bmod_right, Nat.cast_pow]
    exact bmod_two_pow_eq_self (by push_cast; linarith) (by push_cast; linarith)

/-- Halves of larger divisors are lost. -/
theorem sum_of_gt (hp : p < N) (hp32 : 32 < p) :
    (x.toInt + correction p).bmod (2 ^ max N 32) = x.toInt := by
  rw [correction_of_gt hp32, add_zero, Nat.max_eq_left (hp32.trans hp).le]
  exact bmod_two_pow_eq_self BitVec.le_two_mul_toInt BitVec.two_mul_toInt_lt

/-- Adding half a divisor changes the quotient when the remainder is at least as large. -/
theorem add_half_ediv (a : ℤ) (hpos : 0 < p) :
    (a + 2 ^ (p - 1)) / 2 ^ p = if a % 2 ^ p < 2 ^ (p - 1) then a / 2 ^ p else a / 2 ^ p + 1 := by
  have hhalf := two_pow_eq_two_mul hpos
  have hpospow : (0 : ℤ) < 2 ^ p := by positivity
  have hdiv := Int.mul_ediv_add_emod a (2 ^ p)
  have hmod := Int.emod_nonneg a hpospow.ne'
  have hlt := Int.emod_lt_of_pos a hpospow
  split_ifs with h
  · exact ((Int.ediv_emod_unique (r := a % 2 ^ p + 2 ^ (p - 1)) hpospow).mpr
      ⟨by linarith, by linarith, by linarith⟩).1
  · exact ((Int.ediv_emod_unique (r := a % 2 ^ p - 2 ^ (p - 1)) hpospow).mpr
      ⟨by linarith, by linarith, by linarith⟩).1

/-- A quotient that is off by a proper part of the range is another word. -/
theorem ofInt_ediv_ne {a b k : ℤ} (hab : b = a + k * 2 ^ p) (hne : k ≠ 0) (hlt : |k| < 2 ^ N) :
    BitVec.ofInt N (a / 2 ^ p) ≠ BitVec.ofInt N (b / 2 ^ p) := by
  have hpospow : (0 : ℤ) < 2 ^ p := by positivity
  have hdiff : a / 2 ^ p - b / 2 ^ p = -k := by
    rw [hab, Int.add_mul_ediv_right _ _ hpospow.ne']
    ring
  exact ofInt_ne (by rwa [hdiff, neg_ne_zero]) (by rwa [hdiff, abs_neg])

theorem not_roundsRight_of_eq {y : ℤ} (hN : 32 < N) : ¬RoundsRight N y 32 := by
  rintro (h | h | ⟨h, _⟩ | ⟨h, _⟩) <;> omega

/-- **Rounding.** -/
theorem divPow2_eq_round_iff (hp : p < N) :
    divPow2 x (BitVec.ofNat N p) = rounded x p ↔ RoundsRight N x.toInt p := by
  rcases Nat.eq_zero_or_pos p with rfl | hpos
  · rw [divPow2_zero hp, rounded]
    simp [RoundsRight]
  obtain ⟨k, hk, htwo, hlt⟩ := exists_two_pow_eq_mul hp hpos
  rw [divPow2_eq_ofInt hp hpos, rounded, round_div_two_pow _ hpos]
  rcases Nat.lt_or_ge N 32 with hN | hN
  · rw [sum_of_narrow hp hpos hN]
    exact iff_of_true rfl (.inr (.inl hN))
  rcases Nat.lt_trichotomy p 32 with hp32 | rfl | hp32
  · rw [sum_of_wide hp hpos hp32 hN]
    split_ifs with hfit
    · exact iff_of_true rfl (.inr (.inr (.inl ⟨hp32, hfit⟩)))
    · refine iff_of_false (ofInt_ediv_ne (k := k) (by rw [hk]; ring) (by omega) ?_) ?_
      · rwa [abs_of_nonneg (by omega)]
      · rintro (h | h | ⟨_, h⟩ | ⟨h, _⟩)
        all_goals omega
  · rw [sum_of_eq hp]
    refine iff_of_false ?_ (not_roundsRight_of_eq hp)
    split_ifs with hfit
    · refine ofInt_ediv_ne (k := 1) (by norm_num; ring) one_ne_zero ?_
      rw [abs_one]
      exact one_lt_pow₀ one_lt_two (by omega)
    · refine ofInt_ediv_ne (k := 1 - k) (by rw [hk]; norm_num; ring) (by omega) ?_
      rw [abs_of_nonpos (by omega)]
      omega
  · rw [sum_of_gt hp hp32, add_half_ediv _ hpos]
    split_ifs with hrem
    · exact iff_of_true rfl (.inr (.inr (.inr ⟨hp32, hrem⟩)))
    · refine iff_of_false (ofInt_ne ?_ ?_) ?_
      · rw [sub_add_cancel_left]
        exact neg_ne_zero.mpr one_ne_zero
      · rw [sub_add_cancel_left, abs_neg, abs_one]
        exact one_lt_pow₀ one_lt_two (by omega)
      · rintro (h | h | ⟨h, _⟩ | ⟨_, h⟩)
        all_goals omega

end

/-- `1 / 2` in two bits is one. -/
theorem divPow2_two_bits : divPow2 1#2 (BitVec.ofNat 2 1) = rounded 1#2 1 :=
  (divPow2_eq_round_iff (by decide)).mpr (.inr (.inl (by decide)))

/-- In 32 bits the largest number divided by two overflows to a negative result. -/
theorem divPow2_largest :
    divPow2 (BitVec.ofNat 32 (2 ^ 31 - 1)) (BitVec.ofNat 32 1) ≠
      rounded (BitVec.ofNat 32 (2 ^ 31 - 1)) 1 := by
  have hresult : divPow2 (BitVec.ofNat 32 (2 ^ 31 - 1)) (BitVec.ofNat 32 1) =
      BitVec.ofInt 32 (-2 ^ 30) := by decide
  have hrounded : rounded (BitVec.ofNat 32 (2 ^ 31 - 1)) 1 = BitVec.ofInt 32 (2 ^ 30) := by
    rw [rounded, round_div_two_pow _ Nat.one_pos]
    rfl
  rw [hresult, hrounded]
  decide

end DivPow2

end Spade.Mir

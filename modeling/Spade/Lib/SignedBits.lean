import Mathlib.Data.Int.ModEq
import Spade.Lib.BitString

/-!
# Signed bit strings

Two's complement numbers as bit strings, and the sums and differences that a hardware description
language computes on them: the operands are extended to the width of the context, which is the
widest of the operands and the target, and the result is cut to the target.

* **Arithmetic** (`signedAdd_eq`, `signedSub_eq`, `negate_eq`): the result in the width of the
  target is the number computed without bounds, modulo the power of two of the width.
* **Range** (`toInt_ofInt`): a number in the range of a width is read back from its bits.
-/

namespace BitString

/-- The `w` low bits of `v` in two's complement. -/
def ofInt (w : ℕ) (v : ℤ) : BitString := ofNat w (v % 2 ^ w).toNat

/-- The number a bit string denotes in two's complement. -/
def toInt : BitString → ℤ
  | [] => 0
  | b :: bs => toNat (b :: bs) - if b then 2 ^ (bs.length + 1) else 0

/-- `xs` at width `w`, filled up with the most significant bit. -/
def signExtend (w : ℕ) (xs : BitString) : BitString :=
  List.replicate (w - xs.length) (xs.headD false) ++ xs

/-- `$signed(a) + $signed(b)` assigned to a target of width `w`. -/
def signedAdd (w : ℕ) (a b : BitString) : BitString :=
  let width := max w (max a.length b.length)
  resize w (ofNat width ((signExtend width a).toNat + (signExtend width b).toNat))

/-- `$signed(a) - $signed(b)` assigned to a target of width `w`. -/
def signedSub (w : ℕ) (a b : BitString) : BitString :=
  let width := max w (max a.length b.length)
  resize w (ofNat width ((signExtend width a).toNat + (2 ^ width - (signExtend width b).toNat)))

/-- `a + b` assigned to a target of width `w`. -/
def unsignedAdd (w : ℕ) (a b : BitString) : BitString :=
  let width := max w (max a.length b.length)
  resize w (ofNat width (a.toNat + b.toNat))

/-- `a - b` assigned to a target of width `w`. -/
def unsignedSub (w : ℕ) (a b : BitString) : BitString :=
  let width := max w (max a.length b.length)
  resize w (ofNat width (a.toNat + (2 ^ width - b.toNat)))

/-- `-a` assigned to a target of width `w`. -/
def negate (w : ℕ) (a : BitString) : BitString :=
  let width := max w a.length
  resize w (ofNat width (2 ^ width - a.toNat))

/-! ### Widths -/

@[simp] theorem length_ofInt (w : ℕ) (v : ℤ) : (ofInt w v).length = w := length_ofNat _ _

theorem toNat_append (xs ys : BitString) :
    toNat (xs ++ ys) = toNat xs * 2 ^ ys.length + toNat ys := by
  induction xs with
  | nil => simp [toNat]
  | cons b xs ih =>
      rw [List.cons_append, toNat, ih, toNat, List.length_append]
      split_ifs <;> ring

theorem toNat_replicate_false (n : ℕ) : toNat (List.replicate n false) = 0 := by
  induction n with
  | zero => rfl
  | succ n ih => simp [List.replicate_succ, toNat, ih]

theorem toNat_replicate_true (n : ℕ) : toNat (List.replicate n true) + 1 = 2 ^ n := by
  induction n with
  | zero => rfl
  | succ n ih =>
      rw [List.replicate_succ, toNat, if_pos rfl, List.length_replicate, Nat.add_assoc, ih, pow_succ]
      omega

theorem toNat_resize (w : ℕ) (xs : BitString) : toNat (resize w xs) = toNat xs % 2 ^ w := by
  rw [resize, toNat_append, toNat_replicate_false, Nat.zero_mul, Nat.zero_add]
  have hsplit := toNat_append (xs.take (xs.length - w)) (xs.drop (xs.length - w))
  rw [List.take_append_drop] at hsplit
  have hlt := toNat_lt (xs.drop (xs.length - w))
  rw [List.length_drop] at hlt hsplit
  by_cases h : w ≤ xs.length
  · rw [Nat.sub_sub_self h] at hlt hsplit
    rw [hsplit, Nat.mul_add_mod_self_right, Nat.mod_eq_of_lt hlt]
  · have hlt' := toNat_lt xs
    rw [Nat.sub_eq_zero_of_le (by omega), List.drop_zero, Nat.mod_eq_of_lt]
    exact hlt'.trans_le (Nat.pow_le_pow_right (by decide) (by omega))

theorem resize_ofNat {w width : ℕ} (h : w ≤ width) (v : ℕ) :
    resize w (ofNat width v) = ofNat w v := by
  refine toNat_injective (by simp) ?_
  rw [toNat_resize, toNat_ofNat, toNat_ofNat, Nat.mod_mod_of_dvd _ (pow_dvd_pow 2 h)]

theorem ofInt_natCast (w v : ℕ) : ofInt w v = ofNat w v := by
  refine toNat_injective (by simp) ?_
  have hcast : ((v : ℤ) % 2 ^ w) = ((v % 2 ^ w : ℕ) : ℤ) := by push_cast; rfl
  rw [ofInt, hcast, Int.toNat_natCast, toNat_ofNat, toNat_ofNat, Nat.mod_mod]

theorem ofInt_congr {w : ℕ} {u v : ℤ} (h : u ≡ v [ZMOD 2 ^ w]) : ofInt w u = ofInt w v := by
  rw [ofInt, ofInt, show u % 2 ^ w = v % 2 ^ w from h]

/-- Cutting a number to the target only depends on the number modulo the width of the context. -/
theorem resize_ofNat_eq {w width v : ℕ} {u : ℤ} (h : w ≤ width)
    (hv : (v : ℤ) ≡ u [ZMOD 2 ^ width]) : resize w (ofNat width v) = ofInt w u := by
  rw [resize_ofNat h, ← ofInt_natCast]
  exact ofInt_congr (hv.of_dvd (pow_dvd_pow 2 h))

/-! ### Arithmetic -/

theorem toNat_modEq_toInt (xs : BitString) : (toNat xs : ℤ) ≡ toInt xs [ZMOD 2 ^ xs.length] := by
  cases xs with
  | nil => rfl
  | cons b bs =>
      rw [toInt, List.length_cons]
      cases b with
      | false => simp
      | true => exact (Int.modEq_iff_dvd.mpr (by simp))

theorem signExtend_modEq {w : ℕ} {xs : BitString} (h : xs.length ≤ w) :
    (toNat (signExtend w xs) : ℤ) ≡ toInt xs [ZMOD 2 ^ w] := by
  cases xs with
  | nil => simp [signExtend, toNat_replicate_false, toInt]
  | cons b bs =>
      rw [signExtend, List.headD_cons, toNat_append, toInt]
      cases b with
      | false => simp [toNat_replicate_false]
      | true =>
          have hones := toNat_replicate_true (w - (bs.length + 1))
          have hpow : (2 : ℤ) ^ w = 2 ^ (w - (bs.length + 1)) * 2 ^ (bs.length + 1) := by
            rw [← pow_add, Nat.sub_add_cancel (by simpa using h)]
          have hones' : (toNat (List.replicate (w - (bs.length + 1)) true) : ℤ) =
              2 ^ (w - (bs.length + 1)) - 1 := by
            rw [← Int.add_left_inj, sub_add_cancel]
            exact_mod_cast hones
          rw [List.length_cons, if_pos rfl]
          refine (Int.modEq_iff_dvd.mpr ⟨-1, ?_⟩)
          push_cast
          rw [hones', hpow]
          ring

theorem le_context (w m n : ℕ) : w ≤ max w (max m n) ∧ m ≤ max w (max m n) ∧
    n ≤ max w (max m n) :=
  ⟨le_max_left _ _, (le_max_left _ _).trans (le_max_right _ _),
    (le_max_right _ _).trans (le_max_right _ _)⟩

theorem signedAdd_eq (w : ℕ) (a b : BitString) :
    signedAdd w a b = ofInt w (a.toInt + b.toInt) := by
  obtain ⟨hw, ha, hb⟩ := le_context w a.length b.length
  refine resize_ofNat_eq hw ?_
  push_cast
  exact (signExtend_modEq ha).add (signExtend_modEq hb)

theorem cast_two_pow_sub {w v : ℕ} (h : v ≤ 2 ^ w) :
    ((2 ^ w - v : ℕ) : ℤ) ≡ -v [ZMOD 2 ^ w] := by
  rw [Nat.cast_sub h]
  exact Int.modEq_iff_dvd.mpr ⟨-1, by push_cast; ring⟩

theorem signedSub_eq (w : ℕ) (a b : BitString) :
    signedSub w a b = ofInt w (a.toInt - b.toInt) := by
  obtain ⟨hw, ha, hb⟩ := le_context w a.length b.length
  refine resize_ofNat_eq hw ?_
  have hlt := toNat_lt (signExtend (max w (max a.length b.length)) b)
  rw [signExtend, List.length_append, List.length_replicate, Nat.sub_add_cancel hb,
    ← signExtend] at hlt
  rw [Nat.cast_add, sub_eq_add_neg]
  exact (signExtend_modEq ha).add ((cast_two_pow_sub hlt.le).trans (signExtend_modEq hb).neg)

/-- The operand of a unary minus is not sign-extended, which is visible in a wider target only. -/
theorem negate_eq (a : BitString) : negate a.length a = ofInt a.length (-a.toInt) := by
  refine resize_ofNat_eq (le_max_left _ _) ?_
  rw [max_self]
  exact (cast_two_pow_sub (toNat_lt a).le).trans (toNat_modEq_toInt a).neg

/-! ### Range -/

theorem toInt_ofInt {w : ℕ} {v : ℤ} (hw : 0 < w) (hlow : -2 ^ (w - 1) ≤ v)
    (hhigh : v < 2 ^ (w - 1)) : toInt (ofInt w v) = v := by
  obtain ⟨k, rfl⟩ : ∃ k, w = k + 1 := ⟨w - 1, by omega⟩
  rw [Nat.add_sub_cancel] at hlow hhigh
  have hpow : (2 : ℤ) ^ (k + 1) = 2 * 2 ^ k := by ring
  have hcast : ((2 ^ k : ℕ) : ℤ) = 2 ^ k := by push_cast; rfl
  have hlt : (v % 2 ^ (k + 1)).toNat < 2 ^ (k + 1) := by
    have := Int.emod_lt_of_pos v (show (0 : ℤ) < 2 ^ (k + 1) from Int.pow_pos (by decide))
    have hcast' : ((2 ^ (k + 1) : ℕ) : ℤ) = 2 ^ (k + 1) := by push_cast; rfl
    omega
  have hvalue := toNat_ofNat_of_lt hlt
  rw [ofInt]
  rw [ofNat] at hvalue ⊢
  rw [toInt, hvalue, length_ofNat]
  by_cases hneg : v < 0
  · have hmod : (v % 2 ^ (k + 1)).toNat = (v + 2 ^ (k + 1)).toNat := by
      rw [← Int.add_emod_right, Int.emod_eq_of_lt (by omega) (by omega)]
    have hbit : (v % 2 ^ (k + 1)).toNat / 2 ^ k % 2 = 1 := by
      rw [hmod, Nat.div_eq_of_lt_le (k := 1)] <;> omega
    rw [hbit, hmod]
    simp only [decide_true, if_true]
    omega
  · have hmod : (v % 2 ^ (k + 1)).toNat = v.toNat := by
      rw [Int.emod_eq_of_lt (by omega) (by omega)]
    have hbit : (v % 2 ^ (k + 1)).toNat / 2 ^ k = 0 := by
      rw [hmod]
      exact Nat.div_eq_of_lt (by omega)
    rw [hbit, hmod]
    simp
    omega

end BitString

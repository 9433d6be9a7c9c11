import Mathlib.Data.Int.Bitwise
import Mathlib.Data.Nat.Bitwise
import Mathlib.Tactic.NormNum
import Mathlib.Tactic.Linarith

/-!
# Two's complement without bounds

The integers as bit strings that continue with their sign for ever, and the bitwise operations on
those that a number of bits is enough for.

* **Bits besides the sign** (`fits_iff`): a number fits in `k` bits and a sign when the natural
  number under its constructor is less than `2 ^ k`.
* **Closure** (`Fits.lnot`, `Fits.shiftRight`, `Fits.bitwise`): no bitwise operation needs more
  bits than its operands.
-/

namespace TwosComplement

/-- `x` is a two's complement number of `k` bits and a sign. -/
def Fits (k : ℕ) (x : ℤ) : Prop := -2 ^ k ≤ x ∧ x < 2 ^ k

/-- The bits of a number after its sign, inverted when it is negative. -/
def magnitude : ℤ → ℕ
  | .ofNat n => n
  | .negSucc n => n

theorem fits_iff {k : ℕ} {x : ℤ} : Fits k x ↔ magnitude x < 2 ^ k := by
  have hpow : ((2 ^ k : ℕ) : ℤ) = 2 ^ k := by
    push_cast
    rfl
  unfold Fits
  rw [← hpow]
  cases x with
  | ofNat n =>
    simp only [magnitude, Int.ofNat_eq_natCast]
    omega
  | negSucc n =>
    simp only [magnitude, Int.negSucc_eq]
    omega

theorem Fits.mono {k l : ℕ} {x : ℤ} (hx : Fits k x) (hkl : k ≤ l) : Fits l x := by
  rw [fits_iff] at hx ⊢
  exact hx.trans_le (Nat.pow_le_pow_right (by omega) hkl)

theorem Fits.lnot {k : ℕ} {x : ℤ} (hx : Fits k x) : Fits k (Int.lnot x) := by
  rw [fits_iff] at hx ⊢
  cases x with
  | ofNat n => exact hx
  | negSucc n => exact hx

theorem Fits.shiftRight {k : ℕ} {x : ℤ} (hx : Fits k x) (n : ℕ) : Fits k (x >>> n) := by
  rw [fits_iff] at hx ⊢
  have hle (m : ℕ) : m >>> n ≤ m := by
    rw [Nat.shiftRight_eq_div_pow]
    exact Nat.div_le_self m _
  cases x with
  | ofNat m => exact (hle m).trans_lt hx
  | negSucc m => exact (hle m).trans_lt hx

theorem Fits.bitwise {k : ℕ} {x y : ℤ} (f : Bool → Bool → Bool) (hx : Fits k x)
    (hy : Fits k y) : Fits k (Int.bitwise f x y) := by
  rw [fits_iff] at hx hy ⊢
  -- Both branches of the result are a bitwise operation on the magnitudes of the operands.
  have hnat (g : Bool → Bool → Bool) (m n : ℕ) (hm : m < 2 ^ k) (hn : n < 2 ^ k) :
      magnitude (Int.natBitwise g m n) < 2 ^ k := by
    unfold Int.natBitwise
    cases g false false with
    | false => exact Nat.bitwise_lt_two_pow hm hn
    | true => exact Nat.bitwise_lt_two_pow hm hn
  cases x with
  | ofNat m =>
    cases y with
    | ofNat n => exact hnat f m n hx hy
    | negSucc n => exact hnat (fun a b => f a (not b)) m n hx hy
  | negSucc m =>
    cases y with
    | ofNat n => exact hnat (fun a b => f (not a) b) m n hx hy
    | negSucc n => exact hnat (fun a b => f (not a) (not b)) m n hx hy

theorem Fits.land {k : ℕ} {x y : ℤ} (hx : Fits k x) (hy : Fits k y) :
    Fits k (Int.land x y) := by
  rw [← Int.bitwise_and]
  exact hx.bitwise _ hy

theorem Fits.lor {k : ℕ} {x y : ℤ} (hx : Fits k x) (hy : Fits k y) :
    Fits k (Int.lor x y) := by
  rw [← Int.bitwise_or]
  exact hx.bitwise _ hy

theorem Fits.xor {k : ℕ} {x y : ℤ} (hx : Fits k x) (hy : Fits k y) :
    Fits k (Int.xor x y) := by
  rw [← Int.bitwise_xor]
  exact hx.bitwise _ hy

end TwosComplement

import Spade.Lib.SignedBits
import Spade.Lib.Verilog

/-!
# Positions of a bit string

Bit strings by their positions, counted from the least significant bit, and assignments to the
positions of a net that a part select names.

* **Positions** (`ext_bit`, `bit_append`, `bit_slice`): a bit string is given by its width and its
  bits, and those of a concatenation and of a slice are found in the parts and the whole.
* **Part selects as targets** (`assigns_part_iff`): an assignment to a part select within the net
  is an assignment to the slice.
-/

namespace BitString

/-- The bit at a position, zero beyond the width. -/
def bit (xs : BitString) (p : ℕ) : Bool := xs.toNat.testBit p

theorem bit_append (xs ys : BitString) (p : ℕ) :
    (xs ++ ys).bit p = if p < ys.length then ys.bit p else xs.bit (p - ys.length) := by
  unfold bit
  rw [toNat_append, Nat.mul_comm, Nat.testBit_two_pow_mul_add _ (toNat_lt ys)]

theorem bit_of_length_le {xs : BitString} {p : ℕ} (h : xs.length ≤ p) : xs.bit p = false :=
  Nat.testBit_lt_two_pow ((toNat_lt xs).trans_le (Nat.pow_le_pow_right (by omega) h))

theorem ext_bit {xs ys : BitString} (hlen : xs.length = ys.length)
    (h : ∀ p < xs.length, xs.bit p = ys.bit p) : xs = ys := by
  apply toNat_injective hlen
  apply Nat.eq_of_testBit_eq
  intro p
  rcases Nat.lt_or_ge p xs.length with hp | hp
  · exact h p hp
  · exact (bit_of_length_le hp).trans (bit_of_length_le (hlen ▸ hp)).symm

theorem bit_replicate (w : ℕ) (b : Bool) (p : ℕ) :
    bit (List.replicate w b) p = (decide (p < w) && b) := by
  induction w with
  | zero => simp [bit, toNat]
  | succ w ih =>
    rw [List.replicate_succ, ← List.singleton_append, bit_append, List.length_replicate, ih]
    split
    · rename_i hp
      rw [decide_eq_true hp, decide_eq_true (by omega)]
    · rename_i hp
      unfold bit
      rw [toNat_singleton]
      rcases Nat.eq_or_lt_of_le (Nat.le_of_not_lt hp) with rfl | hlt
      · cases b <;> simp
      · rw [decide_eq_false (by omega), Bool.false_and]
        apply Nat.testBit_lt_two_pow
        have hone : 2 ^ 1 ≤ 2 ^ (p - w) := Nat.pow_le_pow_right (by omega) (by omega)
        have hb := b.toNat_lt
        omega

theorem bit_reverse {xs : BitString} {p : ℕ} (hp : p < xs.length) :
    BitString.bit xs.reverse p = xs.bit (xs.length - 1 - p) := by
  induction xs generalizing p with
  | nil => exact absurd hp (Nat.not_lt_zero p)
  | cons b xs ih =>
    have hcons := bit_append [b] xs (xs.length - p)
    rw [List.singleton_append] at hcons
    rw [List.reverse_cons, bit_append, List.length_singleton, List.length_cons,
      Nat.add_sub_cancel, hcons]
    rcases p with _ | p
    · rw [if_pos Nat.one_pos, if_neg (by omega), Nat.sub_zero, Nat.sub_self]
    · rw [List.length_cons] at hp
      rw [if_neg (by omega), if_pos (by omega), Nat.add_sub_cancel, ih (by omega),
        Nat.sub_right_comm, Nat.sub_sub]

/-- A slice has the bits of its range. -/
theorem bit_slice {xs : BitString} {left right p : ℕ} (hr : right ≤ left) (hl : left < xs.length)
    (hp : p < left + 1 - right) : (xs.slice left right).bit p = xs.bit (right + p) := by
  obtain ⟨a, b, c, rfl, hb, hc⟩ : ∃ a b c : BitString, xs = a ++ (b ++ c) ∧
      b.length = left + 1 - right ∧ c.length = right := by
    refine ⟨xs.take (xs.length - (left + 1)),
      (xs.drop (xs.length - (left + 1))).take (left + 1 - right),
      (xs.drop (xs.length - (left + 1))).drop (left + 1 - right), ?_, ?_, ?_⟩
    · rw [List.take_append_drop, List.take_append_drop]
    · rw [List.length_take, List.length_drop]
      omega
    · rw [List.length_drop, List.length_drop]
      omega
  have hne : b ≠ [] := List.length_pos_iff.mp (by omega)
  have hleft : left = b.length + c.length - 1 := by omega
  have hslice := @slice_append a b c hne
  rw [← hleft, hc] at hslice
  rw [hslice, bit_append, if_pos (by rw [List.length_append]; omega), bit_append,
    if_neg (by omega), hc, Nat.add_sub_cancel_left]

theorem slice_self {xs : BitString} {i : ℕ} (hi : i < xs.length) : xs.slice i i = [xs.bit i] := by
  have hlen := length_slice (le_refl i) hi
  rw [Nat.add_sub_cancel_left] at hlen
  apply ext_bit hlen
  intro p hp
  obtain rfl : p = 0 := by omega
  rw [bit_slice (le_refl i) hi (by omega), Nat.add_zero]
  exact (by simpa using bit_replicate 1 (xs.bit i) 0 : bit [xs.bit i] 0 = xs.bit i).symm

end BitString

namespace Verilog.Expr

variable {ν : Type} (env : ν → Option BitString) (pad : ℕ → Bool)

/-- `assign target = value;`, where the bits of a part select that its net does not have are left
out. -/
def Assigns (target value : Expr ν) : Prop :=
  match target with
  | .part n left right => ∃ bits bits', env n = some bits ∧ eval env pad value = some bits' ∧
      ∀ p, right ≤ p → p ≤ left → p < bits.length → bits.bit p = bits'.bit (p - right)
  | target => Drives env pad target value

/-- `n[left-:width]`, the `width` bits down from `left`. -/
def partDown (n : ν) (left width : ℕ) : Expr ν := .part n left (left + 1 - width)

/-- `n[low+:width]`, the `width` bits up from `low`. -/
def partUp (n : ν) (low width : ℕ) : Expr ν := .part n (low + width - 1) low

/-- The net that a select takes bits from. -/
def selectsFrom : Expr ν → Option ν
  | .bit n _ => some n
  | .part n _ _ => some n
  | .bitAt n _ => some n
  | .partAt n _ _ _ => some n
  | _ => none

variable {env pad}

/-- Within the net, all bits of the slice are assigned. -/
theorem assigns_part_iff {n : ν} {left right : ℕ} {value : Expr ν} {bits bits' : BitString}
    (hn : env n = some bits) (hr : right ≤ left) (hl : left < bits.length)
    (hvalue : eval env pad value = some bits') (hlen : bits'.length = left + 1 - right) :
    Assigns env pad (.part n left right) value ↔ bits.slice left right = bits' := by
  have hslice := BitString.length_slice hr hl
  constructor
  · rintro ⟨xs, ys, hxs, hys, h⟩
    obtain rfl := Option.some.inj (hn.symm.trans hxs)
    obtain rfl := Option.some.inj (hvalue.symm.trans hys)
    apply BitString.ext_bit (hslice.trans hlen.symm)
    intro p hp
    rw [BitString.bit_slice hr hl (hslice ▸ hp), h (right + p) (by omega) (by omega) (by omega),
      Nat.add_sub_cancel_left]
  · rintro rfl
    refine ⟨bits, _, hn, hvalue, fun p hp hp' _ => ?_⟩
    rw [BitString.bit_slice hr hl (by omega), Nat.add_sub_cancel' hp]

/-- The bits beyond the net are left out. -/
theorem assigns_overhang_iff {n : ν} {left : ℕ} {value : Expr ν} {bits bits' : BitString}
    (hn : env n = some bits) (hl : bits.length ≤ left + 1)
    (hvalue : eval env pad value = some bits') (hlen : bits'.length = bits.length) :
    Assigns env pad (.part n left 0) value ↔ bits = bits' := by
  constructor
  · rintro ⟨xs, ys, hxs, hys, h⟩
    obtain rfl := Option.some.inj (hn.symm.trans hxs)
    obtain rfl := Option.some.inj (hvalue.symm.trans hys)
    apply BitString.ext_bit hlen.symm
    intro p hp
    exact h p (Nat.zero_le p) (by omega) hp
  · rintro rfl
    exact ⟨bits, bits, hn, hvalue, fun p _ _ _ => rfl⟩

end Verilog.Expr

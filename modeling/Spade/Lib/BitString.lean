import Mathlib.Data.Nat.Log
import Mathlib.Tactic.Ring

/-!
# Bit strings

Strings of bits, the most significant bit first, with the operations a hardware description
language has on them: reading them as a number, writing a number in a given width, cutting out
the range `[left:right]` of positions (position 0 is the least significant bit), and changing
the width by truncating or zero-extending at the most significant end.
-/

/-- A string of bits, most significant bit first. -/
abbrev BitString := List Bool

namespace BitString

/-- The number a bit string denotes. -/
def toNat : BitString → ℕ
  | [] => 0
  | b :: bs => (if b then 2 ^ bs.length else 0) + toNat bs

/-- The `w` low bits of `v`. -/
def ofNat : ℕ → ℕ → BitString
  | 0, _ => []
  | w + 1, v => decide (v / 2 ^ w % 2 = 1) :: ofNat w v

/-- The bits at the positions `left` down to `right`. -/
def slice (xs : BitString) (left right : ℕ) : BitString :=
  (xs.drop (xs.length - 1 - left)).take (left + 1 - right)

/-- `xs` at width `w`: the low bits when it is too wide, zero-extended when it is too narrow. -/
def resize (w : ℕ) (xs : BitString) : BitString :=
  List.replicate (w - xs.length) false ++ xs.drop (xs.length - w)

/-! ### Numbers -/

@[simp] theorem length_ofNat (w v : ℕ) : (ofNat w v).length = w := by
  induction w with
  | zero => rfl
  | succ w ih => simp [ofNat, ih]

theorem toNat_lt (xs : BitString) : toNat xs < 2 ^ xs.length := by
  induction xs with
  | nil => simp [toNat]
  | cons b bs ih =>
      simp only [toNat, List.length_cons, pow_succ]
      split_ifs <;> omega

theorem toNat_ofNat (w v : ℕ) : toNat (ofNat w v) = v % 2 ^ w := by
  induction w with
  | zero => simp [ofNat, toNat, Nat.mod_one]
  | succ w ih =>
      have hsplit : v % 2 ^ (w + 1) = v % 2 ^ w + 2 ^ w * (v / 2 ^ w % 2) := by
        rw [pow_succ, Nat.mod_mul]
      simp only [ofNat, toNat, length_ofNat, ih, hsplit, decide_eq_true_eq]
      rcases Nat.mod_two_eq_zero_or_one (v / 2 ^ w) with h | h <;> simp [h, Nat.add_comm]

theorem toNat_ofNat_of_lt {w v : ℕ} (h : v < 2 ^ w) : toNat (ofNat w v) = v := by
  rw [toNat_ofNat, Nat.mod_eq_of_lt h]

theorem ofNat_injOn {w u v : ℕ} (hu : u < 2 ^ w) (hv : v < 2 ^ w) (h : ofNat w u = ofNat w v) :
    u = v := by
  rw [← toNat_ofNat_of_lt hu, ← toNat_ofNat_of_lt hv, h]

/-- A number below `2 ^ w` does not see the bits above. -/
theorem toNat_injective {xs ys : BitString} (hlen : xs.length = ys.length)
    (h : toNat xs = toNat ys) : xs = ys := by
  induction xs generalizing ys with
  | nil => exact (List.length_eq_zero_iff.mp hlen.symm).symm
  | cons b bs ih =>
      obtain _ | ⟨c, cs⟩ := ys
      · simp at hlen
      · have hlen' : bs.length = cs.length := by simpa using hlen
        have hb := toNat_lt bs
        have hc := toNat_lt cs
        simp only [toNat, hlen'] at h hb
        have hbc : b = c := by
          rcases b with _ | _ <;> rcases c with _ | _ <;> simp at h ⊢ <;> omega
        subst hbc
        rw [ih hlen' (by omega)]

theorem ofNat_toNat (xs : BitString) : ofNat xs.length (toNat xs) = xs :=
  toNat_injective (by simp) (toNat_ofNat_of_lt (toNat_lt xs))

@[simp] theorem toNat_singleton (b : Bool) : toNat [b] = b.toNat := by
  cases b <;> rfl

/-! ### Slices -/

theorem length_slice {xs : BitString} {left right : ℕ} (hr : right ≤ left)
    (hl : left < xs.length) : (slice xs left right).length = left + 1 - right := by
  simp only [slice, List.length_take, List.length_drop]
  omega

/-- The slice that starts below `a` and ends above `c` is what lies between them. -/
theorem slice_append {a b c : BitString} (hb : b ≠ []) :
    slice (a ++ (b ++ c)) (b.length + c.length - 1) c.length = b := by
  have hpos : 0 < b.length := List.length_pos_iff.mpr hb
  have hdrop : (a ++ (b ++ c)).length - 1 - (b.length + c.length - 1) = a.length := by
    simp only [List.length_append]; omega
  have htake : b.length + c.length - 1 + 1 - c.length = b.length := by omega
  rw [slice, hdrop, htake, List.drop_left, List.take_left]

/-- The low part of a bit string. -/
theorem slice_low {a b : BitString} (hb : b ≠ []) : slice (a ++ b) (b.length - 1) 0 = b := by
  simpa using slice_append (a := a) (c := []) hb

/-- The high part of a bit string. -/
theorem slice_high {a b : BitString} (ha : a ≠ []) :
    slice (a ++ b) (a.length + b.length - 1) b.length = a := by
  simpa using slice_append (a := []) (c := b) ha

theorem slice_append_low {a b : BitString} {left right : ℕ} (hl : left < b.length) :
    slice (a ++ b) left right = slice b left right := by
  have hdrop : (a ++ b).length - 1 - left = a.length + (b.length - 1 - left) := by
    rw [List.length_append]
    omega
  rw [slice, hdrop, List.drop_length_add_append, slice]

theorem slice_append_high {a b : BitString} {left right : ℕ} (hr : right ≤ left)
    (hl : left < a.length) :
    slice (a ++ b) (left + b.length) (right + b.length) = slice a left right := by
  have hdrop : (a ++ b).length - 1 - (left + b.length) = a.length - 1 - left := by
    rw [List.length_append]
    omega
  have htake : left + b.length + 1 - (right + b.length) = left + 1 - right := by omega
  rw [slice, hdrop, htake, List.drop_append_of_le_length (by omega),
    List.take_append_of_le_length (by rw [List.length_drop]; omega), slice]

/-! ### Changing the width -/

@[simp] theorem length_resize (w : ℕ) (xs : BitString) : (resize w xs).length = w := by
  simp only [resize, List.length_append, List.length_replicate, List.length_drop]
  omega

@[simp] theorem resize_length (xs : BitString) : resize xs.length xs = xs := by
  simp [resize]

theorem resize_of_length_eq {w : ℕ} {xs : BitString} (h : xs.length = w) : resize w xs = xs := by
  rw [← h, resize_length]

/-- Truncation keeps the low part. -/
theorem resize_append (a b : BitString) : resize b.length (a ++ b) = b := by
  simp [resize]

@[simp] theorem resize_zero (xs : BitString) : resize 0 xs = [] := by
  simp [resize]

end BitString

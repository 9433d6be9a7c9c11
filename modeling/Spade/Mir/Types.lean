import Mathlib.Algebra.Ring.Nat
import Mathlib.Data.Nat.Log
import Mathlib.Algebra.BigOperators.Group.List.Basic
import Mathlib.Algebra.Order.BigOperators.Group.List

/-!
# MIR types and their bit sizes

The embedding of `spade-mir/src/types.rs` and `spade-mir/src/enum_util.rs`: the types of the
mid-level representation, the number of bits they carry in the forward direction (`Ty.size`),
and the width of an enum tag.

Bit counts are `BigUint` in the source, so they are `Nat` here. The source computes the tag
width as `(variant_count as f32).log2().ceil()`; it is the exact ceiling of the logarithm here.
-/

namespace Spade.Mir

/-- `enum_util::tag_size`: the number of bits of the tag of an enum with `variantCount`
variants. An enum with at most one variant has no tag. -/
def tagSize (variantCount : ℕ) : ℕ :=
  if variantCount ≤ 1 then 0 else Nat.log2 (variantCount - 1) + 1

/-- `Type`: the types of MIR values. -/
inductive Ty where
  | int (len : ℕ)
  | uint (len : ℕ)
  | bool
  /-- An "empty" type. -/
  | void
  | tuple (inner : List Ty)
  | struct (inner : List (String × Ty))
  | array (inner : Ty) (length : ℕ)
  | memory (inner : Ty) (length : ℕ)
  | enum (options : List (List Ty))
  /-- A type whose values flow the opposite way. -/
  | backward (inner : Ty)
  | inOut (inner : Ty)

namespace Ty

/- `Type::size`, one function for every container the recursion goes through. -/
mutual

/-- `Type::size`: the number of bits of a value in the forward direction. -/
def size : Ty → ℕ
  | int len => len
  | uint len => len
  | bool => 1
  | void => 0
  | tuple inner => sizeSum inner
  | struct inner => sizeFields inner
  | enum options => tagSize options.length + sizeMax options
  | array inner length => inner.size * length
  | memory inner length => inner.size * length
  | backward _ => 0
  | inOut inner => inner.size

/-- The sum of the sizes of a list of types. -/
def sizeSum : List Ty → ℕ
  | [] => 0
  | t :: ts => t.size + sizeSum ts

/-- The sum of the sizes of the fields of a struct. -/
def sizeFields : List (String × Ty) → ℕ
  | [] => 0
  | (_, t) :: fs => t.size + sizeFields fs

/-- The size of the largest payload of an enum, zero when there is no variant. -/
def sizeMax : List (List Ty) → ℕ
  | [] => 0
  | v :: vs => max (sizeSum v) (sizeMax vs)

end

@[simp] theorem sizeSum_eq (ts : List Ty) : sizeSum ts = (ts.map size).sum := by
  induction ts with
  | nil => rfl
  | cons t ts ih => simp [sizeSum, ih]

@[simp] theorem sizeFields_eq (fs : List (String × Ty)) :
    sizeFields fs = (fs.map fun f => f.2.size).sum := by
  induction fs with
  | nil => rfl
  | cons f fs ih => simp [sizeFields, ih]

/-- The payload of every variant fits in the payload part of the enum. -/
theorem sizeSum_le_sizeMax {v : List Ty} {options : List (List Ty)} (h : v ∈ options) :
    sizeSum v ≤ sizeMax options := by
  induction options with
  | nil => exact absurd h List.not_mem_nil
  | cons w options ih =>
      rw [sizeMax]
      rcases List.mem_cons.mp h with rfl | h
      · exact le_max_left _ _
      · exact (ih h).trans (le_max_right _ _)

/- `Type::backward_size`, one function for every container the recursion goes through. -/
mutual

/-- `Type::backward_size`: the number of bits of a value against the forward direction. The source
takes a payload of an enum or a memory with backward bits for unreachable; it has none here. -/
def backwardSize : Ty → ℕ
  | backward inner => inner.size
  | int _ | uint _ | bool | void => 0
  | array inner length => inner.backwardSize * length
  | enum _ => 0
  | memory _ _ => 0
  | tuple inner => backwardSizeSum inner
  | struct inner => backwardSizeFields inner
  | inOut _ => 0

/-- The sum of the backward sizes of a list of types. -/
def backwardSizeSum : List Ty → ℕ
  | [] => 0
  | t :: ts => t.backwardSize + backwardSizeSum ts

/-- The sum of the backward sizes of the fields of a struct. -/
def backwardSizeFields : List (String × Ty) → ℕ
  | [] => 0
  | (_, t) :: fs => t.backwardSize + backwardSizeFields fs

end

theorem backwardSizeSum_eq (ts : List Ty) : backwardSizeSum ts = (ts.map backwardSize).sum := by
  induction ts with
  | nil => rfl
  | cons t ts ih => rw [backwardSizeSum, ih, List.map_cons, List.sum_cons]

/-- `Type::assume_enum`: the variants of an enum, `none` where the source panics. -/
def assumeEnum : Ty → Option (List (List Ty))
  | enum options => some options
  | _ => none

/-! ### Equality -/

mutual

/-- `==` on types. -/
def beq : Ty → Ty → Bool
  | int a, int b => a == b
  | uint a, uint b => a == b
  | bool, bool => true
  | void, void => true
  | tuple as, tuple bs => beqList as bs
  | struct as, struct bs => beqFields as bs
  | array a n, array b m => a.beq b && n == m
  | memory a n, memory b m => a.beq b && n == m
  | enum as, enum bs => beqOptions as bs
  | backward a, backward b => a.beq b
  | inOut a, inOut b => a.beq b
  | _, _ => false
termination_by structural t => t

def beqList : List Ty → List Ty → Bool
  | [], [] => true
  | a :: as, b :: bs => a.beq b && beqList as bs
  | _, _ => false
termination_by structural ts => ts

def beqFields : List (String × Ty) → List (String × Ty) → Bool
  | [], [] => true
  | (n, a) :: as, (m, b) :: bs => n == m && a.beq b && beqFields as bs
  | _, _ => false
termination_by structural fs => fs

def beqOptions : List (List Ty) → List (List Ty) → Bool
  | [], [] => true
  | a :: as, b :: bs => beqList a b && beqOptions as bs
  | _, _ => false
termination_by structural os => os

end

mutual

theorem beq_self : ∀ t : Ty, t.beq t = true
  | int _ | uint _ | bool | void => by simp [beq]
  | tuple ts => by rw [beq, beqList_self ts]
  | struct fs => by rw [beq, beqFields_self fs]
  | array t n | memory t n => by rw [beq, beq_self t, beq_self_eq_true]; rfl
  | enum os => by rw [beq, beqOptions_self os]
  | backward t | inOut t => by rw [beq, beq_self t]

theorem beqList_self : ∀ ts : List Ty, beqList ts ts = true
  | [] => rfl
  | t :: ts => by rw [beqList, beq_self t, beqList_self ts]; rfl

theorem beqFields_self : ∀ fs : List (String × Ty), beqFields fs fs = true
  | [] => rfl
  | (n, t) :: fs => by rw [beqFields, beq_self t, beqFields_self fs, beq_self_eq_true]; rfl

theorem beqOptions_self : ∀ os : List (List Ty), beqOptions os os = true
  | [] => rfl
  | o :: os => by rw [beqOptions, beqList_self o, beqOptions_self os]; rfl

end

end Ty

/-- The tag of an enum is wide enough to tell its variants apart. -/
theorem lt_two_pow_tagSize {variant variantCount : ℕ} (h : variant < variantCount) :
    variant < 2 ^ tagSize variantCount := by
  unfold tagSize
  split_ifs with hc
  · omega
  · have := Nat.lt_log2_self (n := variantCount - 1)
    omega

theorem tagSize_pos_iff {variantCount : ℕ} : 0 < tagSize variantCount ↔ 1 < variantCount := by
  unfold tagSize
  split_ifs <;> omega

end Spade.Mir

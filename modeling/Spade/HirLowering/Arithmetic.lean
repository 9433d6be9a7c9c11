import Mathlib.Algebra.Order.Ring.Abs
import Mathlib.Tactic.Linarith
import Spade.HirLowering.Expressions
import Spade.Lib.TwosComplement
import Spade.Mir.Arithmetic

/-!
# Integer expressions

What the integer expressions of a unit compute, from the types that inference gives them to the
Verilog of the statements that they are lowered to.

* **Types** (`BinaryTyped`, `UnaryTyped`): the sizes of the operands and the result of an operator,
  from `visit_binary_operator` and `visit_unary_operator` without word length inference.
* **One operator** (`denote_binary`, `denote_unary`): the nets of two numbers give the net of the
  number that the operator makes of them, which its type holds.
* **Expressions** (`lower_computes`): an expression is lowered when its divisors are powers of two,
  and its variable carries its number in every solution of its statements.
-/

namespace Spade.HirLowering

open Mir hiding Statement
open Hir

/-! ### The numbers of expressions -/

/-- The number of a type that has the low bits of a number. -/
def wrap : Ty → ℤ → ℤ
  | .int size, v => v.bmod (2 ^ size)
  | .uint size, v => v % 2 ^ size
  | _, v => v

/-- The bits of a number, read without sign. -/
def unsignedBits (ty : Ty) (v : ℤ) : ℤ := v % 2 ^ ty.size

/-- The bits of a number, read in two's complement. -/
def signedBits (ty : Ty) (v : ℤ) : ℤ := v.bmod (2 ^ ty.size)

/-- What a binary operator makes of two numbers, where the first one is of the given type: the exact
number, except that a difference of unsigned numbers and a left shift are cut to the result. -/
def operateBinary (ty : Ty) (op : BinaryOperator) (x y : ℤ) : ℤ :=
  let amount := (unsignedBits ty y).toNat
  match op with
  | .add => x + y
  | .sub =>
      match ty with
      | .uint size => (x - y) % 2 ^ (size + 1)
      | _ => x - y
  | .mul => x * y
  | .div => x.tdiv y
  | .mod => x.tmod y
  | .eq => (decide (x = y)).toInt
  | .notEq => (decide (x ≠ y)).toInt
  | .gt => (decide (x > y)).toInt
  | .lt => (decide (x < y)).toInt
  | .ge => (decide (x ≥ y)).toInt
  | .le => (decide (x ≤ y)).toInt
  | .leftShift => wrap ty (x * 2 ^ amount)
  | .rightShift => wrap ty (unsignedBits ty x / 2 ^ amount)
  | .arithmeticRightShift => wrap ty (signedBits ty x / 2 ^ amount)
  | .logicalAnd => (x != 0 && y != 0).toInt
  | .logicalOr => (x != 0 || y != 0).toInt
  | .logicalXor => ((x != 0) ^^ (y != 0)).toInt
  | .bitwiseAnd => Int.land x y
  | .bitwiseOr => Int.lor x y
  | .bitwiseXor => Int.xor x y

/-- What a unary operator makes of a number of the given type. The smallest number is its own
negation. -/
def operateUnary (ty : Ty) (op : UnaryOperator) (x : ℤ) : ℤ :=
  match op with
  | .sub => wrap ty (-x)
  | .bitwiseNot => wrap ty (-x - 1)
  | .not => (x == 0).toInt
  | .dereference | .reference | .flipPort => x

/-- The type of an expression. -/
def ExpressionContext.type (ctx : ExpressionContext) (e : Expression) : Option Ty :=
  (ctx.typeOfId e.id).toMirType

/-- The number of an expression. What is no operator, literal or conditional has a number of its
own. -/
def ExpressionContext.evaluate (ctx : ExpressionContext) (values : Expression → ℤ) :
    Expression → ℤ
  | .intLiteral _ value _ => value
  | .boolLiteral _ value => value.toInt
  | .binaryOperator _ lhs op rhs =>
      operateBinary ((ctx.type lhs).getD .void) op (ctx.evaluate values lhs)
        (ctx.evaluate values rhs)
  | .unaryOperator _ op operand =>
      operateUnary ((ctx.type operand).getD .void) op (ctx.evaluate values operand)
  | .if_ _ cond onTrue onFalse =>
      if ctx.evaluate values cond ≠ 0 then ctx.evaluate values onTrue
      else ctx.evaluate values onFalse
  | e => values e

/-- An expression with a number of its own. -/
def isPart : Expression → Bool
  | .intLiteral .. | .boolLiteral .. | .binaryOperator .. | .unaryOperator .. | .if_ .. => false
  | _ => true

/-- The parts of an expression that have a number of their own. -/
def parts : Expression → List Expression
  | .intLiteral .. | .boolLiteral .. => []
  | .binaryOperator _ lhs _ rhs => parts lhs ++ parts rhs
  | .unaryOperator _ _ operand => parts operand
  | .if_ _ cond onTrue onFalse => parts cond ++ (parts onTrue ++ parts onFalse)
  | e => [e]

/-- Every divisor in an expression is a literal that is a power of two. -/
def DividesByPowers : Expression → Prop
  | .binaryOperator _ lhs op rhs =>
      DividesByPowers lhs ∧ DividesByPowers rhs ∧
        ((op = .div ∨ op = .mod) → isPowerOfTwo rhs = true)
  | .unaryOperator _ _ operand => DividesByPowers operand
  | .if_ _ cond onTrue onFalse =>
      DividesByPowers cond ∧ DividesByPowers onTrue ∧ DividesByPowers onFalse
  | _ => True

/-! ### Types -/

/-- The types of the operands and of the result of a binary operator. -/
inductive BinaryTyped : BinaryOperator → Ty → Ty → Ty → Prop where
  | sum {op : BinaryOperator} (hop : op = .add ∨ op = .sub) (signed : Bool) (n : ℕ) :
      BinaryTyped op (.number signed n) (.number signed n) (.number signed (n + 1))
  | mul (signed : Bool) (m n : ℕ) :
      BinaryTyped .mul (.number signed m) (.number signed n) (.number signed (m + n))
  | same {op : BinaryOperator}
      (hop : op = .div ∨ op = .mod ∨ op = .leftShift ∨ op = .rightShift ∨
        op = .arithmeticRightShift ∨ op = .bitwiseAnd ∨ op = .bitwiseOr ∨ op = .bitwiseXor)
      (signed : Bool) (n : ℕ) :
      BinaryTyped op (.number signed n) (.number signed n) (.number signed n)
  | compare {op : BinaryOperator}
      (hop : op = .eq ∨ op = .notEq ∨ op = .gt ∨ op = .lt ∨ op = .ge ∨ op = .le)
      (signed : Bool) (n : ℕ) :
      BinaryTyped op (.number signed n) (.number signed n) .bool
  | logical {op : BinaryOperator}
      (hop : op = .logicalAnd ∨ op = .logicalOr ∨ op = .logicalXor) :
      BinaryTyped op .bool .bool .bool

/-- The types of the operand and of the result of a unary operator. A wire has the type of what it
carries. -/
inductive UnaryTyped : UnaryOperator → Ty → Ty → Prop where
  | sub (n : ℕ) : UnaryTyped .sub (.int n) (.int n)
  | bitwiseNot (signed : Bool) (n : ℕ) :
      UnaryTyped .bitwiseNot (.number signed n) (.number signed n)
  | not : UnaryTyped .not .bool .bool
  | wire {op : UnaryOperator} (hop : op = .dereference ∨ op = .reference) (ty : Ty) :
      UnaryTyped op ty ty

/-- An expression over numbers and conditions that type inference accepts. -/
inductive ExpressionContext.Typed (ctx : ExpressionContext) : Expression → Ty → Prop where
  | part {e : Expression} {ty : Ty} (he : isPart e = true) (hty : ctx.type e = some ty) :
      ctx.Typed e ty
  | intLiteral {id : ℕ} {value : ℤ} {kind : IntLiteralKind} {signed : Bool} {n : ℕ}
      (hty : ctx.type (.intLiteral id value kind) = some (.number signed n))
      (hvalue : (Ty.number signed n).HasNumber value) :
      ctx.Typed (.intLiteral id value kind) (.number signed n)
  | boolLiteral {id : ℕ} {value : Bool} (hty : ctx.type (.boolLiteral id value) = some .bool) :
      ctx.Typed (.boolLiteral id value) .bool
  | binaryOperator {id : ℕ} {lhs rhs : Expression} {op : BinaryOperator} {a b ty : Ty}
      (hlhs : ctx.Typed lhs a) (hrhs : ctx.Typed rhs b) (hop : BinaryTyped op a b ty)
      (hty : ctx.type (.binaryOperator id lhs op rhs) = some ty) :
      ctx.Typed (.binaryOperator id lhs op rhs) ty
  | unaryOperator {id : ℕ} {operand : Expression} {op : UnaryOperator} {a ty : Ty}
      (hoperand : ctx.Typed operand a) (hop : UnaryTyped op a ty)
      (hty : ctx.type (.unaryOperator id op operand) = some ty) :
      ctx.Typed (.unaryOperator id op operand) ty
  | if_ {id : ℕ} {cond onTrue onFalse : Expression} {ty : Ty} (hcond : ctx.Typed cond .bool)
      (htrue : ctx.Typed onTrue ty) (hfalse : ctx.Typed onFalse ty)
      (hty : ctx.type (.if_ id cond onTrue onFalse) = some ty) :
      ctx.Typed (.if_ id cond onTrue onFalse) ty

/-! ### Ranges -/

section Range

open TwosComplement

variable {signed : Bool} {m n k l : ℕ} {x y z v : ℤ}

theorem hasNumber_signed : (Ty.number true (k + 1)).HasNumber v ↔ Fits k v := by
  simp [Ty.number, Ty.HasNumber, Fits]

theorem hasNumber_unsigned :
    (Ty.number false n).HasNumber v ↔ 0 < n ∧ 0 ≤ v ∧ v < 2 ^ n :=
  Iff.rfl

theorem exists_signed (h : (Ty.number true n).HasNumber v) : ∃ k, n = k + 1 ∧ Fits k v := by
  obtain ⟨k, rfl⟩ : ∃ k, n = k + 1 := ⟨n - 1, by have := h.1; omega⟩
  exact ⟨k, rfl, hasNumber_signed.mp h⟩

theorem hasNumber_toInt (b : Bool) : Ty.bool.HasNumber b.toInt := by
  cases b <;> exact ⟨by decide, by decide⟩

theorem hasNumber_add (hx : (Ty.number signed n).HasNumber x)
    (hy : (Ty.number signed n).HasNumber y) : (Ty.number signed (n + 1)).HasNumber (x + y) := by
  cases signed with
  | false =>
      obtain ⟨hn, hx, hx'⟩ := hx
      obtain ⟨-, hy, hy'⟩ := hy
      refine ⟨by omega, by omega, ?_⟩
      rw [pow_succ]
      omega
  | true =>
      obtain ⟨k, rfl, hx, hx'⟩ := exists_signed hx
      obtain ⟨hy, hy'⟩ := hasNumber_signed.mp hy
      refine hasNumber_signed.mpr ⟨?_, ?_⟩ <;> rw [pow_succ] <;> omega

theorem hasNumber_sub (hx : (Ty.number true n).HasNumber x)
    (hy : (Ty.number true n).HasNumber y) : (Ty.number true (n + 1)).HasNumber (x - y) := by
  obtain ⟨k, rfl, hx, hx'⟩ := exists_signed hx
  obtain ⟨hy, hy'⟩ := hasNumber_signed.mp hy
  refine hasNumber_signed.mpr ⟨?_, ?_⟩ <;> rw [pow_succ] <;> omega

theorem hasNumber_mul (hx : (Ty.number signed m).HasNumber x)
    (hy : (Ty.number signed n).HasNumber y) : (Ty.number signed (m + n)).HasNumber (x * y) := by
  cases signed with
  | false =>
      obtain ⟨hm, hx, hx'⟩ := hx
      obtain ⟨-, hy, hy'⟩ := hy
      refine ⟨by omega, mul_nonneg hx hy, ?_⟩
      rw [pow_add]
      exact mul_lt_mul'' hx' hy' hx hy
  | true =>
      obtain ⟨k, rfl, hx, hx'⟩ := exists_signed hx
      obtain ⟨l, rfl, hy, hy'⟩ := exists_signed hy
      have hle : |x * y| ≤ 2 ^ k * 2 ^ l := by
        rw [abs_mul]
        exact mul_le_mul (abs_le.mpr ⟨hx, hx'.le⟩) (abs_le.mpr ⟨hy, hy'.le⟩) (abs_nonneg y)
          (by positivity)
      obtain ⟨hlo, hhi⟩ := abs_le.mp hle
      have hpow : (2 : ℤ) ^ (k + 1 + l) = 2 * (2 ^ k * 2 ^ l) := by ring
      have hpos : (0 : ℤ) < 2 ^ k * 2 ^ l := by positivity
      have hfits : Fits (k + 1 + l) (x * y) := by
        rw [Fits, hpow]
        omega
      exact hasNumber_signed.mpr hfits

/-- A number between zero and a number of a type. -/
theorem hasNumber_of_between (hx : (Ty.number signed n).HasNumber x)
    (h : 0 ≤ z ∧ z ≤ x ∨ x ≤ z ∧ z ≤ 0) : (Ty.number signed n).HasNumber z := by
  cases signed with
  | false =>
      obtain ⟨hn, hx, hx'⟩ := hx
      exact ⟨hn, by omega, by omega⟩
  | true =>
      obtain ⟨k, rfl, hx, hx'⟩ := exists_signed hx
      have hpos : (0 : ℤ) < 2 ^ k := by positivity
      exact hasNumber_signed.mpr ⟨by omega, by omega⟩

theorem tdiv_between (hy : 0 < y) :
    0 ≤ x.tdiv y ∧ x.tdiv y ≤ x ∨ x ≤ x.tdiv y ∧ x.tdiv y ≤ 0 := by
  rcases le_total 0 x with hx | hx
  · exact Or.inl ⟨Int.tdiv_nonneg hx hy.le, Int.tdiv_le_self y hx⟩
  · have hneg : 0 ≤ -x := by omega
    have hnonneg := Int.tdiv_nonneg hneg hy.le
    have hle := Int.tdiv_le_self y hneg
    rw [Int.neg_tdiv] at hnonneg hle
    exact Or.inr ⟨by omega, by omega⟩

theorem tmod_between (hy : 0 < y) :
    0 ≤ x.tmod y ∧ x.tmod y ≤ x ∨ x ≤ x.tmod y ∧ x.tmod y ≤ 0 := by
  have hsum := Int.mul_tdiv_add_tmod x y
  rcases le_total 0 x with hx | hx
  · have hmul := mul_nonneg hy.le (Int.tdiv_nonneg hx hy.le)
    exact Or.inl ⟨Int.tmod_nonneg y hx, by omega⟩
  · have hmul := mul_nonneg hy.le (Int.tdiv_nonneg (show 0 ≤ -x by omega) hy.le)
    have hmod := Int.tmod_nonneg y (show 0 ≤ -x by omega)
    rw [Int.neg_tdiv, mul_neg] at hmul
    rw [Int.neg_tmod] at hmod
    exact Or.inr ⟨by omega, by omega⟩

theorem hasNumber_bitwise {f : ℤ → ℤ → ℤ} {g : ℕ → ℕ → ℕ}
    (hf : ∀ {k x y}, Fits k x → Fits k y → Fits k (f x y)) (hg : ∀ a b : ℕ, f a b = g a b)
    (hx : (Ty.number signed n).HasNumber x)
    (hy : (Ty.number signed n).HasNumber y) : (Ty.number signed n).HasNumber (f x y) := by
  cases signed with
  | false =>
      obtain ⟨hn, hx, hx'⟩ := hx
      obtain ⟨-, hy, hy'⟩ := hy
      have hpos : (0 : ℤ) < 2 ^ n := by positivity
      refine ⟨hn, ?_, (hf ⟨by omega, hx'⟩ ⟨by omega, hy'⟩).2⟩
      lift x to ℕ using hx
      lift y to ℕ using hy
      exact hg x y ▸ Int.natCast_nonneg _
  | true =>
      obtain ⟨k, rfl, hfits⟩ := exists_signed hx
      exact hasNumber_signed.mpr (hf hfits (hasNumber_signed.mp hy))

theorem hasNumber_wrap (signed : Bool) (hn : 0 < n) (v : ℤ) :
    (Ty.number signed n).HasNumber (wrap (.number signed n) v) := by
  cases signed with
  | false =>
      have hpos : (0 : ℤ) < 2 ^ n := by positivity
      exact ⟨hn, Int.emod_nonneg v hpos.ne', Int.emod_lt_of_pos v hpos⟩
  | true =>
      obtain ⟨k, rfl⟩ : ∃ k, n = k + 1 := ⟨n - 1, by omega⟩
      have hpow : 2 ^ (k + 1) = 2 * 2 ^ k := by ring
      have hlo := Int.le_bmod (x := v) (Nat.two_pow_pos (k + 1))
      have hhi := Int.bmod_lt (x := v) (Nat.two_pow_pos (k + 1))
      have hcast : ((2 ^ (k + 1) : ℕ) : ℤ) = 2 * 2 ^ k := by push_cast; ring
      rw [hcast] at hlo hhi
      refine hasNumber_signed.mpr ⟨?_, ?_⟩
      · exact le_trans (by omega) hlo
      · exact lt_of_lt_of_le hhi (by omega)

end Range

/-! ### Operators -/

section Operators

variable {H : Type} (I : Interp H) (undef : (w : ℕ) → BitVec w) (h : H) {signed : Bool} {m n : ℕ}
  {x y v : ℤ}

theorem ofInt_wrap (signed : Bool) (n : ℕ) (v : ℤ) :
    BitString.ofInt n (wrap (.number signed n) v) = BitString.ofInt n v := by
  refine BitString.ofInt_congr ?_
  cases signed with
  | false => exact Int.mod_modEq v _
  | true =>
      have hmod : v.bmod (2 ^ n) % ((2 ^ n : ℕ) : ℤ) = v % ((2 ^ n : ℕ) : ℤ) := Int.bmod_emod
      rw [Nat.cast_pow] at hmod
      exact hmod

theorem lnot_eq (v : ℤ) : Int.lnot v = -v - 1 := by
  cases v with
  | ofNat k =>
      rw [Int.lnot, Int.negSucc_eq, Int.ofNat_eq_natCast]
      omega
  | negSucc k =>
      rw [Int.neg_negSucc, Int.lnot]
      push_cast
      omega

theorem dualBinop_number (sop uop : Op) :
    dualBinop sop uop (.number signed n) = some (if signed then sop else uop) := by
  cases signed <;> rfl

/-- An arithmetic operator for signed and one for unsigned operands. -/
theorem denote_dual (op : VerilogOperators.Arith) {sop uop mop : Op} {ty : Ty}
    (hs : arithmeticCode sop [0, 1] = some (.arith op (.operand true 0) (.operand true 1)))
    (hu : arithmeticCode uop [0, 1] = some (.arith op (.operand false 0) (.operand false 1)))
    (hmop : dualBinop sop uop (.number signed m) = some mop) (hty : ty.size ≠ 0)
    (hx : (Ty.number signed m).HasNumber x) (hy : (Ty.number signed n).HasNumber y)
    (hdiv : op = .div ∨ op = .mod → y ≠ 0) :
    (I.withArithmetic undef).denote h mop ty [.ofInt m x, .ofInt n y] =
      .ofInt ty.size (op.exact x y) := by
  have hcode : arithmeticCode mop [0, 1] =
      some (.arith op (.operand signed 0) (.operand signed 1)) := by
    rw [dualBinop_number, Option.some.injEq] at hmop
    cases signed <;> subst hmop <;> assumption
  rw [denote_arith I undef h hty hcode (by rwa [hy.number_ofInt]), hx.number_ofInt,
    hy.number_ofInt]

/-- A comparison for signed and one for unsigned operands. -/
theorem denote_dualComparison (op : VerilogOperators.Comparison) {sop uop mop : Op}
    (hs : arithmeticCode sop [0, 1] = some (.compare op (.operand true 0) (.operand true 1)))
    (hu : arithmeticCode uop [0, 1] = some (.compare op (.operand false 0) (.operand false 1)))
    (hmop : dualBinop sop uop (.number signed n) = some mop)
    (hx : (Ty.number signed n).HasNumber x) (hy : (Ty.number signed n).HasNumber y) :
    (I.withArithmetic undef).denote h mop .bool [.ofInt n x, .ofInt n y] =
      .ofInt 1 (op.exact x y).toInt := by
  have hcode : arithmeticCode mop [0, 1] =
      some (.compare op (.operand signed 0) (.operand signed 1)) := by
    rw [dualBinop_number, Option.some.injEq] at hmop
    cases signed <;> subst hmop <;> assumption
  rw [denote_compare I undef h hcode, hx.number_ofInt, hy.number_ofInt]

/-- The bits tell the numbers of a type apart. -/
theorem ofInt_inj (hx : (Ty.number signed n).HasNumber x)
    (hy : (Ty.number signed n).HasNumber y) : BitVec.ofInt n x = BitVec.ofInt n y ↔ x = y := by
  refine ⟨fun hbits => ?_, congrArg _⟩
  rw [← hx.number_ofInt, hbits, hy.number_ofInt]

theorem hasNumber_div_mod {op : BinaryOperator} (hop : op = .div ∨ op = .mod) {ty : Ty}
    (hx : (Ty.number signed n).HasNumber x) (hy : 0 < y) :
    (Ty.number signed n).HasNumber (operateBinary ty op x y) := by
  rcases hop with rfl | rfl
  · exact hasNumber_of_between hx (tdiv_between hy)
  · exact hasNumber_of_between hx (tmod_between hy)

/-- **Sums and differences.** -/
theorem denote_sum {op : BinaryOperator} (hop : op = .add ∨ op = .sub) {rhs : Expression}
    {mop : Op} (hmop : binaryOperator op (.number signed n) rhs = some mop)
    (hx : (Ty.number signed n).HasNumber x) (hy : (Ty.number signed n).HasNumber y) :
    (Ty.number signed (n + 1)).HasNumber (operateBinary (.number signed n) op x y) ∧
      (I.withArithmetic undef).denote h mop (.number signed (n + 1))
          [.ofInt n x, .ofInt n y] =
        .ofInt (n + 1) (operateBinary (.number signed n) op x y) := by
  have hty : (Ty.number signed (n + 1)).size ≠ 0 := by simp
  rcases hop with rfl | rfl
  · refine ⟨hasNumber_add hx hy, ?_⟩
    rw [denote_dual I undef h .add rfl rfl hmop hty hx hy (by simp), Ty.size_number]
    rfl
  · have hdenote := denote_dual I undef h .sub rfl rfl hmop hty hx hy (by simp)
    rw [Ty.size_number] at hdenote
    cases signed with
    | false =>
        refine ⟨hasNumber_wrap false n.succ_pos (x - y), hdenote.trans ?_⟩
        exact (ofInt_wrap false (n + 1) (x - y)).symm
    | true => exact ⟨hasNumber_sub hx hy, hdenote⟩

/-- **Products.** -/
theorem denote_product {rhs : Expression} {mop : Op}
    (hmop : binaryOperator .mul (.number signed m) rhs = some mop)
    (hx : (Ty.number signed m).HasNumber x) (hy : (Ty.number signed n).HasNumber y) :
    (I.withArithmetic undef).denote h mop (.number signed (m + n)) [.ofInt m x, .ofInt n y] =
      .ofInt (m + n) (x * y) := by
  have hm := hx.size_pos
  rw [Ty.size_number] at hm
  have hty : (Ty.number signed (m + n)).size ≠ 0 := by
    rw [Ty.size_number]
    omega
  rw [denote_dual I undef h .mul rfl rfl hmop hty hx hy (by simp), Ty.size_number]
  rfl

/-- **Quotients and remainders.** -/
theorem denote_quotient {op : BinaryOperator} (hop : op = .div ∨ op = .mod) {rhs : Expression}
    {mop : Op} (hmop : binaryOperator op (.number signed n) rhs = some mop)
    (hx : (Ty.number signed n).HasNumber x) (hy : (Ty.number signed n).HasNumber y)
    (hpos : 0 < y) :
    (I.withArithmetic undef).denote h mop (.number signed n) [.ofInt n x, .ofInt n y] =
      .ofInt n (operateBinary (.number signed n) op x y) := by
  have hsize : (Ty.number signed n).size = n := Ty.size_number
  rcases hop with rfl | rfl
  · obtain ⟨-, hmop⟩ := Option.ite_none_right_eq_some.mp hmop
    have hdenote := denote_dual I undef h .div rfl rfl hmop hx.size_pos.ne' hx hy fun _ => hpos.ne'
    rwa [hsize] at hdenote
  · obtain ⟨-, hmop⟩ := Option.ite_none_right_eq_some.mp hmop
    have hdenote := denote_dual I undef h .mod rfl rfl hmop hx.size_pos.ne' hx hy fun _ => hpos.ne'
    rwa [hsize] at hdenote

/-- **Shifts.** The amount is read without sign. -/
theorem denote_shifted {op : BinaryOperator}
    (hop : op = .leftShift ∨ op = .rightShift ∨ op = .arithmeticRightShift) {rhs : Expression}
    {mop : Op} (hmop : binaryOperator op (.number signed n) rhs = some mop) (hn : 0 < n)
    (x y : ℤ) :
    (Ty.number signed n).HasNumber (operateBinary (.number signed n) op x y) ∧
      (I.withArithmetic undef).denote h mop (.number signed n) [.ofInt n x, .ofInt n y] =
        .ofInt n (operateBinary (.number signed n) op x y) := by
  have hsize : (Ty.number signed n).size = n := Ty.size_number
  rcases hop with rfl | rfl | rfl <;> obtain rfl := Option.some.inj hmop <;>
    refine ⟨hasNumber_wrap signed hn _, ?_⟩ <;>
    simp only [operateBinary, unsignedBits, signedBits, hsize, ofInt_wrap]
  · rw [denote_shift I undef h hsize hn.ne' rfl (by simp), number_false_ofInt]
    exact BitString.ofInt_congr ((Int.mod_modEq x _).mul_right _)
  · rw [denote_shift I undef h hsize hn.ne' rfl (by simp), number_false_ofInt]
    rfl
  · rw [denote_shift I undef h hsize hn.ne' rfl (by simp), VerilogOperators.number, if_pos rfl,
      BitVec.toInt_ofInt]
    rfl

/-- **Bitwise operations.** -/
theorem denote_bits {op : BinaryOperator}
    (hop : op = .bitwiseAnd ∨ op = .bitwiseOr ∨ op = .bitwiseXor) {rhs : Expression} {mop : Op}
    (hmop : binaryOperator op (.number signed n) rhs = some mop)
    (hx : (Ty.number signed n).HasNumber x) (hy : (Ty.number signed n).HasNumber y) :
    (Ty.number signed n).HasNumber (operateBinary (.number signed n) op x y) ∧
      (I.withArithmetic undef).denote h mop (.number signed n) [.ofInt n x, .ofInt n y] =
        .ofInt n (operateBinary (.number signed n) op x y) := by
  have hsize : (Ty.number signed n).size = n := Ty.size_number
  have hn : n ≠ 0 := hsize ▸ hx.size_pos.ne'
  rcases hop with rfl | rfl | rfl <;> obtain rfl := Option.some.inj hmop
  · refine ⟨?_, denote_bitwise I undef h (Or.inl rfl) hsize hn rfl⟩
    exact hasNumber_bitwise TwosComplement.Fits.land (fun _ _ => rfl) hx hy
  · refine ⟨?_, denote_bitwise I undef h (Or.inr (Or.inl rfl)) hsize hn rfl⟩
    exact hasNumber_bitwise TwosComplement.Fits.lor (fun _ _ => rfl) hx hy
  · refine ⟨?_, denote_bitwise I undef h (Or.inr (Or.inr rfl)) hsize hn rfl⟩
    exact hasNumber_bitwise TwosComplement.Fits.xor (fun _ _ => rfl) hx hy

/-- **Comparisons.** -/
theorem denote_comparison {op : BinaryOperator}
    (hop : op = .eq ∨ op = .notEq ∨ op = .gt ∨ op = .lt ∨ op = .ge ∨ op = .le)
    {rhs : Expression} {mop : Op} (hmop : binaryOperator op (.number signed n) rhs = some mop)
    (hx : (Ty.number signed n).HasNumber x) (hy : (Ty.number signed n).HasNumber y) :
    (I.withArithmetic undef).denote h mop .bool [.ofInt n x, .ofInt n y] =
      .ofInt 1 (operateBinary (.number signed n) op x y) := by
  rcases hop with rfl | rfl | rfl | rfl | rfl | rfl
  · obtain rfl := Option.some.inj hmop
    have hbits : ((BitString.ofInt n x).toNat == (BitString.ofInt n y).toNat) =
        decide (x = y) := by
      rw [Bool.beq_eq_decide_eq, ← bitsOf_ofInt, ← bitsOf_ofInt, toNat_bitsOf, toNat_bitsOf]
      exact decide_eq_decide.mpr (BitVec.toNat_inj.trans (ofInt_inj hx hy))
    rw [Interp.denote_eq, hbits, operateBinary]
    cases decide (x = y) <;> rfl
  · obtain rfl := Option.some.inj hmop
    have hcode : arithmeticCode .notEq [0, 1] =
        some (.compare .ne (.operand false 0) (.operand false 1)) := rfl
    have hne : VerilogOperators.number false (BitVec.ofInt n x) ≠
        VerilogOperators.number false (BitVec.ofInt n y) ↔ x ≠ y :=
      not_congr ⟨fun heq => (ofInt_inj hx hy).mp (VerilogOperators.number_injective heq),
        fun heq => heq ▸ rfl⟩
    rw [denote_compare I undef h hcode, VerilogOperators.Comparison.exact, operateBinary]
    exact congrArg (fun b : Bool => BitString.ofInt 1 b.toInt) (decide_eq_decide.mpr hne)
  · exact denote_dualComparison I undef h .gt rfl rfl hmop hx hy
  · exact denote_dualComparison I undef h .lt rfl rfl hmop hx hy
  · exact denote_dualComparison I undef h .ge rfl rfl hmop hx hy
  · exact denote_dualComparison I undef h .le rfl rfl hmop hx hy

/-- **Conditions.** The cases are those of a truth table. -/
theorem denote_logical {op : BinaryOperator}
    (hop : op = .logicalAnd ∨ op = .logicalOr ∨ op = .logicalXor) {rhs : Expression} {mop : Op}
    (hmop : binaryOperator op .bool rhs = some mop) (hx : Ty.bool.HasNumber x)
    (hy : Ty.bool.HasNumber y) :
    (I.withArithmetic undef).denote h mop .bool [.ofInt 1 x, .ofInt 1 y] =
      .ofInt 1 (operateBinary .bool op x y) := by
  have hxor : arithmeticCode .logicalXor [0, 1] =
      some (.arith .xor (.operand false 0) (.operand false 1)) := rfl
  obtain ⟨hx, hx'⟩ := hx
  obtain ⟨hy, hy'⟩ := hy
  obtain rfl | rfl : x = 0 ∨ x = 1 := by omega
  all_goals
    obtain rfl | rfl : y = 0 ∨ y = 1 := by omega
    all_goals
      rcases hop with rfl | rfl | rfl <;> obtain rfl := Option.some.inj hmop
      · rw [Interp.denote_logicalAnd]
        decide
      · rw [denote_connect I undef h rfl]
        decide
      · rw [denote_arith I undef h (by decide) hxor (by simp)]
        decide

/-- **One binary operator.** -/
theorem denote_binary {op : BinaryOperator} {a b ty : Ty} (hop : BinaryTyped op a b ty)
    {rhs : Expression} {mop : Op} (hmop : binaryOperator op a rhs = some mop)
    (hx : a.HasNumber x) (hy : b.HasNumber y) (hdiv : op = .div ∨ op = .mod → 0 < y) :
    ty.HasNumber (operateBinary a op x y) ∧
      (I.withArithmetic undef).denote h mop ty [.ofInt a.size x, .ofInt b.size y] =
        .ofInt ty.size (operateBinary a op x y) := by
  rcases hop with ⟨hop, signed, n⟩ | ⟨signed, m, n⟩ | ⟨hop, signed, n⟩ | ⟨hop, signed, n⟩ | hop
  · simp only [Ty.size_number]
    exact denote_sum I undef h hop hmop hx hy
  · simp only [Ty.size_number]
    exact ⟨hasNumber_mul hx hy, denote_product I undef h hmop hx hy⟩
  · have hn := hx.size_pos
    simp only [Ty.size_number] at hn ⊢
    rcases hop with hop | hop | hop | hop | hop | hop | hop | hop
    · exact ⟨hasNumber_div_mod (Or.inl hop) hx (hdiv (Or.inl hop)),
        denote_quotient I undef h (Or.inl hop) hmop hx hy (hdiv (Or.inl hop))⟩
    · exact ⟨hasNumber_div_mod (Or.inr hop) hx (hdiv (Or.inr hop)),
        denote_quotient I undef h (Or.inr hop) hmop hx hy (hdiv (Or.inr hop))⟩
    · exact denote_shifted I undef h (Or.inl hop) hmop hn x y
    · exact denote_shifted I undef h (Or.inr (Or.inl hop)) hmop hn x y
    · exact denote_shifted I undef h (Or.inr (Or.inr hop)) hmop hn x y
    · exact denote_bits I undef h (Or.inl hop) hmop hx hy
    · exact denote_bits I undef h (Or.inr (Or.inl hop)) hmop hx hy
    · exact denote_bits I undef h (Or.inr (Or.inr hop)) hmop hx hy
  · simp only [Ty.size_number]
    refine ⟨?_, denote_comparison I undef h hop hmop hx hy⟩
    rcases hop with rfl | rfl | rfl | rfl | rfl | rfl <;> exact hasNumber_toInt _
  · refine ⟨?_, denote_logical I undef h hop hmop hx hy⟩
    rcases hop with rfl | rfl | rfl <;> exact hasNumber_toInt _

/-- **One unary operator.** -/
theorem denote_unary {op : UnaryOperator} {a ty : Ty} (hop : UnaryTyped op a ty)
    (hx : a.HasNumber x) :
    ty.HasNumber (operateUnary a op x) ∧
      (I.withArithmetic undef).denote h (unaryOperator op) ty [.ofInt a.size x] =
        .ofInt ty.size (operateUnary a op x) := by
  rcases hop with n | ⟨signed, n⟩ | _ | ⟨hop, ty⟩
  · have hn : 0 < n := hx.size_pos
    have hdenote : (I.withArithmetic undef).denote h .uSub (.int n) [.ofInt n x] =
        .ofInt n (-(x % 2 ^ n)) := denote_neg I undef h hn.ne'
    refine ⟨hasNumber_wrap true hn (-x), hdenote.trans ?_⟩
    refine (BitString.ofInt_congr ?_).trans (ofInt_wrap true n (-x)).symm
    exact (Int.mod_modEq x _).neg
  · have hn := hx.size_pos
    rw [Ty.size_number] at hn
    refine ⟨hasNumber_wrap signed hn _, ?_⟩
    have hdenote := denote_invert I undef h (m := n) (x := x) hx.size_pos.ne'
    rw [Ty.size_number] at hdenote
    rw [Ty.size_number, operateUnary, ofInt_wrap]
    refine hdenote.trans (BitString.ofInt_congr ?_)
    rw [lnot_eq]
    exact (Int.mod_modEq x _).neg.sub rfl
  · refine ⟨hasNumber_toInt _, ?_⟩
    refine (Interp.denote_not _ h).trans ?_
    obtain ⟨hx, hx'⟩ := hx
    obtain rfl | rfl : x = 0 ∨ x = 1 := by omega
    all_goals decide
  · rcases hop with rfl | rfl <;> exact ⟨hx, rfl⟩

end Operators

/-! ### Expressions -/

section Lowering

variable {ctx : ExpressionContext} {ρ : ValueName → BitString} {values : Expression → ℤ}
  {e : Expression} {ty : Ty}

/-- The variable of an expression carries a number of the type. -/
def Carries (ctx : ExpressionContext) (ρ : ValueName → BitString) (e : Expression) (ty : Ty)
    (v : ℤ) : Prop :=
  ∃ x, ctx.variable e = some x ∧ ty.HasNumber v ∧ ρ x = BitString.ofInt ty.size v

theorem evaluate_of_isPart (h : isPart e = true) : ctx.evaluate values e = values e := by
  cases e <;> first | rfl | cases h

theorem parts_of_isPart (h : isPart e = true) : parts e = [e] := by
  cases e <;> first | rfl | cases h

/-- A divisor that is accepted is positive. -/
theorem evaluate_pos_of_isPowerOfTwo (h : isPowerOfTwo e = true) :
    0 < ctx.evaluate values e := by
  cases e with
  | intLiteral id value kind =>
      obtain ⟨k, -, hk⟩ := List.any_eq_true.mp h
      rw [ExpressionContext.evaluate, beq_iff_eq.mp hk]
      positivity
  | _ => cases h

theorem isPowerOfTwo_of_binaryOperator {op : BinaryOperator} {a : Ty} {rhs : Expression} {mop : Op}
    (h : binaryOperator op a rhs = some mop) (hop : op = .div ∨ op = .mod) :
    isPowerOfTwo rhs = true := by
  rcases hop with rfl | rfl <;> exact (Option.ite_none_right_eq_some.mp h).1

/-- There is an operator unless the divisor is no power of two. -/
theorem binaryOperator_isSome_iff {op : BinaryOperator} {a b ty : Ty} (h : BinaryTyped op a b ty)
    {rhs : Expression} : (binaryOperator op a rhs).isSome = true ↔
      ((op = .div ∨ op = .mod) → isPowerOfTwo rhs = true) := by
  rcases h with ⟨rfl | rfl, signed, n⟩ | ⟨signed, m, n⟩ | ⟨hop, signed, n⟩ | ⟨hop, signed, n⟩ | hop
  · simp [binaryOperator, dualBinop_number]
  · simp [binaryOperator, dualBinop_number]
  · simp [binaryOperator, dualBinop_number]
  · rcases hop with rfl | rfl | rfl | rfl | rfl | rfl | rfl | rfl <;>
      simp [binaryOperator, dualBinop_number]
  · rcases hop with rfl | rfl | rfl | rfl | rfl | rfl <;> simp [binaryOperator, dualBinop_number]
  · rcases hop with rfl | rfl | rfl <;> simp [binaryOperator]

theorem ExpressionContext.Typed.type_eq (h : ctx.Typed e ty) : ctx.type e = some ty := by
  cases h <;> assumption

theorem toNat_condition {v : ℤ} (h : Ty.bool.HasNumber v) :
    (BitString.ofInt Ty.bool.size v).toNat ≠ 0 ↔ v ≠ 0 := by
  obtain ⟨hlo, hhi⟩ := h
  obtain rfl | rfl : v = 0 ∨ v = 1 := by omega
  all_goals decide

/-- A binary operator is lowered to its operands and its binding. -/
theorem lower_binaryOperator_eq_some {id : ℕ} {lhs rhs : Expression} {op : BinaryOperator}
    {stmts : List Mir.Statement} :
    ctx.lower (.binaryOperator id lhs op rhs) = some stmts ↔
      ∃ selfType lhsStatements rhsStatements lhsType mop l r,
        (ctx.typeOfId id).toMirType = some selfType ∧ ctx.lower lhs = some lhsStatements ∧
        ctx.lower rhs = some rhsStatements ∧ ctx.type lhs = some lhsType ∧
        binaryOperator op lhsType rhs = some mop ∧ ctx.variable lhs = some l ∧
        ctx.variable rhs = some r ∧
        lhsStatements ++ rhsStatements ++ [bindExpression id mop [l, r] selfType] = stmts := by
  simp only [ExpressionContext.lower, ExpressionContext.type, Option.bind_eq_bind,
    Option.bind_eq_some_iff, Option.some.injEq]
  constructor
  · rintro ⟨selfType, hty, lhsStatements, hl, rhsStatements, hr, lhsType, ht, mop, hmop, l, hl', r,
      hr', rfl⟩
    exact ⟨selfType, lhsStatements, rhsStatements, lhsType, mop, l, r, hty, hl, hr, ht, hmop, hl',
      hr', rfl⟩
  · rintro ⟨selfType, lhsStatements, rhsStatements, lhsType, mop, l, r, hty, hl, hr, ht, hmop, hl',
      hr', rfl⟩
    exact ⟨selfType, hty, lhsStatements, hl, rhsStatements, hr, lhsType, ht, mop, hmop, l, hl', r,
      hr', rfl⟩

theorem lower_unaryOperator_eq_some {id : ℕ} {operand : Expression} {op : UnaryOperator}
    {stmts : List Mir.Statement} :
    ctx.lower (.unaryOperator id op operand) = some stmts ↔
      ∃ selfType statements x,
        (ctx.typeOfId id).toMirType = some selfType ∧ ctx.lower operand = some statements ∧
        ctx.variable operand = some x ∧
        statements ++ [bindExpression id (unaryOperator op) [x] selfType] = stmts := by
  simp only [ExpressionContext.lower, Option.bind_eq_bind, Option.bind_eq_some_iff,
    Option.some.injEq]
  constructor
  · rintro ⟨selfType, hty, statements, hs, x, hx, rfl⟩
    exact ⟨selfType, statements, x, hty, hs, hx, rfl⟩
  · rintro ⟨selfType, statements, x, hty, hs, hx, rfl⟩
    exact ⟨selfType, hty, statements, hs, x, hx, rfl⟩

theorem lower_if_eq_some {id : ℕ} {cond onTrue onFalse : Expression}
    {stmts : List Mir.Statement} :
    ctx.lower (.if_ id cond onTrue onFalse) = some stmts ↔
      ∃ selfType condStatements trueStatements falseStatements c t f,
        (ctx.typeOfId id).toMirType = some selfType ∧ ctx.lower cond = some condStatements ∧
        ctx.lower onTrue = some trueStatements ∧ ctx.lower onFalse = some falseStatements ∧
        ctx.variable cond = some c ∧ ctx.variable onTrue = some t ∧
        ctx.variable onFalse = some f ∧
        condStatements ++ trueStatements ++ falseStatements ++
          [bindExpression id .select [c, t, f] selfType] = stmts := by
  simp only [ExpressionContext.lower, Option.bind_eq_bind, Option.bind_eq_some_iff,
    Option.some.injEq]
  constructor
  · rintro ⟨selfType, hty, condStatements, hc, trueStatements, ht, falseStatements, hf, c, hc', t,
      ht', f, hf', rfl⟩
    exact ⟨selfType, condStatements, trueStatements, falseStatements, c, t, f, hty, hc, ht, hf,
      hc', ht', hf', rfl⟩
  · rintro ⟨selfType, condStatements, trueStatements, falseStatements, c, t, f, hty, hc, ht, hf,
      hc', ht', hf', rfl⟩
    exact ⟨selfType, hty, condStatements, hc, trueStatements, ht, falseStatements, hf, c, hc', t,
      ht', f, hf', rfl⟩

/-- **Solutions.** The variable of an expression carries its number in every solution of its
statements. -/
theorem carries_of_lower (htyped : ctx.Typed e ty) {stmts : List Mir.Statement}
    (hlower : ctx.lower e = some stmts) {H : Type} (I : Interp H) (undef : (w : ℕ) → BitVec w)
    (hid : ValueName → H) (hsat : ∀ s ∈ stmts, Satisfied (I.withArithmetic undef) hid ρ s)
    (hparts : ∀ p ∈ parts e, ∀ t, ctx.type p = some t → Carries ctx ρ p t (values p)) :
    Carries ctx ρ e ty (ctx.evaluate values e) := by
  induction htyped generalizing stmts with
  | part he hty =>
      rw [evaluate_of_isPart he]
      exact hparts _ (by simp [parts_of_isPart he]) _ hty
  | @intLiteral id value kind signed n hty hvalue =>
      obtain ⟨t, ht, hstmts⟩ := Option.bind_eq_some_iff.mp hlower
      obtain rfl := Option.some.inj hstmts
      obtain rfl : t = .number signed n := Option.some.inj (ht.symm.trans hty)
      exact ⟨.expr id, rfl, hvalue, hsat _ List.mem_cons_self⟩
  | @boolLiteral id value hty =>
      obtain ⟨t, ht, hstmts⟩ := Option.bind_eq_some_iff.mp hlower
      obtain rfl := Option.some.inj hstmts
      obtain rfl : t = .bool := Option.some.inj (ht.symm.trans hty)
      refine ⟨.expr id, rfl, hasNumber_toInt value, (hsat _ List.mem_cons_self).trans ?_⟩
      cases value <;> rfl
  | @binaryOperator id lhs rhs op a b ty hlhs hrhs hop hty ihl ihr =>
      obtain ⟨t, lhsStatements, rhsStatements, lhsType, mop, l, r, ht, hl, hr, hlt, hmop, hl', hr',
        rfl⟩ := lower_binaryOperator_eq_some.mp hlower
      obtain rfl : t = ty := Option.some.inj (ht.symm.trans hty)
      obtain rfl : lhsType = a := Option.some.inj (hlt.symm.trans hlhs.type_eq)
      simp only [List.forall_mem_append, List.forall_mem_singleton] at hsat
      simp only [parts, List.forall_mem_append] at hparts
      obtain ⟨l', hvl, hx, hρl⟩ := ihl hl hsat.1.1 hparts.1
      obtain ⟨r', hvr, hy, hρr⟩ := ihr hr hsat.1.2 hparts.2
      obtain rfl : l = l' := Option.some.inj (hl'.symm.trans hvl)
      obtain rfl : r = r' := Option.some.inj (hr'.symm.trans hvr)
      obtain ⟨hvalue, hdenote⟩ := denote_binary I undef (hid (.expr id)) hop hmop hx hy fun hdiv =>
        evaluate_pos_of_isPowerOfTwo (isPowerOfTwo_of_binaryOperator hmop hdiv)
      have hbinding := hsat.2
      simp only [bindExpression, Satisfied, List.map_cons, List.map_nil, hρl, hρr, hdenote]
        at hbinding
      rw [ExpressionContext.evaluate, hlt, Option.getD_some]
      exact ⟨.expr id, rfl, hvalue, hbinding⟩
  | @unaryOperator id operand op a ty hoperand hop hty ih =>
      obtain ⟨t, statements, x, ht, hs, hx', rfl⟩ := lower_unaryOperator_eq_some.mp hlower
      obtain rfl : t = ty := Option.some.inj (ht.symm.trans hty)
      simp only [List.forall_mem_append, List.forall_mem_singleton] at hsat
      obtain ⟨x', hvx, hx, hρ⟩ := ih hs hsat.1 hparts
      obtain rfl : x = x' := Option.some.inj (hx'.symm.trans hvx)
      obtain ⟨hvalue, hdenote⟩ := denote_unary I undef (hid (.expr id)) hop hx
      have hbinding := hsat.2
      simp only [bindExpression, Satisfied, List.map_cons, List.map_nil, hρ, hdenote] at hbinding
      rw [ExpressionContext.evaluate, hoperand.type_eq, Option.getD_some]
      exact ⟨.expr id, rfl, hvalue, hbinding⟩
  | @if_ id cond onTrue onFalse ty hcond htrue hfalse hty ihc iht ihf =>
      obtain ⟨t, condStatements, trueStatements, falseStatements, c, vt, vf, ht, hc, hst, hsf, hc',
        ht', hf', rfl⟩ := lower_if_eq_some.mp hlower
      obtain rfl : t = ty := Option.some.inj (ht.symm.trans hty)
      simp only [List.forall_mem_append, List.forall_mem_singleton] at hsat
      simp only [parts, List.forall_mem_append] at hparts
      obtain ⟨_, hvc, hcvalue, hρc⟩ := ihc hc hsat.1.1.1 hparts.1
      obtain ⟨_, hvt, htvalue, hρt⟩ := iht hst hsat.1.1.2 hparts.2.1
      obtain ⟨_, hvf, hfvalue, hρf⟩ := ihf hsf hsat.1.2 hparts.2.2
      obtain rfl := Option.some.inj (hc'.symm.trans hvc)
      obtain rfl := Option.some.inj (ht'.symm.trans hvt)
      obtain rfl := Option.some.inj (hf'.symm.trans hvf)
      have hbinding := hsat.2
      simp only [bindExpression, Satisfied, List.map_cons, List.map_nil, hρc, hρt, hρf] at hbinding
      rw [Interp.denote_select _ _ (BitString.length_ofInt ..) (BitString.length_ofInt ..)]
        at hbinding
      rw [ExpressionContext.evaluate]
      by_cases h : ctx.evaluate values cond ≠ 0
      · rw [if_pos ((toNat_condition hcvalue).mpr h)] at hbinding
        rw [if_pos h]
        exact ⟨.expr id, rfl, htvalue, hbinding⟩
      · rw [if_neg (mt (toNat_condition hcvalue).mp h)] at hbinding
        rw [if_neg h]
        exact ⟨.expr id, rfl, hfvalue, hbinding⟩

theorem ExpressionContext.Typed.variable_isSome (h : ctx.Typed e ty)
    (hparts : ∀ p ∈ parts e, (ctx.variable p).isSome = true) :
    (ctx.variable e).isSome = true := by
  cases h with
  | part he hty => exact hparts e (by simp [parts_of_isPart he])
  | _ => rfl

/-- **Acceptance.** An expression is lowered exactly when its divisors are powers of two. -/
theorem lower_isSome_iff (htyped : ctx.Typed e ty)
    (hparts : ∀ p ∈ parts e, (ctx.lower p).isSome = true ∧ (ctx.variable p).isSome = true) :
    (ctx.lower e).isSome = true ↔ DividesByPowers e := by
  induction htyped with
  | @part e ty he hty =>
      refine iff_of_true (hparts e (by simp [parts_of_isPart he])).1 ?_
      cases e <;> trivial
  | @intLiteral id value kind signed n hty hvalue =>
      have hlower : ctx.lower (.intLiteral id value kind) =
          some [.constant id (.number signed n) (.int value)] :=
        Option.bind_eq_some_iff.mpr ⟨_, hty, rfl⟩
      exact iff_of_true (hlower ▸ rfl) trivial
  | @boolLiteral id value hty =>
      have hlower : ctx.lower (.boolLiteral id value) = some [.constant id .bool (.bool value)] :=
        Option.bind_eq_some_iff.mpr ⟨_, hty, rfl⟩
      exact iff_of_true (hlower ▸ rfl) trivial
  | @binaryOperator id lhs rhs op a b ty hlhs hrhs hop hty ihl ihr =>
      simp only [parts, List.forall_mem_append] at hparts
      rw [DividesByPowers, ← ihl hparts.1, ← ihr hparts.2, ← binaryOperator_isSome_iff hop]
      simp only [Option.isSome_iff_exists, lower_binaryOperator_eq_some]
      constructor
      · rintro ⟨stmts, t, lhsStatements, rhsStatements, lhsType, mop, l, r, -, hl, hr, hlt, hmop, -⟩
        obtain rfl : lhsType = a := Option.some.inj (hlt.symm.trans hlhs.type_eq)
        exact ⟨⟨_, hl⟩, ⟨_, hr⟩, ⟨_, hmop⟩⟩
      · rintro ⟨⟨lhsStatements, hl⟩, ⟨rhsStatements, hr⟩, ⟨mop, hmop⟩⟩
        obtain ⟨l, hl'⟩ := Option.isSome_iff_exists.mp
          (hlhs.variable_isSome fun p hp => (hparts.1 p hp).2)
        obtain ⟨r, hr'⟩ := Option.isSome_iff_exists.mp
          (hrhs.variable_isSome fun p hp => (hparts.2 p hp).2)
        exact ⟨_, _, _, _, _, mop, l, r, hty, hl, hr, hlhs.type_eq, hmop, hl', hr', rfl⟩
  | @unaryOperator id operand op a ty hoperand hop hty ih =>
      rw [DividesByPowers, ← ih hparts]
      simp only [Option.isSome_iff_exists, lower_unaryOperator_eq_some]
      constructor
      · rintro ⟨stmts, t, statements, x, -, hs, -⟩
        exact ⟨_, hs⟩
      · rintro ⟨statements, hs⟩
        obtain ⟨x, hx⟩ := Option.isSome_iff_exists.mp
          (hoperand.variable_isSome fun p hp => (hparts p hp).2)
        exact ⟨_, _, _, x, hty, hs, hx, rfl⟩
  | @if_ id cond onTrue onFalse ty hcond htrue hfalse hty ihc iht ihf =>
      simp only [parts, List.forall_mem_append] at hparts
      rw [DividesByPowers, ← ihc hparts.1, ← iht hparts.2.1, ← ihf hparts.2.2]
      simp only [Option.isSome_iff_exists, lower_if_eq_some]
      constructor
      · rintro ⟨stmts, t, condStatements, trueStatements, falseStatements, c, vt, vf, -, hc, ht, hf,
          -⟩
        exact ⟨⟨_, hc⟩, ⟨_, ht⟩, ⟨_, hf⟩⟩
      · rintro ⟨⟨condStatements, hc⟩, ⟨trueStatements, ht⟩, ⟨falseStatements, hf⟩⟩
        obtain ⟨c, hc'⟩ := Option.isSome_iff_exists.mp
          (hcond.variable_isSome fun p hp => (hparts.1 p hp).2)
        obtain ⟨vt, ht'⟩ := Option.isSome_iff_exists.mp
          (htrue.variable_isSome fun p hp => (hparts.2.1 p hp).2)
        obtain ⟨vf, hf'⟩ := Option.isSome_iff_exists.mp
          (hfalse.variable_isSome fun p hp => (hparts.2.2 p hp).2)
        exact ⟨_, _, _, _, _, c, vt, vf, hty, hc, ht, hf, hc', ht', hf', rfl⟩

/-- **Integer expressions.** An expression is lowered exactly when its divisors are powers of two,
and then its variable carries its number in every solution of its statements. -/
theorem lower_computes (htyped : ctx.Typed e ty)
    (hlowers : ∀ p ∈ parts e, (ctx.lower p).isSome = true ∧ (ctx.variable p).isSome = true) :
    ((ctx.lower e).isSome = true ↔ DividesByPowers e) ∧
      ∀ stmts, ctx.lower e = some stmts →
        ∀ (H : Type) (I : Interp H) (undef : (w : ℕ) → BitVec w) (hid : ValueName → H)
          (ρ : ValueName → BitString) (values : Expression → ℤ),
          (∀ s ∈ stmts, Satisfied (I.withArithmetic undef) hid ρ s) →
          (∀ p ∈ parts e, ∀ t, ctx.type p = some t → Carries ctx ρ p t (values p)) →
          Carries ctx ρ e ty (ctx.evaluate values e) :=
  ⟨lower_isSome_iff htyped hlowers, fun _ hlower _ I undef hid _ _ hsat hparts =>
    carries_of_lower htyped hlower I undef hid hsat hparts⟩

end Lowering

/-- `(a - b) / 2` for two variables of type `int<2>`. -/
def halfDifference : Expression :=
  .binaryOperator 5
    (.binaryOperator 3 (.identifier 1 ⟨1, "a"⟩) .sub (.identifier 2 ⟨2, "b"⟩)) .div
    (.intLiteral 4 2 .unsized)

def halfContext : ExpressionContext where
  typeOfId id := .single .int [.integer (if id ≤ 2 then 2 else 3)]
  typeLevelInteger _ := none
  subs := .new
  currentStage := 0
  pipelineContext := none
  lowerRuntime _ _ _ := none

def halfStatements : List Mir.Statement :=
  [bindExpression 3 .sub [.named 1 "a", .named 2 "b"] (.int 3), .constant 4 (.int 3) (.int 2),
    bindExpression 5 .div [.expr 3, .expr 4] (.int 3)]

/-- The variables are `-2` and `1`. -/
def halfValues : Expression → ℤ
  | .identifier 1 _ => -2
  | _ => 1

def halfNets : ValueName → BitString
  | .named 1 _ => .ofInt 2 (-2)
  | .named _ _ => .ofInt 2 1
  | .expr 3 => .ofInt 3 (-3)
  | .expr 4 => .ofInt 3 2
  | .expr _ => .ofInt 3 (-1)

theorem halfDifference_typed : halfContext.Typed halfDifference (.number true 3) :=
  .binaryOperator
    (.binaryOperator (.part rfl rfl) (.part rfl rfl) (.sum (Or.inr rfl) true 2) rfl)
    (.intLiteral rfl (by decide)) (.same (Or.inl rfl) true 3) rfl

/-- The difference is `-3`, and half of it is rounded towards zero. -/
theorem lower_computes_halfDifference :
    DividesByPowers halfDifference ∧
      Carries halfContext halfNets halfDifference (.int 3) (-1) := by
  have hlower : halfContext.lower halfDifference = some halfStatements := rfl
  obtain ⟨hiff, hcarries⟩ := lower_computes halfDifference_typed (by decide)
  refine ⟨hiff.mp (hlower ▸ rfl), ?_⟩
  refine hcarries halfStatements hlower Unit plainInterp (fun w => 0#w) (fun _ => ()) halfNets
    halfValues (by decide) ?_
  simp only [halfDifference, parts, List.cons_append, List.nil_append, List.append_nil,
    List.forall_mem_cons, List.not_mem_nil, false_implies, implies_true, and_true]
  constructor
  · intro t ht
    obtain rfl := Option.some.inj ht
    exact ⟨_, rfl, by decide, by decide⟩
  · intro t ht
    obtain rfl := Option.some.inj ht
    exact ⟨_, rfl, by decide, by decide⟩

end Spade.HirLowering

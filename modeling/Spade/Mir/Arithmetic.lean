import Spade.Lib.VerilogOperators
import Spade.Mir.Semantics

/-!
# Code generation for integers

The operators on integers and conditions whose Verilog reads its operands as numbers, from
`forward_expression_code` in `spade-mir/src/codegen/mod.rs`, and what they give a binding.

* **Operands** (`vector_ofInt`): the net of a number that its type holds is read back as the number,
  with `$signed` for an `int` and without for a `uint`.
* **Results** (`denote_arithmetic`): a binding takes what its expression assigns to a target of the
  size of its type.
-/

namespace Spade.Mir

open VerilogOperators
open VerilogSizing (Vector)

/-! ### Emitted code -/

section Code

variable {ν : Type}

/-- `binop`. -/
def binop (f : Expr ν → Expr ν → Expr ν) : List ν → Option (Expr ν)
  | [a, b] => some (f (.operand false a) (.operand false b))
  | _ => none

/-- `signed_binop`. -/
def signedBinop (f : Expr ν → Expr ν → Expr ν) : List ν → Option (Expr ν)
  | [a, b] => some (f (.operand true a) (.operand true b))
  | _ => none

/-- `unop`. -/
def unop (f : Expr ν → Expr ν) : List ν → Option (Expr ν)
  | [a] => some (f (.ident a))
  | _ => none

/-- `forward_expression_code` for the operators on numbers: `none` where the source panics, and for
all other operators. -/
def arithmeticCode (operator : Op) (ops : List ν) : Option (Expr ν) :=
  match operator with
  | .add => signedBinop (.arith .add) ops
  | .unsignedAdd => binop (.arith .add) ops
  | .sub => signedBinop (.arith .sub) ops
  | .unsignedSub => binop (.arith .sub) ops
  | .mul => signedBinop (.arith .mul) ops
  | .unsignedMul => binop (.arith .mul) ops
  | .div => signedBinop (.arith .div) ops
  | .unsignedDiv => binop (.arith .div) ops
  | .mod => signedBinop (.arith .mod) ops
  | .unsignedMod => binop (.arith .mod) ops
  | .notEq => binop (.compare .ne) ops
  | .gt => signedBinop (.compare .gt) ops
  | .unsignedGt => binop (.compare .gt) ops
  | .lt => signedBinop (.compare .lt) ops
  | .unsignedLt => binop (.compare .lt) ops
  | .ge => signedBinop (.compare .ge) ops
  | .unsignedGe => binop (.compare .ge) ops
  | .le => signedBinop (.compare .le) ops
  | .unsignedLe => binop (.compare .le) ops
  | .leftShift => binop (.shift .left) ops
  | .rightShift => binop (.shift .right) ops
  | .arithmeticRightShift => signedBinop (.shift .arithmeticRight) ops
  | .logicalOr => binop (.connect .or) ops
  | .logicalXor => binop (.arith .xor) ops
  | .bitwiseNot => unop .invert ops
  | .bitwiseAnd => binop (.arith .and) ops
  | .bitwiseOr => binop (.arith .or) ops
  | .bitwiseXor => binop (.arith .xor) ops
  | .uSub => unop .neg ops
  | _ => none

end Code

/-! ### Values -/

/-- The net of a value with the given bits, which is declared with their number. -/
def vector (bits : BitString) : Vector := ⟨bits.length, BitVec.ofNat bits.length bits.toNat⟩

/-- The bits of a word. -/
def bitsOf {w : ℕ} (x : BitVec w) : BitString := BitString.ofNat w x.toNat

/-- The nets of operands, which are called by their positions. -/
def operandNets (vals : List BitString) (i : ℕ) : Vector := vector (vals.getD i [])

/-- The bits that an operator on numbers gives a binding. -/
def arithmeticValue (undef : (w : ℕ) → BitVec w) (operator : Op) (ty : Ty) (vals : List BitString) :
    Option BitString := do
  let e ← arithmeticCode operator (List.range vals.length)
  some (bitsOf (e.assigned undef (operandNets vals) ty.size))

variable {H : Type}

/-- The interpretation in which the operators on numbers compute what their Verilog does. -/
def Interp.withArithmetic (I : Interp H) (undef : (w : ℕ) → BitVec w) : Interp H where
  out operator ty h vals := (arithmeticValue undef operator ty vals).getD (I.out operator ty h vals)
  next := I.next
  pad := I.pad
  highImp := I.highImp

/-- The operators on numbers are no others. -/
theorem forwardExpressionCode_of_arithmeticCode {ν : Type} {operator : Op} {ops : List ν}
    {e : Expr ν} (h : arithmeticCode operator ops = some e) :
    operator.isAlias = false ∧ operator.isMatch = false ∧
      ∀ (ν' : Type) (ty : Ty) (ops' : List ν'), forwardExpressionCode operator ty ops' = none := by
  cases operator <;> first | exact ⟨rfl, rfl, fun _ _ _ => rfl⟩ | cases h

/-- **Results.** -/
theorem denote_arithmetic (I : Interp H) (undef : (w : ℕ) → BitVec w) (h : H) {operator : Op}
    {ty : Ty} {vals : List BitString} {e : Expr ℕ} (hty : ty.size ≠ 0)
    (hcode : arithmeticCode operator (List.range vals.length) = some e) :
    (I.withArithmetic undef).denote h operator ty vals =
      bitsOf (e.assigned undef (operandNets vals) ty.size) := by
  obtain ⟨halias, hmatch, hforward⟩ := forwardExpressionCode_of_arithmeticCode hcode
  have hvalue : arithmeticValue undef operator ty vals =
      some (bitsOf (e.assigned undef (operandNets vals) ty.size)) := by
    rw [arithmeticValue, hcode]
    rfl
  rw [Interp.denote, if_neg (by simp [halias]), if_neg (by simp [hmatch]), hforward,
    assigned_none hty, Option.getD_none]
  exact congrArg (Option.getD · _) hvalue

/-! ### Numbers and their bits -/

/-- The type of signed or unsigned integers of a size. -/
def Ty.number (signed : Bool) (size : ℕ) : Ty := if signed then .int size else .uint size

/-- A type with bits holds a number. The numbers of a bool are 0 and 1. -/
def Ty.HasNumber : Ty → ℤ → Prop
  | .int size, v => 0 < size ∧ -2 ^ (size - 1) ≤ v ∧ v < 2 ^ (size - 1)
  | .uint size, v => 0 < size ∧ 0 ≤ v ∧ v < 2 ^ size
  | .bool, v => 0 ≤ v ∧ v < 2
  | _, _ => False

instance (ty : Ty) (v : ℤ) : Decidable (ty.HasNumber v) := by
  cases ty <;> unfold Ty.HasNumber <;> infer_instance

theorem bitsOf_ofInt (w : ℕ) (v : ℤ) : bitsOf (BitVec.ofInt w v) = BitString.ofInt w v := by
  rw [bitsOf, BitVec.toNat_ofInt, Nat.cast_pow]
  rfl

theorem toNat_bitsOf {w : ℕ} (x : BitVec w) : (bitsOf x).toNat = x.toNat :=
  BitString.toNat_ofNat_of_lt x.isLt

theorem vector_ofInt (w : ℕ) (v : ℤ) :
    vector (BitString.ofInt w v) = ⟨w, BitVec.ofInt w v⟩ := by
  have hlength : ∀ n k, n = w → (⟨n, BitVec.ofNat n k⟩ : Vector) = ⟨w, BitVec.ofNat w k⟩ := by
    rintro n k rfl
    rfl
  rw [vector, hlength _ _ (BitString.length_ofInt w v), ← bitsOf_ofInt, toNat_bitsOf,
    BitVec.ofNat_toNat, BitVec.setWidth_eq]

/-- The net of a number, read without its sign. -/
theorem number_false_ofInt (w : ℕ) (v : ℤ) :
    VerilogOperators.number false (BitVec.ofInt w v) = v % 2 ^ w := by
  have hnonneg : 0 ≤ v % 2 ^ w := Int.emod_nonneg v (Int.pow_pos (by decide)).ne'
  rw [VerilogOperators.number, if_neg Bool.false_ne_true, BitVec.toNat_ofInt, Nat.cast_pow]
  exact Int.toNat_of_nonneg hnonneg

section HasNumber

variable {signed : Bool} {n : ℕ} {v : ℤ}

@[simp] theorem Ty.size_number : (Ty.number signed n).size = n := by
  cases signed <;> rfl

theorem Ty.HasNumber.size_pos {ty : Ty} (h : ty.HasNumber v) : 0 < ty.size := by
  cases ty <;> simp_all [Ty.HasNumber, Ty.size]

/-- The net of a number is read back as the number. -/
theorem Ty.HasNumber.number_ofInt (h : (Ty.number signed n).HasNumber v) :
    VerilogOperators.number signed (BitVec.ofInt n v) = v := by
  cases signed with
  | false =>
      obtain ⟨-, hlo, hhi⟩ := h
      rw [number_false_ofInt, Int.emod_eq_of_lt hlo hhi]
  | true =>
      obtain ⟨hpos, hlo, hhi⟩ := h
      exact BitVec.toInt_ofInt_eq_self hpos hlo hhi

end HasNumber

/-! ### Bindings on the nets of numbers -/

section Bindings

variable (I : Interp H) (undef : (w : ℕ) → BitVec w) (h : H) {operator : Op} {ty : Ty} {m n : ℕ}
  {x y : ℤ}

/-- The nets of two numbers. -/
theorem operandNets_pair (m n : ℕ) (x y : ℤ) :
    operandNets [.ofInt m x, .ofInt n y] 0 = ⟨m, BitVec.ofInt m x⟩ ∧
      operandNets [.ofInt m x, .ofInt n y] 1 = ⟨n, BitVec.ofInt n y⟩ :=
  ⟨vector_ofInt m x, vector_ofInt n y⟩

theorem bitsOf_ofBool (b : Bool) : bitsOf (BitVec.ofBool b) = BitString.ofInt 1 b.toInt := by
  cases b <;> rfl

theorem denote_arith {signed : Bool} {op : Arith} (hty : ty.size ≠ 0)
    (hcode : arithmeticCode operator [0, 1] =
      some (.arith op (.operand signed 0) (.operand signed 1)))
    (hdiv : op = .div ∨ op = .mod → VerilogOperators.number signed (BitVec.ofInt n y) ≠ 0) :
    (I.withArithmetic undef).denote h operator ty [.ofInt m x, .ofInt n y] =
      .ofInt ty.size (op.exact (VerilogOperators.number signed (BitVec.ofInt m x))
        (VerilogOperators.number signed (BitVec.ofInt n y))) := by
  obtain ⟨hx, hy⟩ := operandNets_pair m n x y
  rw [denote_arithmetic I undef h hty hcode, Expr.assigned_arith _ _ (by rwa [hy]), hx, hy,
    bitsOf_ofInt]

theorem denote_shift {signed : Bool} {op : Shift} (hty : ty.size = n) (hn : n ≠ 0)
    (hcode : arithmeticCode operator [0, 1] =
      some (.shift op (.operand signed 0) (.operand signed 1)))
    (hop : op = .right → signed = false) :
    (I.withArithmetic undef).denote h operator ty [.ofInt n x, .ofInt n y] =
      .ofInt n (op.exact (VerilogOperators.number signed (BitVec.ofInt n x))
        (y % 2 ^ n).toNat) := by
  obtain ⟨hx, hy⟩ := operandNets_pair n n x y
  have hwidth : ty.size = (operandNets [.ofInt n x, .ofInt n y] 0).width := by
    rw [hx, hty]
  rw [denote_arithmetic I undef h (hty ▸ hn) hcode, hwidth, Expr.assigned_shift _ _ hop,
    bitsOf_ofInt, hx, hy, BitVec.toNat_ofInt, Nat.cast_pow]
  rfl

theorem denote_compare {signed : Bool} {op : Comparison}
    (hcode : arithmeticCode operator [0, 1] =
      some (.compare op (.operand signed 0) (.operand signed 1))) :
    (I.withArithmetic undef).denote h operator .bool [.ofInt m x, .ofInt n y] =
      .ofInt 1 (op.exact (VerilogOperators.number signed (BitVec.ofInt m x))
        (VerilogOperators.number signed (BitVec.ofInt n y))).toInt := by
  obtain ⟨hx, hy⟩ := operandNets_pair m n x y
  rw [denote_arithmetic I undef h (by decide) hcode]
  refine (congrArg bitsOf (Expr.assigned_compare 0 1 op)).trans ?_
  rw [hx, hy, bitsOf_ofBool]

theorem denote_connect {op : Connective}
    (hcode : arithmeticCode operator [0, 1] =
      some (.connect op (.operand false 0) (.operand false 1))) :
    (I.withArithmetic undef).denote h operator .bool [.ofInt m x, .ofInt n y] =
      .ofInt 1
        (op.exact ((BitVec.ofInt m x).toNat != 0) ((BitVec.ofInt n y).toNat != 0)).toInt := by
  obtain ⟨hx, hy⟩ := operandNets_pair m n x y
  rw [denote_arithmetic I undef h (by decide) hcode]
  refine (congrArg bitsOf (Expr.assigned_connect 0 1 op)).trans ?_
  rw [hx, hy, bitsOf_ofBool]

/-- The bits of the operands decide a bitwise operation on numbers of the size of the result. -/
theorem denote_bitwise {op : Arith} (hop : op = .and ∨ op = .or ∨ op = .xor) (hty : ty.size = n)
    (hn : n ≠ 0)
    (hcode : arithmeticCode operator [0, 1] =
      some (.arith op (.operand false 0) (.operand false 1))) :
    (I.withArithmetic undef).denote h operator ty [.ofInt n x, .ofInt n y] =
      .ofInt n (op.exact x y) := by
  have hmod (v : ℤ) : BitVec.ofInt n (VerilogOperators.number false (BitVec.ofInt n v)) =
      BitVec.ofInt n v := ofInt_number false _
  rw [denote_arith I undef h (hty ▸ hn) hcode (by rcases hop with rfl | rfl | rfl <;> simp), hty,
    ← bitsOf_ofInt, ← bitsOf_ofInt]
  rcases hop with rfl | rfl | rfl
  · rw [Arith.exact, Arith.exact, ofInt_land, ofInt_land, hmod, hmod]
  · rw [Arith.exact, Arith.exact, ofInt_lor, ofInt_lor, hmod, hmod]
  · rw [Arith.exact, Arith.exact, ofInt_xor, ofInt_xor, hmod, hmod]

theorem denote_neg (hty : ty.size ≠ 0) :
    (I.withArithmetic undef).denote h .uSub ty [.ofInt m x] = .ofInt ty.size (-(x % 2 ^ m)) := by
  have hx : operandNets [.ofInt m x] 0 = ⟨m, BitVec.ofInt m x⟩ := vector_ofInt m x
  have hcode : arithmeticCode .uSub [0] = some (Expr.neg (.ident 0)) := rfl
  rw [denote_arithmetic I undef h hty hcode, Expr.assigned_neg, bitsOf_ofInt, hx,
    number_false_ofInt]

theorem denote_invert (hty : ty.size ≠ 0) :
    (I.withArithmetic undef).denote h .bitwiseNot ty [.ofInt m x] =
      .ofInt ty.size (Int.lnot (x % 2 ^ m)) := by
  have hx : operandNets [.ofInt m x] 0 = ⟨m, BitVec.ofInt m x⟩ := vector_ofInt m x
  have hcode : arithmeticCode .bitwiseNot [0] = some (Expr.invert (.ident 0)) := rfl
  rw [denote_arithmetic I undef h hty hcode, Expr.assigned_invert, bitsOf_ofInt, hx,
    number_false_ofInt]

end Bindings

end Spade.Mir

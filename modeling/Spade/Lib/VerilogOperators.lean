import Mathlib.Data.Int.Bitwise
import Spade.Lib.SignedBits
import Spade.Lib.VerilogSizing

/-!
# The operators of Verilog on integers

The arithmetic, bitwise, shift, comparison and logical operators of Verilog under its rules for
sizing and signedness. The operands of an arithmetic or bitwise operator are evaluated in the size
of their context, the operands of a comparison in a context of their own, and the amount of a shift
and the operand of `$signed` on their own. `ν` is the type of identifiers, which are declared
without `signed`. The result of a division by zero is a parameter.

* **Arithmetic** (`assigned_arith`): a target takes the number computed without bounds, modulo the
  power of two of its width.
* **Shifts and comparisons** (`assigned_shift`, `assigned_compare`): the numbers of the operands
  decide, as `$signed` says how to read them.
-/

namespace VerilogOperators

open VerilogSizing (Vector extend)

/-! ### Words -/

/-- The number that a word denotes, read as signed or not. -/
def number (signed : Bool) {w : ℕ} (x : BitVec w) : ℤ := if signed then x.toInt else x.toNat

/-- The operators with operands in the size of the context. -/
inductive Arith where
  | add | sub | mul | div | mod | and | or | xor

/-- The shifts: `<<`, `>>` and `>>>`. -/
inductive Shift where
  | left | right | arithmeticRight

/-- The comparisons. -/
inductive Comparison where
  | eq | ne | gt | lt | ge | le

/-- The operators on conditions. -/
inductive Connective where
  | and | or

/-- The operator on conditions. -/
def Connective.exact (p q : Bool) : Connective → Bool
  | and => p && q
  | or => p || q

section Words

variable (undef : (w : ℕ) → BitVec w) (sign : Bool) {w : ℕ}

/-- The result of an operator on words of one size. Division is truncated. -/
def Arith.apply : Arith → BitVec w → BitVec w → BitVec w
  | add, x, y => x + y
  | sub, x, y => x - y
  | mul, x, y => x * y
  | div, x, y => if y = 0#w then undef w else if sign then x.sdiv y else x / y
  | mod, x, y => if y = 0#w then undef w else if sign then x.srem y else x % y
  | and, x, y => x &&& y
  | or, x, y => x ||| y
  | xor, x, y => x ^^^ y

/-- The result of a shift by a number of positions. -/
def Shift.apply (x : BitVec w) (amount : ℕ) : Shift → BitVec w
  | left => x <<< amount
  | right => x >>> amount
  | arithmeticRight => if sign then x.sshiftRight amount else x >>> amount

/-- Whether a comparison holds. -/
def Comparison.holds (x y : BitVec w) : Comparison → Bool
  | eq => x == y
  | ne => x != y
  | gt => if sign then y.slt x else y.ult x
  | lt => if sign then x.slt y else x.ult y
  | ge => if sign then y.sle x else y.ule x
  | le => if sign then x.sle y else x.ule y

end Words

/-! ### Expressions -/

/-- Expressions over identifiers `ν`. -/
inductive Expr (ν : Type) where
  | ident (n : ν)
  /-- `$signed(a)` -/
  | signed (a : Expr ν)
  /-- `a + b` and the like. -/
  | arith (op : Arith) (a b : Expr ν)
  /-- `a << amount` and the like. -/
  | shift (op : Shift) (a amount : Expr ν)
  /-- `a < b` and the like. -/
  | compare (op : Comparison) (a b : Expr ν)
  /-- `a && b` and the like. -/
  | connect (op : Connective) (a b : Expr ν)
  /-- `-a` -/
  | neg (a : Expr ν)
  /-- `~a` -/
  | invert (a : Expr ν)

namespace Expr

variable {ν : Type}

/-- Whether an expression is signed. A shift is signed as its left operand is. -/
def isSigned : Expr ν → Bool
  | ident _ => false
  | signed _ => true
  | arith _ a b => a.isSigned && b.isSigned
  | shift _ a _ => a.isSigned
  | compare .. => false
  | connect .. => false
  | neg a => a.isSigned
  | invert a => a.isSigned

variable (undef : (w : ℕ) → BitVec w) (env : ν → Vector)

/-- The size of an expression on its own. -/
def selfWidth : Expr ν → ℕ
  | ident n => (env n).width
  | signed a => a.selfWidth
  | arith _ a b => max a.selfWidth b.selfWidth
  | shift _ a _ => a.selfWidth
  | compare .. => 1
  | connect .. => 1
  | neg a => a.selfWidth
  | invert a => a.selfWidth

/-- The value of an expression in a context of the given size and signedness. -/
def eval (width : ℕ) (sign : Bool) : Expr ν → BitVec width
  | ident n => extend sign width (env n).bits
  | signed a => extend sign width (a.eval (a.selfWidth env) a.isSigned)
  | arith op a b => op.apply undef sign (a.eval width sign) (b.eval width sign)
  | shift op a amount =>
      op.apply sign (a.eval width sign)
        (amount.eval (amount.selfWidth env) amount.isSigned).toNat
  | compare op a b =>
      let w := max (a.selfWidth env) (b.selfWidth env)
      let s := a.isSigned && b.isSigned
      (BitVec.ofBool (op.holds s (a.eval w s) (b.eval w s))).setWidth width
  | connect op a b =>
      let x := (a.eval (a.selfWidth env) a.isSigned).toNat != 0
      let y := (b.eval (b.selfWidth env) b.isSigned).toNat != 0
      (BitVec.ofBool (op.exact x y)).setWidth width
  | neg a => -a.eval width sign
  | invert a => ~~~a.eval width sign

/-- What `target = e;` gives a target of the given width. -/
def assigned (width : ℕ) (e : Expr ν) : BitVec width :=
  (e.eval undef env (max width (e.selfWidth env)) e.isSigned).setWidth width

/-- An identifier, as it is or signed. -/
def operand (sign : Bool) (n : ν) : Expr ν := if sign then .signed (.ident n) else .ident n

end Expr

/-! ### Numbers of words -/

section Numbers

variable {sign : Bool} {w width : ℕ} {a b : ℤ}

theorem ofInt_eq_of_modEq (h : a ≡ b [ZMOD 2 ^ w]) : BitVec.ofInt w a = BitVec.ofInt w b :=
  VerilogSizing.ofInt_eq_ofInt_iff.mpr (Int.ModEq.dvd h.symm)

theorem ofInt_number (sign : Bool) (x : BitVec w) : BitVec.ofInt w (number sign x) = x := by
  cases sign with
  | false =>
      refine (BitVec.ofInt_natCast w x.toNat).trans ?_
      rw [BitVec.ofNat_toNat, BitVec.setWidth_eq]
  | true => exact BitVec.ofInt_toInt

theorem number_injective {x y : BitVec w} (h : number sign x = number sign y) : x = y := by
  rw [← ofInt_number sign x, h, ofInt_number]

/-- A word that is extended as it is read keeps its number. -/
theorem number_extend {x : BitVec w} (h : w ≤ width) :
    number sign (extend sign width x) = number sign x := by
  cases sign with
  | false => exact congrArg Nat.cast (BitVec.toNat_setWidth_of_le h)
  | true => exact BitVec.toInt_signExtend_of_le h

theorem setWidth_ofInt (h : width ≤ w) :
    (BitVec.ofInt w a).setWidth width = BitVec.ofInt width a := by
  rw [VerilogSizing.setWidth_eq_ofInt_toInt h, BitVec.toInt_ofInt]
  have hmod : a.bmod (2 ^ w) ≡ a [ZMOD 2 ^ w] := mod_cast Int.bmod_emod
  exact ofInt_eq_of_modEq (hmod.of_dvd (pow_dvd_pow 2 h))

/-! ### Bits of numbers -/

theorem getLsbD_ofInt (a : ℤ) (i : ℕ) :
    (BitVec.ofInt w a).getLsbD i = (decide (i < w) && Int.testBit a i) := by
  cases a with
  | ofNat n => simp [Int.testBit, BitVec.getLsbD_ofNat]
  | negSucc n =>
      rw [BitVec.ofInt_negSucc_eq_not_ofNat, BitVec.getLsbD_not, BitVec.getLsbD_ofNat]
      by_cases hi : i < w <;> simp [hi, Int.testBit]

theorem ofInt_land : BitVec.ofInt w (Int.land a b) = BitVec.ofInt w a &&& BitVec.ofInt w b := by
  refine BitVec.eq_of_getLsbD_eq fun i hi => ?_
  rw [BitVec.getLsbD_and, getLsbD_ofInt, getLsbD_ofInt, getLsbD_ofInt, Int.testBit_land]
  simp [hi]

theorem ofInt_lor : BitVec.ofInt w (Int.lor a b) = BitVec.ofInt w a ||| BitVec.ofInt w b := by
  refine BitVec.eq_of_getLsbD_eq fun i hi => ?_
  rw [BitVec.getLsbD_or, getLsbD_ofInt, getLsbD_ofInt, getLsbD_ofInt, Int.testBit_lor]
  simp [hi]

theorem ofInt_xor : BitVec.ofInt w (Int.xor a b) = BitVec.ofInt w a ^^^ BitVec.ofInt w b := by
  refine BitVec.eq_of_getLsbD_eq fun i hi => ?_
  rw [BitVec.getLsbD_xor, getLsbD_ofInt, getLsbD_ofInt, getLsbD_ofInt, Int.testBit_lxor]
  simp [hi]

theorem ofInt_lnot : BitVec.ofInt w (Int.lnot a) = ~~~BitVec.ofInt w a := by
  refine BitVec.eq_of_getLsbD_eq fun i hi => ?_
  rw [BitVec.getLsbD_not, getLsbD_ofInt, getLsbD_ofInt, Int.testBit_lnot]
  simp [hi]

end Numbers

/-! ### Operators on numbers -/

/-- The operator on integers without bounds. -/
def Arith.exact : Arith → ℤ → ℤ → ℤ
  | add, a, b => a + b
  | sub, a, b => a - b
  | mul, a, b => a * b
  | div, a, b => a.tdiv b
  | mod, a, b => a.tmod b
  | and, a, b => Int.land a b
  | or, a, b => Int.lor a b
  | xor, a, b => Int.xor a b

/-- The shift of an integer without bounds, with its sign moving in from the left. -/
def Shift.exact (a : ℤ) (amount : ℕ) : Shift → ℤ
  | left => a * 2 ^ amount
  | right => a / 2 ^ amount
  | arithmeticRight => a / 2 ^ amount

/-- The comparison of integers. -/
def Comparison.exact (a b : ℤ) : Comparison → Bool
  | eq => a = b
  | ne => a ≠ b
  | gt => a > b
  | lt => a < b
  | ge => a ≥ b
  | le => a ≤ b

section Operators

variable {undef : (w : ℕ) → BitVec w} {sign : Bool} {w : ℕ} (x y : BitVec w)

/-- **Arithmetic on words.** It is the one on integers, cut to the size of the words. -/
theorem Arith.apply_eq_ofInt {op : Arith} (h : op = .div ∨ op = .mod → number sign y ≠ 0) :
    op.apply undef sign x y = BitVec.ofInt w (op.exact (number sign x) (number sign y)) := by
  have hx := ofInt_number sign x
  have hy := ofInt_number sign y
  have hne (hop : op = .div ∨ op = .mod) : y ≠ 0#w := by
    rintro rfl
    exact h hop (by cases sign <;> simp [number])
  cases op with
  | add => rw [exact, BitVec.ofInt_add, hx, hy, apply]
  | sub => rw [exact, sub_eq_add_neg, BitVec.ofInt_add, BitVec.ofInt_neg, hx, hy, apply,
      BitVec.sub_eq_add_neg]
  | mul => rw [exact, BitVec.ofInt_mul, hx, hy, apply]
  | div =>
      rw [apply, if_neg (hne (Or.inl rfl)), exact]
      cases sign with
      | false => exact (ofInt_number false (x / y)).symm
      | true =>
          refine BitVec.eq_of_toInt_eq ?_
          rw [if_pos rfl, BitVec.toInt_sdiv, BitVec.toInt_ofInt]
          rfl
  | mod =>
      rw [apply, if_neg (hne (Or.inr rfl)), exact]
      cases sign with
      | false => exact (ofInt_number false (x % y)).symm
      | true =>
          rw [if_pos rfl, ← BitVec.ofInt_toInt (x := x.srem y), BitVec.toInt_srem]
          rfl
  | and => rw [exact, ofInt_land, hx, hy, apply]
  | or => rw [exact, ofInt_lor, hx, hy, apply]
  | xor => rw [exact, ofInt_xor, hx, hy, apply]

theorem ushiftRight_eq_ofInt (amount : ℕ) :
    x >>> amount = BitVec.ofInt w (number false x / 2 ^ amount) := by
  rw [← ofInt_number false (x >>> amount)]
  simp [number, Nat.shiftRight_eq_div_pow]

/-- **Shifts of words.** -/
theorem Shift.apply_eq_ofInt {op : Shift} (h : op = .right → sign = false) (amount : ℕ) :
    op.apply sign x amount = BitVec.ofInt w (op.exact (number sign x) amount) := by
  cases op with
  | left =>
      have hpow : BitVec.ofInt w ((2 ^ amount : ℕ) : ℤ) = BitVec.twoPow w amount := by
        refine (BitVec.ofInt_natCast w _).trans (BitVec.eq_of_toNat_eq ?_)
        rw [BitVec.toNat_ofNat, BitVec.toNat_twoPow]
      rw [Nat.cast_pow] at hpow
      rw [exact, BitVec.ofInt_mul, ofInt_number, apply, BitVec.shiftLeft_eq_mul_twoPow, ← hpow]
      rfl
  | right =>
      obtain rfl := h rfl
      exact ushiftRight_eq_ofInt x amount
  | arithmeticRight =>
      cases sign with
      | false => exact ushiftRight_eq_ofInt x amount
      | true =>
          rw [apply, if_pos rfl, ← BitVec.ofInt_toInt (x := x.sshiftRight amount),
            BitVec.toInt_sshiftRight, Int.shiftRight_eq_div_pow]
          rfl

/-- **Comparisons of words.** -/
theorem Comparison.holds_eq (op : Comparison) :
    op.holds sign x y = op.exact (number sign x) (number sign y) := by
  have hinj : x = y ↔ number sign x = number sign y := ⟨congrArg _, number_injective⟩
  cases op with
  | eq => exact (Bool.beq_eq_decide_eq x y).trans (decide_eq_decide.mpr hinj)
  | ne => rw [holds, exact, bne, Bool.beq_eq_decide_eq, decide_eq_decide.mpr hinj, decide_not]
  | gt => cases sign <;> simp [holds, exact, number, BitVec.slt, BitVec.ult]
  | lt => cases sign <;> simp [holds, exact, number, BitVec.slt, BitVec.ult]
  | ge => cases sign <;> simp [holds, exact, number, BitVec.sle, BitVec.ule]
  | le => cases sign <;> simp [holds, exact, number, BitVec.sle, BitVec.ule]

end Operators

/-! ### Assignments -/

section Assigned

variable {ν : Type} {undef : (w : ℕ) → BitVec w} {env : ν → Vector} {sign : Bool} {width : ℕ}
  (a b : ν)

namespace Expr

theorem isSigned_operand : (operand sign a).isSigned = sign := by
  cases sign <;> rfl

theorem selfWidth_operand : (operand sign a).selfWidth env = (env a).width := by
  cases sign <;> rfl

theorem eval_operand : (operand sign a).eval undef env width sign =
    extend sign width (env a).bits := by
  cases sign with
  | false => rfl
  | true => exact congrArg (extend true width) (BitVec.setWidth_eq _)

/-- **Arithmetic.** Nothing but the width of the target cuts the result. -/
theorem assigned_arith {op : Arith}
    (h : op = .div ∨ op = .mod → number sign (env b).bits ≠ 0) :
    (arith op (operand sign a) (operand sign b)).assigned undef env width =
      BitVec.ofInt width (op.exact (number sign (env a).bits) (number sign (env b).bits)) := by
  rw [assigned, isSigned, isSigned_operand, isSigned_operand, Bool.and_self, eval, eval_operand,
    eval_operand, selfWidth, selfWidth_operand, selfWidth_operand]
  obtain ⟨hwidth, ha, hb⟩ := BitString.le_context width (env a).width (env b).width
  rw [Arith.apply_eq_ofInt _ _ (by rwa [number_extend hb]), number_extend ha, number_extend hb,
    setWidth_ofInt hwidth]

/-- **Shifts** in the size of the shifted operand. -/
theorem assigned_shift {op : Shift} (h : op = .right → sign = false) :
    (shift op (operand sign a) (operand sign b)).assigned undef env (env a).width =
      BitVec.ofInt (env a).width
        (op.exact (number sign (env a).bits) (env b).bits.toNat) := by
  have hamount : (operand sign b).eval undef env (env b).width sign = (env b).bits := by
    rw [eval_operand]
    cases sign with
    | false => exact BitVec.setWidth_eq _
    | true => exact BitVec.signExtend_eq _
  rw [assigned, isSigned, isSigned_operand, eval, eval_operand, selfWidth, selfWidth_operand,
    selfWidth_operand, isSigned_operand, hamount]
  rw [Shift.apply_eq_ofInt _ h, number_extend (le_max_left _ _), setWidth_ofInt (le_max_left _ _)]

/-- **Comparisons.** -/
theorem assigned_compare (op : Comparison) :
    (compare op (operand sign a) (operand sign b)).assigned undef env 1 =
      BitVec.ofBool (op.exact (number sign (env a).bits) (number sign (env b).bits)) := by
  rw [assigned, isSigned, eval, isSigned_operand, isSigned_operand, Bool.and_self, eval_operand,
    eval_operand, selfWidth_operand, selfWidth_operand, Comparison.holds_eq,
    number_extend (le_max_left _ _), number_extend (le_max_right _ _)]
  rfl

theorem assigned_neg :
    (neg (ident a)).assigned undef env width = BitVec.ofInt width (-number false (env a).bits) := by
  rw [assigned, isSigned, isSigned, eval, eval, selfWidth, selfWidth,
    ← ofInt_number false (extend false _ _), number_extend (le_max_right _ _),
    ← BitVec.ofInt_neg, setWidth_ofInt (le_max_left _ _)]

theorem assigned_invert :
    (invert (ident a)).assigned undef env width =
      BitVec.ofInt width (Int.lnot (number false (env a).bits)) := by
  rw [assigned, isSigned, isSigned, eval, eval, selfWidth, selfWidth,
    ← ofInt_number false (extend false _ _), number_extend (le_max_right _ _),
    ← ofInt_lnot, setWidth_ofInt (le_max_left _ _)]

/-- **Conditions.** -/
theorem assigned_connect (op : Connective) :
    (connect op (ident a) (ident b)).assigned undef env 1 =
      BitVec.ofBool (op.exact ((env a).bits.toNat != 0) ((env b).bits.toNat != 0)) := by
  rw [assigned, eval, eval, eval, selfWidth, selfWidth, isSigned, isSigned, extend, extend,
    if_neg Bool.false_ne_true, if_neg Bool.false_ne_true, BitVec.setWidth_eq, BitVec.setWidth_eq]
  rfl

end Expr

end Assigned

end VerilogOperators

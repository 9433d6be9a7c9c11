import Mathlib.Data.Int.ModEq
import Mathlib.Order.Lattice

/-!
# The sizes and signs of Verilog expressions

A fragment of the expressions of Verilog under its rules for sizing and signedness. An expression
has a size of its own, and the size of the widest operand of an assignment, target included, is the
size in which the operators of its context are evaluated; the operands of `$signed`, of comparisons
and the amounts of shifts are evaluated in a context of their own. An operand is extended with its
sign only if everything in its context is signed. `ν` is the type of identifiers, which are declared
without `signed`, and unsized literals have 32 bits.

* **Signed operands** (`eval_signed_toInt`): `$signed` keeps the number in a wider signed context.
* **Assignments** (`assigned_eq_ofInt`): a target takes the number of the expression modulo the
  power of two of its width.
-/

namespace VerilogSizing

/-- Expressions over identifiers `ν`. -/
inductive Expr (ν : Type) where
  | ident (n : ν)
  /-- An unsized decimal literal, which is signed. -/
  | dec (value : ℕ)
  /-- `a + b` -/
  | add (a b : Expr ν)
  /-- `a - b` -/
  | sub (a b : Expr ν)
  /-- `a << amount` -/
  | shl (a amount : Expr ν)
  /-- `a >>> amount` -/
  | ashr (a amount : Expr ν)
  /-- `a == b` -/
  | eq (a b : Expr ν)
  /-- `$signed(a)` -/
  | signed (a : Expr ν)

/-- A declared vector with its value. -/
structure Vector where
  width : ℕ
  bits : BitVec width

/-- The size of an unsized literal. -/
def decWidth : ℕ := 32

/-- A word in the size of a context, extended with its sign in a signed one. -/
def extend (signed : Bool) (width : ℕ) {w : ℕ} (x : BitVec w) : BitVec width :=
  if signed then x.signExtend width else x.setWidth width

namespace Expr

variable {ν : Type}

/-- Whether an expression is signed. A shift is signed as its left operand is. -/
def isSigned : Expr ν → Bool
  | ident _ => false
  | dec _ => true
  | add a b => a.isSigned && b.isSigned
  | sub a b => a.isSigned && b.isSigned
  | shl a _ => a.isSigned
  | ashr a _ => a.isSigned
  | eq _ _ => false
  | signed _ => true

variable (env : ν → Vector)

/-- The size of an expression on its own. -/
def selfWidth : Expr ν → ℕ
  | ident n => (env n).width
  | dec _ => decWidth
  | add a b => max a.selfWidth b.selfWidth
  | sub a b => max a.selfWidth b.selfWidth
  | shl a _ => a.selfWidth
  | ashr a _ => a.selfWidth
  | eq _ _ => 1
  | signed a => a.selfWidth

/-- The value of an expression in a context of the given size and signedness. -/
def eval (width : ℕ) (sign : Bool) : Expr ν → BitVec width
  | ident n => extend sign width (env n).bits
  | dec value => extend sign width (BitVec.ofNat decWidth value)
  | add a b => a.eval width sign + b.eval width sign
  | sub a b => a.eval width sign - b.eval width sign
  | shl a amount =>
      a.eval width sign <<< (amount.eval (amount.selfWidth env) amount.isSigned).toNat
  | ashr a amount =>
      let n := (amount.eval (amount.selfWidth env) amount.isSigned).toNat
      if sign then (a.eval width sign).sshiftRight n else a.eval width sign >>> n
  | eq a b =>
      let w := max (a.selfWidth env) (b.selfWidth env)
      let s := a.isSigned && b.isSigned
      (BitVec.ofBool (a.eval w s == b.eval w s)).setWidth width
  | signed a => extend sign width (a.eval (a.selfWidth env) a.isSigned)

/-- The value of an expression on its own. -/
def evalSelf (e : Expr ν) : BitVec (e.selfWidth env) := e.eval env (e.selfWidth env) e.isSigned

/-- What `target = e;` gives a target of the given width. -/
def assigned (width : ℕ) (e : Expr ν) : BitVec width :=
  (e.eval env (max width (e.selfWidth env)) e.isSigned).setWidth width

end Expr

/-- `always_comb` with `if (cond) begin target = value; end else begin target = otherwise; end`. -/
structure IfElse (ν : Type) where
  cond : Expr ν
  value : Expr ν
  otherwise : Expr ν

/-- What the block gives a target of the given width. -/
def IfElse.assigned {ν : Type} (env : ν → Vector) (width : ℕ) (block : IfElse ν) : BitVec width :=
  if (block.cond.evalSelf env).toNat ≠ 0 then block.value.assigned env width
  else block.otherwise.assigned env width

/-! ### Numbers of words -/

theorem setWidth_eq_ofInt_toInt {n w : ℕ} (h : n ≤ w) (x : BitVec w) :
    x.setWidth n = BitVec.ofInt n x.toInt := by
  refine BitVec.eq_of_toInt_eq ?_
  rw [BitVec.toInt_ofInt, ← BitVec.signExtend_eq_setWidth_of_le x h,
    BitVec.toInt_signExtend_eq_toInt_bmod_of_le x h]

theorem ofInt_eq_ofInt_iff {w : ℕ} {a b : ℤ} :
    BitVec.ofInt w a = BitVec.ofInt w b ↔ (2 ^ w : ℤ) ∣ a - b := by
  rw [← BitVec.toInt_inj, BitVec.toInt_ofInt, BitVec.toInt_ofInt,
    Int.bmod_eq_bmod_iff_bmod_sub_eq_zero, ← Int.dvd_iff_bmod_eq_zero, Nat.cast_pow]
  rfl

variable {ν : Type} (env : ν → Vector)

/-- `$signed` keeps the number in a signed context that is wide enough. -/
theorem eval_signed_toInt {width : ℕ} (a : Expr ν) (h : a.selfWidth env ≤ width) :
    ((Expr.signed a).eval env width true).toInt = (a.evalSelf env).toInt :=
  BitVec.toInt_signExtend_of_le h

theorem assigned_eq_ofInt (width : ℕ) (e : Expr ν) :
    e.assigned env width =
      BitVec.ofInt width (e.eval env (max width (e.selfWidth env)) e.isSigned).toInt :=
  setWidth_eq_ofInt_toInt (Nat.le_max_left _ _) _

end VerilogSizing

import Spade.Lib.BitString
import Spade.Mir.Codegen

/-!
# Compile-time evaluation

The embedding of `spade-mir/src/eval.rs`: the values of the evaluator, how they are printed as the
bits of a Verilog literal (`Value.asString`), and the evaluation of a list of statements. A step is
`none` where the source panics, `todo!` included.

* **Digits** (`padded_toDigits`): the binary digits of a number, with zeros in front, are its bits.
-/

namespace Spade.Mir

/-- `eval::Value`. -/
inductive Value where
  | bit (b : Bool)
  | int (size : ℕ) (val : ℤ)
  | uint (size val : ℕ)
  /-- Concatenated from left to right. -/
  | concat (inner : List Value)
  /-- A number of undefined bits. -/
  | undef (size : ℕ)

/-- The character of a bit. -/
def bitChar (b : Bool) : Char := if b then '1' else '0'

/-- The digits of a natural number behind the zeros that fill up the size. -/
def paddedBinary (size val : ℕ) : Option (List Char) := do
  let valStr := Nat.toDigits 2 val
  let needed0s ← checkedSub size valStr.length
  some (List.replicate needed0s '0' ++ valStr)

namespace Value

/- `as_string` and its map over the parts of a concatenation. -/
mutual

/-- `Value::as_string`. -/
def asString : Value → Option (List Char)
  | bit val => some [bitChar val]
  | int size val =>
      if 0 ≤ val then paddedBinary size val.toNat
      -- the mask keeps the low bits of a negative number, whose leading zeros are not printed
      else if size < 2 ^ 64 then some (Nat.toDigits 2 (val % 2 ^ size).toNat)
      else none
  | uint size val => paddedBinary size val
  | concat inner => asStrings inner
  | undef size => some (List.replicate size 'X')

def asStrings : List Value → Option (List Char)
  | [] => some []
  | v :: vs => do some ((← v.asString) ++ (← asStrings vs))

end

mutual

/-- `Value::width`. -/
def width : Value → ℕ
  | bit _ => 1
  | int size _ => size
  | uint size _ => size
  | concat inner => widths inner
  | undef size => size

def widths : List Value → ℕ
  | [] => 0
  | v :: vs => v.width + widths vs

end

/-- `Value::assume_int`. -/
def assumeInt : Value → Option ℤ
  | int _ val => some val
  | _ => none

/-- `Value::assume_uint`. -/
def assumeUint : Value → Option ℕ
  | uint _ val => some val
  | _ => none

/-- The value of `Operator::ConstructTuple`. -/
def constructTuple (vals : List Value) : Value := concat vals

/-- The value of `Operator::ConstructArray`. -/
def constructArray (vals : List Value) : Value := concat vals.reverse

/-- The value of `Operator::ConstructEnum` of the given size, where the operands have the size
`variantMemberSize`. -/
def constructEnum (variant variantCount size variantMemberSize : ℕ) (vals : List Value) :
    Option Value := do
  let tagSize := tagSize variantCount
  let tag := if variantCount = 1 then [] else [uint tagSize variant]
  let paddingSize ← checkedSub (← checkedSub size tagSize) variantMemberSize
  some (concat (tag ++ vals ++ if paddingSize ≠ 0 then [undef paddingSize] else []))

end Value

/-- The value and the type of every name so far: `name_vals` and `name_types`. -/
structure EvalState where
  nameVals : ValueName → Option Value
  nameTypes : ValueName → Option Ty

/-- Both maps with an entry for the name. -/
def EvalState.insert (s : EvalState) (name : ValueName) (val : Value) (ty : Ty) : EvalState where
  nameVals x := if x = name then some val else s.nameVals x
  nameTypes x := if x = name then some ty else s.nameTypes x

theorem EvalState.nameVals_insert (s : EvalState) (name : ValueName) (val : Value) (ty : Ty)
    (x : ValueName) :
    (s.insert name val ty).nameVals x = if x = name then some val else s.nameVals x := rfl

/-- The state before the first statement. -/
def EvalState.empty : EvalState where
  nameVals _ := none
  nameTypes _ := none

/-- The value of a binding. -/
def EvalState.evalOperator (s : EvalState) (operator : Op) (ops : List ValueName) (ty : Ty) :
    Option Value :=
  match operator, ops with
  | .add, a :: b :: _ => do
      some (.int ty.size ((← (← s.nameVals a).assumeInt) + (← (← s.nameVals b).assumeInt)))
  | .unsignedAdd, a :: b :: _ => do
      some (.uint ty.size ((← (← s.nameVals a).assumeUint) + (← (← s.nameVals b).assumeUint)))
  | .sub, a :: b :: _ => do
      some (.int ty.size ((← (← s.nameVals a).assumeInt) - (← (← s.nameVals b).assumeInt)))
  | .unsignedSub, a :: b :: _ => do
      some (.uint ty.size
        (← checkedSub (← (← s.nameVals a).assumeUint) (← (← s.nameVals b).assumeUint)))
  | .uSub, a :: _ => do some (.int ty.size (-(← (← s.nameVals a).assumeInt)))
  | .constructArray, ops => do some (.constructArray (← ops.mapM s.nameVals))
  | .constructTuple, ops => do some (.constructTuple (← ops.mapM s.nameVals))
  | .constructEnum variant variantCount, ops => do
      let vals ← ops.mapM s.nameVals
      let types ← ops.mapM s.nameTypes
      Value.constructEnum variant variantCount ty.size (types.map Ty.size).sum vals
  | .alias, a :: _ => s.nameVals a
  | _, _ => none

/-- The name, the value and the type that a statement adds to the state. -/
def EvalState.evalStatement (s : EvalState) : Statement → Option (ValueName × Value × Ty)
  | .binding b => do some (b.name, ← s.evalOperator b.operator b.operands b.ty, b.ty)
  | .constant id ty (.int i) => some (.expr id, .int ty.size i, ty)
  | .constant id ty (.bool v) => some (.expr id, .bit v, ty)
  | _ => none

/-- The loop of `eval_statements`: the last value, and the state behind all statements. -/
def evalFrom (s : EvalState) (lastValue : Option Value) :
    List Statement → Option (Option Value × EvalState)
  | [] => some (lastValue, s)
  | stmt :: stmts => do
      let (name, val, ty) ← s.evalStatement stmt
      evalFrom (s.insert name val ty) (some val) stmts

/-- `eval_statements`. -/
def evalStatements (statements : List Statement) : Option Value := do
  (← evalFrom .empty none statements).1

/-- The statements of two lists run one list after the other. -/
theorem evalFrom_append (s : EvalState) (lastValue : Option Value) (xs ys : List Statement) :
    evalFrom s lastValue (xs ++ ys) =
      (evalFrom s lastValue xs).bind fun r => evalFrom r.2 r.1 ys := by
  induction xs generalizing s lastValue with
  | nil => rfl
  | cons stmt xs ih =>
      rw [List.cons_append, evalFrom, evalFrom]
      cases s.evalStatement stmt with
      | none => rfl
      | some r => exact ih _ _

/-! ### Digits -/

theorem ofNat_append_bit (w v : ℕ) :
    BitString.ofNat (w + 1) v = BitString.ofNat w (v / 2) ++ [decide (v % 2 = 1)] := by
  induction w with
  | zero => simp [BitString.ofNat]
  | succ w ih =>
      rw [BitString.ofNat, ih, BitString.ofNat, List.cons_append, Nat.div_div_eq_div_mul,
        Nat.pow_succ, Nat.mul_comm 2]

/-- The binary digits of a number, with zeros in front, are its bits. -/
theorem padded_toDigits {w v : ℕ} (hw : 0 < w) (hv : v < 2 ^ w) :
    (Nat.toDigits 2 v).length ≤ w ∧
      List.replicate (w - (Nat.toDigits 2 v).length) '0' ++ Nat.toDigits 2 v =
        (BitString.ofNat w v).map bitChar := by
  refine ⟨(Nat.length_toDigits_le_iff (by decide) hw).mpr hv, ?_⟩
  induction w generalizing v with
  | zero => omega
  | succ w ih =>
      by_cases hbase : v < 2
      · rw [Nat.toDigits_of_lt_base hbase, ofNat_append_bit, Nat.div_eq_of_lt hbase]
        have hzero : (BitString.ofNat w 0).map bitChar = List.replicate w '0' := by
          clear ih hw hv
          induction w with
          | zero => rfl
          | succ w ih => simp [BitString.ofNat, ih, bitChar, List.replicate_succ]
        rw [List.map_append, hzero]
        obtain rfl | rfl : v = 0 ∨ v = 1 := by omega
        · rfl
        · rfl
      · have hv' : v / 2 < 2 ^ w := by
          rw [Nat.pow_succ] at hv
          omega
        have hpos : 0 < w := by
          rcases Nat.eq_zero_or_pos w with rfl | h
          · omega
          · exact h
        have hlast : [(v % 2).digitChar] = [bitChar (decide (v % 2 = 1))] := by
          rcases Nat.mod_two_eq_zero_or_one v with h | h <;> rw [h] <;> rfl
        rw [Nat.toDigits_of_base_le (by decide) (by omega), List.length_append, ofNat_append_bit,
          List.map_append, ← ih hpos hv', hlast, List.length_singleton,
          show w + 1 - ((Nat.toDigits 2 (v / 2)).length + 1) =
            w - (Nat.toDigits 2 (v / 2)).length by omega, List.append_assoc]
        rfl

/-- A number that fits is printed as its bits. -/
theorem paddedBinary_eq {size val : ℕ} (hsize : 0 < size) (hval : val < 2 ^ size) :
    paddedBinary size val = some ((BitString.ofNat size val).map bitChar) := by
  obtain ⟨hlen, hdigits⟩ := padded_toDigits hsize hval
  simp only [paddedBinary, checkedSub_of_le hlen, Option.bind_eq_bind, Option.bind_some, hdigits]

/-- A number with as many digits as the size is printed as its bits without zeros in front. -/
theorem toDigits_eq {size val : ℕ} (hsize : 0 < size) (hlow : 2 ^ (size - 1) ≤ val)
    (hval : val < 2 ^ size) :
    Nat.toDigits 2 val = (BitString.ofNat size val).map bitChar := by
  obtain ⟨hlen, hdigits⟩ := padded_toDigits hsize hval
  have hnot : ¬ (Nat.toDigits 2 val).length ≤ size - 1 := by
    intro h
    rcases Nat.eq_zero_or_pos (size - 1) with h0 | hpos
    · have := @Nat.length_toDigits_pos 2 val
      omega
    · have := (Nat.length_toDigits_le_iff (by decide) hpos).mp h
      omega
  rw [show size - (Nat.toDigits 2 val).length = 0 by omega, List.replicate_zero,
    List.nil_append] at hdigits
  exact hdigits

end Spade.Mir

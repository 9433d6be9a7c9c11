import Spade.Lib.Verilog
import Spade.Mir.Syntax

/-!
# Verilog emitted for the operators

The arms of `forward_expression_code` in `spade-mir/src/codegen/mod.rs` for the operators that
build and take apart compound values and for the ones that select between values. Every arm is a
definition of its own, under the name of its operator; the identifiers of the operands are a type
parameter, so that an arm can be read over the names of an entity or over the positions of its
operands. An arm is `none` where the source panics: on the underflow of a `BigUint` subtraction,
on an index out of bounds, and on an operand count or a type it asserts away.
-/

namespace Spade.Mir

open Verilog

variable {ν : Type}

/-- The subtraction of `BigUint`s, which panics on underflow. -/
def checkedSub (a b : ℕ) : Option ℕ :=
  if b ≤ a then some (a - b) else none

theorem checkedSub_of_le {a b : ℕ} (h : b ≤ a) : checkedSub a b = some (a - b) := if_pos h

theorem checkedSub_eq_some_iff {a b c : ℕ} : checkedSub a b = some c ↔ b ≤ a ∧ c = a - b := by
  unfold checkedSub
  split_ifs with h <;> simp [h, eq_comm]

/-! ### Tuples and arrays -/

/-- `TupleIndex`. -/
inductive TupleIndex where
  /-- The indexee is a 1 bit scalar, so no indexing is performed. -/
  | none
  /-- The indexed element has no bits. -/
  | zeroWidth
  | single (i : ℕ)
  | range (left right : ℕ)
  deriving DecidableEq, Repr

/-- `compute_tuple_index`: the bits of the element `idx` of a tuple with the given sizes. -/
def computeTupleIndex (idx : ℕ) (sizes : List ℕ) : Option TupleIndex := do
  let targetWidth ← sizes[idx]?
  let startBit := (sizes.take idx).sum
  let endBit := startBit + targetWidth
  let totalWidth := sizes.sum
  if targetWidth = 0 then some .zeroWidth
  else if totalWidth = 1 then some .none
  else if targetWidth = 1 then some (.single (totalWidth - startBit - 1))
  else some (.range (totalWidth - startBit - 1) (totalWidth - endBit))

/-- `TupleIndex::verilog_code` after the name of the indexee. -/
def TupleIndex.verilogCode (op : ν) : TupleIndex → Option (Expr ν)
  | .none => some (.ident op)
  | .zeroWidth => Option.none
  | .single i => some (.bit op i)
  | .range left right => some (.part op left right)

/-- `Operator::IndexTuple`. -/
def indexTupleCode (idx : ℕ) (types : List Ty) (op : ν) : Option (Expr ν) := do
  (← computeTupleIndex idx (types.map Ty.size)).verilogCode op

/-- `Operator::IndexArray`, for a result of type `selfType`. -/
def indexArrayCode (selfType : Ty) (op index : ν) : Expr ν :=
  let memberSize := selfType.size
  if memberSize = 1 then .bitAt op index else .partAt op index memberSize memberSize

/-- `Operator::RangeIndexBits`. -/
def rangeIndexBitsCode (start endExclusive : ℕ) (op : ν) : Option (Expr ν) := do
  if (← checkedSub endExclusive start) = 1 then some (.bit op start)
  else some (.part op endExclusive start)

/-- `Operator::Concat`. -/
def concatCode (ops : List ν) : Expr ν := .concat (ops.map .ident)

/-! ### Logic -/

/-- `Operator::Eq`. -/
def eqCode : List ν → Option (Expr ν)
  | [a, b] => some (.eq (.ident a) (.ident b))
  | _ => none

/-- `Operator::LogicalAnd`. -/
def logicalAndCode : List ν → Option (Expr ν)
  | [a, b] => some (.and (.ident a) (.ident b))
  | _ => none

/-- `Operator::LogicalNot` and `Operator::Not`. -/
def logicalNotCode : List ν → Option (Expr ν)
  | [a] => some (.not (.ident a))
  | _ => none

/-- `Operator::Select`. -/
def selectCode : List ν → Option (Expr ν)
  | [cond, a, b] => some (.cond (.ident cond) (.ident a) (.ident b))
  | _ => none

/-! ### Enums -/

/-- `Operator::ConstructEnum`, for a result of type `ty`.

The source joins the three pieces of text itself, with a comma in front of every piece but the
first. The comma in front of the padding would stand alone if there were neither a tag nor an
operand, but an enum without a tag has no padding. -/
def constructEnumCode (variant variantCount : ℕ) (ty : Ty) (ops : List ν) : Option (Expr ν) := do
  let tagSize := tagSize variantCount
  let variantMemberSize := Ty.sizeSum (← (← ty.assumeEnum)[variant]?)
  let paddingSize ← checkedSub (← checkedSub ty.size tagSize) variantMemberSize
  let paddingText := if paddingSize ≠ 0 then [.undef paddingSize] else []
  let tag := if tagSize ≠ 0 then [.sized tagSize variant] else []
  some (.concat (tag ++ (ops.map .ident ++ paddingText)))

/-- `Operator::IsEnumVariant`. -/
def isEnumVariantCode (variant : ℕ) (enumType : Ty) (op : ν) : Option (Expr ν) := do
  let tagSize := tagSize (← enumType.assumeEnum).length
  let totalSize := enumType.size
  let tagEnd ← checkedSub totalSize 1
  let tagStart ← checkedSub totalSize tagSize
  if tagSize = 0 then some (.dec 1)
  else if totalSize = 1 then some (.eq (.ident op) (.sized 1 variant))
  else if tagEnd = tagStart then some (.eq (.bit op tagEnd) (.sized tagSize variant))
  else some (.eq (.part op tagEnd tagStart) (.sized tagSize variant))

/-- `Operator::EnumMember`. -/
def enumMemberCode (enumType : Ty) (variant memberIndex : ℕ) (op : ν) : Option (Expr ν) := do
  let variantList ← enumType.assumeEnum
  let tagSize := tagSize variantList.length
  let fullSize := enumType.size
  let members ← variantList[variant]?
  let memberStart := tagSize + Ty.sizeSum (members.take memberIndex)
  let memberEnd := memberStart + (← members[memberIndex]?).size
  let upperIdx ← checkedSub (← checkedSub fullSize memberStart) 1
  let lowerIdx ← checkedSub fullSize memberEnd
  if upperIdx = lowerIdx ∧ tagSize = 0 then some (.ident op)
  else some (.part op upperIdx lowerIdx)

/-! ### Match -/

/-- The branches of `Operator::Match`, each with its condition and its result: `none` where the
source asserts that the number of operands is even. -/
def matchBranches : List ν → Option (List (ν × ν))
  | [] => some []
  | [_] => none
  | cond :: result :: ops => do some ((cond, result) :: (← matchBranches ops))

/-- The item of the `casez` for branch `i`. -/
def matchItem (numBranches i : ℕ) : CasezItem :=
  List.replicate i (some false) ++ some true :: List.replicate (numBranches - i - 1) none

/-- The first of the branches from `i` on whose item matches the selector. -/
def firstMatch (numBranches : ℕ) (selector : BitString) : ℕ → List (ν × ν) → Option ν
  | _, [] => none
  | i, (_, result) :: branches =>
      if (matchItem numBranches i).matches_ selector then some result
      else firstMatch numBranches selector (i + 1) branches

/-- The value that the `always_comb` block of `Operator::Match` gives a binding of type `ty`: the
result of the first branch whose item matches, else undefined bits. `statement_code` panics for a
binding without bits. -/
def matchAssigned (env : ν → Option BitString) (pad : ℕ → Bool) (ty : Ty) (ops : List ν) :
    Option BitString := do
  if ty.size = 0 then none
  else
    let branches ← matchBranches ops
    let selector ← Expr.evalConcat env pad (branches.map fun branch => .ident branch.1)
    match firstMatch branches.length selector 0 branches with
    | some result => some (BitString.resize ty.size (← env result))
    | none => some ((List.range ty.size).map pad)

/-! ### Statements -/

/-- `forward_expression_code` for a result of type `selfType`: `none` where the source panics,
and for the operators whose Verilog is not modelled or is set by `statement_code`. -/
def forwardExpressionCode (operator : Op) (selfType : Ty) (ops : List ν) : Option (Expr ν) :=
  match operator, ops with
  | .eq, ops => eqCode ops
  | .logicalAnd, ops => logicalAndCode ops
  | .logicalNot, ops => logicalNotCode ops
  | .not, ops => logicalNotCode ops
  | .select, ops => selectCode ops
  | .concat, ops => some (concatCode ops)
  | .rangeIndexBits start endExclusive, op :: _ => rangeIndexBitsCode start endExclusive op
  | .indexTuple idx types, op :: _ => indexTupleCode idx types op
  | .indexArray, op :: index :: _ => some (indexArrayCode selfType op index)
  | .constructEnum variant variantCount, ops => constructEnumCode variant variantCount selfType ops
  | .isEnumVariant variant enumType, op :: _ => isEnumVariantCode variant enumType op
  | .enumMember enumType variant memberIndex, op :: _ =>
      enumMemberCode enumType variant memberIndex op
  | _, _ => none

/-- The value `assign name = expression;` gives a binding of type `ty`, whose Verilog variable is
declared with the size of `ty`. `statement_code` asks for the expression only when there are bits
to assign, and `statement_declaration` declares nothing for a value without bits. -/
def assigned (env : ν → Option BitString) (pad : ℕ → Bool) (ty : Ty)
    (code : Option (Expr ν)) : Option BitString :=
  if ty.size = 0 then some []
  else do some (BitString.resize ty.size (← (← code).eval env pad))

/-- The Verilog variable `op` of a value of type `ty` carries `bits`: it is declared exactly when
the value has bits. -/
structure Declares (env : ν → Option BitString) (op : ν) (ty : Ty) (bits : BitString) : Prop where
  length_eq : bits.length = ty.size
  env_eq : env op = if ty.size = 0 then none else some bits

theorem Declares.env_of_pos {env : ν → Option BitString} {op : ν} {ty : Ty} {bits : BitString}
    (h : Declares env op ty bits) (hty : ty.size ≠ 0) : env op = some bits := by
  rw [h.env_eq, if_neg hty]

theorem assigned_of_pos {env : ν → Option BitString} {pad : ℕ → Bool} {ty : Ty} {e : Expr ν}
    {bits : BitString} (hty : ty.size ≠ 0) (he : e.eval env pad = some bits) :
    assigned env pad ty (some e) = some (BitString.resize ty.size bits) := by
  simp [assigned, hty, he]

theorem assigned_none {env : ν → Option BitString} {pad : ℕ → Bool} {ty : Ty}
    (hty : ty.size ≠ 0) : assigned env pad ty none = none := by
  simp [assigned, hty]

end Spade.Mir

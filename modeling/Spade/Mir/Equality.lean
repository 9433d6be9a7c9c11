import Spade.Mir.Syntax

/-!
# Equality of types, operators and statements

The `==` that `spade-mir` derives for types, operators and statements, as decidable equality. The
contents of a memory and the initial value of a register are statements themselves, so equality of
statements goes through the operators and registers that hold them.
-/

namespace Spade.Mir

/-! ### Types -/

namespace Ty

mutual

theorem eq_of_beq : ∀ {a b : Ty}, a.beq b = true → a = b
  | int _, b, h | uint _, b, h => by
      cases b <;> simp_all [beq]
  | bool, b, h | void, b, h => by
      cases b <;> simp_all [beq]
  | tuple _, b, h => by
      cases b <;> simp only [beq, Bool.false_eq_true] at h
      rw [eq_of_beqList h]
  | struct _, b, h => by
      cases b <;> simp only [beq, Bool.false_eq_true] at h
      rw [eq_of_beqFields h]
  | array _ _, b, h | memory _ _, b, h => by
      cases b <;> simp only [beq, Bool.false_eq_true, Bool.and_eq_true] at h
      rw [eq_of_beq h.1, of_decide_eq_true h.2]
  | enum _, b, h => by
      cases b <;> simp only [beq, Bool.false_eq_true] at h
      rw [eq_of_beqOptions h]
  | backward _, b, h | inOut _, b, h => by
      cases b <;> simp only [beq, Bool.false_eq_true] at h
      rw [eq_of_beq h]

theorem eq_of_beqList : ∀ {as bs : List Ty}, beqList as bs = true → as = bs
  | [], [], _ => rfl
  | [], _ :: _, h | _ :: _, [], h => nomatch h
  | a :: as, b :: bs, h => by
      simp only [beqList, Bool.and_eq_true] at h
      rw [eq_of_beq h.1, eq_of_beqList h.2]

theorem eq_of_beqFields : ∀ {as bs : List (String × Ty)}, beqFields as bs = true → as = bs
  | [], [], _ => rfl
  | [], _ :: _, h | _ :: _, [], h => nomatch h
  | (_, a) :: as, (_, b) :: bs, h => by
      simp only [beqFields, Bool.and_eq_true] at h
      rw [eq_of_beq h.1.2, eq_of_beqFields h.2, of_decide_eq_true h.1.1]

theorem eq_of_beqOptions : ∀ {as bs : List (List Ty)}, beqOptions as bs = true → as = bs
  | [], [], _ => rfl
  | [], _ :: _, h | _ :: _, [], h => nomatch h
  | a :: as, b :: bs, h => by
      simp only [beqOptions, Bool.and_eq_true] at h
      rw [eq_of_beqList h.1, eq_of_beqOptions h.2]

end

instance : DecidableEq Ty := fun a b =>
  decidable_of_iff (a.beq b = true) ⟨eq_of_beq, fun h => h ▸ beq_self a⟩

end Ty

/-! ### Operators -/

deriving instance DecidableEq for Operator

/-- The operator with other contents of its memory. -/
def Operator.mapContents {σ τ : Type} (f : List (List σ) → List (List τ)) :
    Operator σ → Operator τ
  | .add => .add | .unsignedAdd => .unsignedAdd | .sub => .sub | .unsignedSub => .unsignedSub
  | .mul => .mul | .unsignedMul => .unsignedMul | .div => .div | .unsignedDiv => .unsignedDiv
  | .mod => .mod | .unsignedMod => .unsignedMod | .eq => .eq | .notEq => .notEq
  | .gt => .gt | .unsignedGt => .unsignedGt | .lt => .lt | .unsignedLt => .unsignedLt
  | .ge => .ge | .unsignedGe => .unsignedGe | .le => .le | .unsignedLe => .unsignedLe
  | .leftShift => .leftShift | .rightShift => .rightShift
  | .arithmeticRightShift => .arithmeticRightShift
  | .logicalAnd => .logicalAnd | .logicalOr => .logicalOr | .logicalXor => .logicalXor
  | .logicalNot => .logicalNot
  | .bitwiseAnd => .bitwiseAnd | .bitwiseOr => .bitwiseOr | .bitwiseXor => .bitwiseXor
  | .reduceAnd => .reduceAnd | .reduceOr => .reduceOr | .reduceXor => .reduceXor
  | .uSub => .uSub | .not => .not | .readPort => .readPort | .bitwiseNot => .bitwiseNot
  | .bitreverse => .bitreverse | .divPow2 => .divPow2 | .gray2Bin numBits => .gray2Bin numBits
  | .signExtend extraBits operandSize => .signExtend extraBits operandSize
  | .zeroExtend extraBits => .zeroExtend extraBits
  | .truncate => .truncate | .concat => .concat | .select => .select | .match_ => .match_
  | .constructArray => .constructArray
  | .declClockedMemory writePorts addrW innerW elems initial =>
      .declClockedMemory writePorts addrW innerW elems (initial.map f)
  | .indexArray => .indexArray | .indexMemory => .indexMemory
  | .rangeIndexArray start endExclusive => .rangeIndexArray start endExclusive
  | .rangeIndexBits start endExclusive => .rangeIndexBits start endExclusive
  | .constructTuple => .constructTuple
  | .constructEnum variant variantCount => .constructEnum variant variantCount
  | .isEnumVariant variant enumType => .isEnumVariant variant enumType
  | .enumMember enumType variant memberIndex => .enumMember enumType variant memberIndex
  | .indexTuple idx types => .indexTuple idx types
  | .flipPort => .flipPort | .readMutWires => .readMutWires
  | .instance_ name params => .instance_ name params
  | .alias => .alias | .nop => .nop

/-- The contents of the memory that the operator declares. -/
def Operator.contents? {σ : Type} : Operator σ → Option (List (List σ))
  | .declClockedMemory _ _ _ _ initial => initial
  | _ => none

/-- The operator without the contents of its memory. -/
def Operator.erased {σ : Type} (op : Operator σ) : Operator Empty := op.mapContents fun _ => []

/-- The operator with the given contents of its memory. -/
def Operator.withContents {σ : Type} (contents : Option (List (List σ))) :
    Operator Empty → Operator σ
  | .declClockedMemory writePorts addrW innerW elems _ =>
      .declClockedMemory writePorts addrW innerW elems contents
  | op => op.mapContents fun _ => []

theorem Operator.withContents_erased {σ : Type} (op : Operator σ) :
    op.erased.withContents op.contents? = op := by
  cases op <;> rfl

/-- Equality of operators, apart from their contents and of their contents. -/
theorem Operator.eq_iff {σ : Type} (op op' : Operator σ) :
    op.contents? = op'.contents? ∧ op.erased = op'.erased ↔ op = op' := by
  constructor
  · rintro ⟨hcontents, herased⟩
    rw [← op.withContents_erased, hcontents, herased, op'.withContents_erased]
  · rintro rfl
    exact ⟨rfl, rfl⟩

/-- Equality with an operator without contents. -/
def Operator.decEqOfContents {σ : Type} {op : Operator σ} (h : op.contents? = none)
    (op' : Operator σ) : Decidable (op = op') :=
  decidable_of_iff (op'.contents? = none ∧ op.erased = op'.erased) <| by
    rw [← eq_iff op op', h, eq_comm]

/-! ### Statements -/

namespace Statement

/- Equality of statements, one function for every container the recursion goes through. -/
mutual

def decEqStatement : (s t : Statement) → Decidable (s = t)
  | binding ⟨name, op, operands, ty⟩, t =>
      match t with
      | binding ⟨name', op', operands', ty'⟩ =>
          have := decEqOperator op op'
          decidable_of_iff (name = name' ∧ op = op' ∧ operands = operands' ∧ ty = ty') (by simp)
      | register _ | constant .. | assert _ | set .. | walTrace .. => isFalse nofun
  | register ⟨name, ty, clock, reset, initial, value, traced⟩, t =>
      match t with
      | register ⟨name', ty', clock', reset', initial', value', traced'⟩ =>
          have := decEqInitial initial initial'
          decidable_of_iff (name = name' ∧ ty = ty' ∧ clock = clock' ∧ reset = reset' ∧
            initial = initial' ∧ value = value' ∧ traced = traced') (by simp)
      | binding _ | constant .. | assert _ | set .. | walTrace .. => isFalse nofun
  | constant id ty value, t =>
      match t with
      | constant id' ty' value' =>
          decidable_of_iff (id = id' ∧ ty = ty' ∧ value = value') (by simp)
      | binding _ | register _ | assert _ | set .. | walTrace .. => isFalse nofun
  | assert value, t =>
      match t with
      | assert value' => decidable_of_iff (value = value') (by simp)
      | binding _ | register _ | constant .. | set .. | walTrace .. => isFalse nofun
  | set target value, t =>
      match t with
      | set target' value' => decidable_of_iff (target = target' ∧ value = value') (by simp)
      | binding _ | register _ | constant .. | assert _ | walTrace .. => isFalse nofun
  | walTrace name val suffix ty, t =>
      match t with
      | walTrace name' val' suffix' ty' =>
          decidable_of_iff (name = name' ∧ val = val' ∧ suffix = suffix' ∧ ty = ty') (by simp)
      | binding _ | register _ | constant .. | assert _ | set .. => isFalse nofun
termination_by structural s => s

def decEqOperator : (op op' : Operator Statement) → Decidable (op = op')
  | .declClockedMemory writePorts addrW innerW elems initial, op' =>
      have := decEqContents initial op'.contents?
      let op : Op := .declClockedMemory writePorts addrW innerW elems initial
      decidable_of_iff (initial = op'.contents? ∧ op.erased = op'.erased) (Operator.eq_iff op op')
  | .add, _ | .unsignedAdd, _ | .sub, _ | .unsignedSub, _ | .mul, _ | .unsignedMul, _ | .div, _
  | .unsignedDiv, _ | .mod, _ | .unsignedMod, _ | .eq, _ | .notEq, _ | .gt, _ | .unsignedGt, _
  | .lt, _ | .unsignedLt, _ | .ge, _ | .unsignedGe, _ | .le, _ | .unsignedLe, _ | .leftShift, _
  | .rightShift, _ | .arithmeticRightShift, _ | .logicalAnd, _ | .logicalOr, _ | .logicalXor, _
  | .logicalNot, _ | .bitwiseAnd, _ | .bitwiseOr, _ | .bitwiseXor, _ | .reduceAnd, _
  | .reduceOr, _ | .reduceXor, _ | .uSub, _ | .not, _ | .readPort, _ | .bitwiseNot, _
  | .bitreverse, _ | .divPow2, _ | .gray2Bin _, _ | .signExtend .., _ | .zeroExtend _, _
  | .truncate, _ | .concat, _ | .select, _ | .match_, _ | .constructArray, _ | .indexArray, _
  | .indexMemory, _ | .rangeIndexArray .., _ | .rangeIndexBits .., _ | .constructTuple, _
  | .constructEnum .., _ | .isEnumVariant .., _ | .enumMember .., _ | .indexTuple .., _
  | .flipPort, _ | .readMutWires, _ | .instance_ .., _ | .alias, _ | .nop, _ =>
      Operator.decEqOfContents rfl _
termination_by structural op => op

def decEqContents : (a b : Option (List (List Statement))) → Decidable (a = b)
  | none, none => isTrue rfl
  | some _, none | none, some _ => isFalse nofun
  | some a, some b =>
      have := decEqBlocks a b
      decidable_of_iff (a = b) (by simp)
termination_by structural a => a

def decEqInitial : (a b : Option (List Statement)) → Decidable (a = b)
  | none, none => isTrue rfl
  | some _, none | none, some _ => isFalse nofun
  | some a, some b =>
      have := decEqBlock a b
      decidable_of_iff (a = b) (by simp)
termination_by structural a => a

def decEqBlocks : (a b : List (List Statement)) → Decidable (a = b)
  | [], [] => isTrue rfl
  | _ :: _, [] | [], _ :: _ => isFalse nofun
  | a :: as, b :: bs =>
      have := decEqBlock a b
      have := decEqBlocks as bs
      decidable_of_iff (a = b ∧ as = bs) (by simp)
termination_by structural a => a

def decEqBlock : (a b : List Statement) → Decidable (a = b)
  | [], [] => isTrue rfl
  | _ :: _, [] | [], _ :: _ => isFalse nofun
  | s :: ss, t :: ts =>
      have := decEqStatement s t
      have := decEqBlock ss ts
      decidable_of_iff (s = t ∧ ss = ts) (by simp)
termination_by structural a => a

end

instance : DecidableEq Statement := decEqStatement

end Statement

end Spade.Mir

import Spade.Mir.Types

/-!
# The mid-level representation

The embedding of the syntax declared in `spade-mir/src/lib.rs`: value names, constants,
operators, statements and entities.

Two pieces of data are left out because nothing modelled here reads them: source locations, and
the `NameID` a value name originates from (the source skips it when it compares names). The
constant statements that initialise a register or a memory are statements themselves, so the
operators, bindings and registers take the type of these statements as a parameter and
`Statement` ties the knot.
-/

namespace Spade.Mir

/-- `ValueName`: the name of a value, either the name of a variable together with an index that
makes it locally unique, or the id of an expression. -/
inductive ValueName where
  | named (id : ℕ) (name : String)
  | expr (id : ℕ)
  deriving DecidableEq, Repr

/-- `ConstantValue`. -/
inductive ConstantValue where
  | int (val : ℤ)
  | bool (val : Bool)
  | highImp
  deriving DecidableEq, Repr

/-- `ParamName`: the name of a parameter of an instantiated module. -/
structure ParamName where
  name : String
  noMangle : Bool
  deriving DecidableEq, Repr

/-- `Operator`: what a binding computes from its operands. `σ` is the type of the statements
that compute the initial contents of a memory. -/
inductive Operator (σ : Type) where
  | add | unsignedAdd | sub | unsignedSub | mul | unsignedMul
  | div | unsignedDiv | mod | unsignedMod
  | eq | notEq
  | gt | unsignedGt | lt | unsignedLt | ge | unsignedGe | le | unsignedLe
  | leftShift | rightShift | arithmeticRightShift
  | logicalAnd | logicalOr | logicalXor | logicalNot
  | bitwiseAnd | bitwiseOr | bitwiseXor
  | reduceAnd | reduceOr | reduceXor
  | uSub | not | readPort | bitwiseNot | bitreverse
  /-- Divide the first operand by two to the power of the second one. -/
  | divPow2
  | gray2Bin (numBits : ℕ)
  | signExtend (extraBits operandSize : ℕ)
  | zeroExtend (extraBits : ℕ)
  | truncate
  /-- Concatenate the bits of all operands. -/
  | concat
  /-- Select the second operand if the first one is true, the third one otherwise. -/
  | select
  /-- If operand 0 is true, select operand 1, if operand 2 is true, operand 3, and so on. -/
  | match_
  | constructArray
  | declClockedMemory (writePorts addrW innerW elems : ℕ) (initial : Option (List (List σ)))
  | indexArray
  | indexMemory
  | rangeIndexArray (start endExclusive : ℕ)
  /-- Compiles to Verilog `[end_exclusive:start]`, or `[start]` for a single bit. -/
  | rangeIndexBits (start endExclusive : ℕ)
  | constructTuple
  | constructEnum (variant variantCount : ℕ)
  /-- 1 if the operand is the given variant. -/
  | isEnumVariant (variant : ℕ) (enumType : Ty)
  /-- The `memberIndex`th member of the payload of the given variant. -/
  | enumMember (enumType : Ty) (variant memberIndex : ℕ)
  | indexTuple (idx : ℕ) (types : List Ty)
  | flipPort
  | readMutWires
  | instance_ (name : String) (params : List ParamName)
  | alias
  | nop

/-- `Binding`: the definition of a value by an operator. -/
structure Binding (σ : Type) where
  name : ValueName
  operator : Operator σ
  operands : List ValueName
  ty : Ty

/-- `Register`. The reset is a trigger together with the value it loads. -/
structure Register (σ : Type) where
  name : ValueName
  ty : Ty
  clock : ValueName
  reset : Option (ValueName × ValueName)
  initial : Option (List σ)
  value : ValueName
  /-- The state variable of the state machine this register holds, when it is traced as one. -/
  traced : Option ValueName

/-- `Statement`. -/
inductive Statement where
  | binding (binding : Binding Statement)
  | register (register : Register Statement)
  | constant (id : ℕ) (ty : Ty) (value : ConstantValue)
  | assert (value : ValueName)
  | set (target value : ValueName)
  | walTrace (name val : ValueName) (suffix : String) (ty : Ty)

/-- `MirInput`. -/
structure MirInput where
  name : String
  valName : ValueName
  ty : Ty
  noMangle : Bool

/-- `Entity`. -/
structure Entity where
  name : String
  inputs : List MirInput
  output : ValueName
  outputType : Ty
  statements : List Statement

/-- The operator of a binding statement, with the knot tied. -/
abbrev Op := Operator Statement

/-- Whether the operator is `Operator::Alias`. -/
def Operator.isAlias {σ : Type} : Operator σ → Bool
  | .alias => true
  | _ => false

theorem Operator.isAlias_iff {σ : Type} {op : Operator σ} : op.isAlias = true ↔ op = .alias := by
  cases op <;> simp [isAlias]

/-- Whether the operator is `Operator::Match`. -/
def Operator.isMatch {σ : Type} : Operator σ → Bool
  | .match_ => true
  | _ => false

/-- Whether a value name is a `ValueName::Expr`. -/
def ValueName.isExpr : ValueName → Bool
  | expr _ => true
  | named _ _ => false

theorem ValueName.isExpr_iff {n : ValueName} : n.isExpr = true ↔ ∃ id, n = expr id := by
  cases n <;> simp [isExpr]

/-! ### The names of a statement -/

/-- The names a statement defines. -/
def Statement.defined : Statement → List ValueName
  | .binding b => [b.name]
  | .register r => [r.name]
  | .constant id _ _ => [.expr id]
  | .assert _ | .set .. | .walTrace .. => []

/-- The names a register reads. -/
def Register.used {σ : Type} (r : Register σ) : List ValueName :=
  r.clock :: r.value :: ((r.reset.toList.flatMap fun p => [p.1, p.2]) ++ r.traced.toList)

/-- The names a statement reads. -/
def Statement.used : Statement → List ValueName
  | .binding b => b.operands
  | .register r => r.used
  | .constant .. => []
  | .assert value => [value]
  | .set target value => [target, value]
  | .walTrace name val _ _ => [name, val]

/-- The names a list of statements defines. -/
def definedNames (stmts : List Statement) : List ValueName :=
  stmts.flatMap Statement.defined

@[simp] theorem definedNames_nil : definedNames [] = [] := rfl

@[simp] theorem definedNames_cons (s : Statement) (stmts : List Statement) :
    definedNames (s :: stmts) = s.defined ++ definedNames stmts := rfl

@[simp] theorem definedNames_append (stmts stmts' : List Statement) :
    definedNames (stmts ++ stmts') = definedNames stmts ++ definedNames stmts' :=
  List.flatMap_append

/-- The ids from `next` on are fresh for a list of statements. -/
def FreshFrom (next : ℕ) (stmts : List Statement) : Prop :=
  ∀ s ∈ stmts, ∀ id, .expr id ∈ s.defined ++ s.used → id < next

theorem mem_definedNames {stmts : List Statement} {x : ValueName} :
    x ∈ definedNames stmts ↔ ∃ s ∈ stmts, x ∈ s.defined :=
  List.mem_flatMap

end Spade.Mir

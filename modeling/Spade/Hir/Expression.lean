import Spade.Hir.Pattern
import Spade.Hir.TypeSpec

/-!
# Expressions and statements

The expressions and statements of units, from `spade-hir/src/expression.rs` and
`spade-hir/src/lib.rs`, and which expressions are known at compile time
(`Expression.runtimeRequirementWitness`).

The locations are left out, and so are the names of the arguments of a call and its turbofish,
which are resolved before the functions modelled here look at the arguments, and the attributes
of a register.
-/

namespace Spade.Hir

/-- `BinaryOperator`. -/
inductive BinaryOperator where
  | add | sub | mul | div | mod
  | eq | notEq | gt | lt | ge | le
  | leftShift | rightShift | arithmeticRightShift
  | logicalAnd | logicalOr | logicalXor
  | bitwiseOr | bitwiseAnd | bitwiseXor
  deriving DecidableEq

/-- `UnaryOperator`. -/
inductive UnaryOperator where
  | sub | not | bitwiseNot | dereference | reference | flipPort
  deriving DecidableEq

/-- `BitLiteral`. -/
inductive BitLiteral where
  | low | high | highImp

/-- `IntLiteralKind`. -/
inductive IntLiteralKind where
  | unsized
  | signed (size : ℕ)
  | unsigned (size : ℕ)

/-- `PipelineRefKind`. -/
inductive PipelineRefKind where
  | absolute (name : NameID)
  | relative (offset : TypeExpression)

/-- `CallKind`. -/
inductive CallKind where
  | function
  | entity
  | pipeline (depth : TypeExpression) (depthTypeexprId : ℕ)

mutual

/-- `Expression` with its `ExprKind`. Every expression has an id. -/
inductive Expression where
  | identifier (id : ℕ) (name : NameID)
  | intLiteral (id : ℕ) (value : ℤ) (kind : IntLiteralKind)
  | boolLiteral (id : ℕ) (value : Bool)
  | bitLiteral (id : ℕ) (value : BitLiteral)
  | typeLevelInteger (id : ℕ) (name : NameID)
  | createPorts (id : ℕ)
  | tupleLiteral (id : ℕ) (elems : List Expression)
  | arrayLiteral (id : ℕ) (elems : List Expression)
  | arrayShorthandLiteral (id : ℕ) (value : Expression) (amount : ℕ)
  | index (id : ℕ) (target index : Expression)
  | rangeIndex (id : ℕ) (target : Expression) (start endExclusive : ℕ)
  | tupleIndex (id : ℕ) (target : Expression) (idx : ℕ)
  | fieldAccess (id : ℕ) (target : Expression) (field : String)
  | methodCall (id : ℕ) (target : Expression) (name : String) (args : List Expression)
      (callKind : CallKind)
  | call (id : ℕ) (kind : CallKind) (callee : NameID) (args : List Expression)
  | binaryOperator (id : ℕ) (lhs : Expression) (op : BinaryOperator) (rhs : Expression)
  | unaryOperator (id : ℕ) (op : UnaryOperator) (operand : Expression)
  | match_ (id : ℕ) (operand : Expression) (branches : List (Pattern × Expression))
  | block (id : ℕ) (statements : List Statement) (result : Option Expression)
  | if_ (id : ℕ) (cond onTrue onFalse : Expression)
  | pipelineRef (id : ℕ) (stage : PipelineRefKind) (name : NameID) (declaresName : Bool)
      (depthTypeexprId : ℕ)
  | stageValid (id : ℕ)
  | stageReady (id : ℕ)
  /-- An expression that user code never contains. -/
  | null (id : ℕ)

/-- `PipelineRegMarkerExtra`. -/
inductive PipelineRegMarkerExtra where
  | condition (cond : Expression)
  | count (count : TypeExpression) (countTypeexprId : ℕ)

/-- `Statement`. The wal trace of a binding is given by its clock and its reset, the reset of a
register by the trigger and the value it loads. -/
inductive Statement where
  | binding (pattern : Pattern) (value : Expression)
      (walTrace : Option (Option Expression × Option Expression))
  | register (pattern : Pattern) (clock : Expression) (reset : Option (Expression × Expression))
      (initial : Option Expression) (value : Expression)
  | declaration (names : List NameID)
  | pipelineRegMarker (extra : Option PipelineRegMarkerExtra)
  | label (name : NameID)
  | assert (value : Expression)
  | set (target value : Expression)
  | walSuffixed (suffix : String) (target : NameID)

end

namespace Expression

/-- The id of an expression. -/
def id : Expression → ℕ
  | identifier id _ | intLiteral id _ _ | boolLiteral id _ | bitLiteral id _
  | typeLevelInteger id _ | createPorts id | tupleLiteral id _ | arrayLiteral id _
  | arrayShorthandLiteral id _ _ | index id _ _ | rangeIndex id _ _ _ | tupleIndex id _ _
  | fieldAccess id _ _ | methodCall id _ _ _ _ | call id _ _ _ | binaryOperator id _ _ _
  | unaryOperator id _ _ | match_ id _ _ | block id _ _ | if_ id _ _ _ | pipelineRef id _ _ _ _
  | stageValid id | stageReady id | null id => id

/-! ### Compile-time expressions -/

mutual

/-- `runtime_requirement_witness`: a subexpression that requires run time. -/
def runtimeRequirementWitness : Expression → Option Expression
  | identifier id name => some (identifier id name)
  | typeLevelInteger _ _ => none
  | intLiteral _ _ _ => none
  | boolLiteral _ _ => none
  | bitLiteral id value => some (bitLiteral id value)
  | tupleLiteral _ inner => runtimeRequirementWitnesses inner
  | arrayLiteral _ inner => runtimeRequirementWitnesses inner
  | arrayShorthandLiteral _ inner _ => inner.runtimeRequirementWitness
  | createPorts id => some (createPorts id)
  | index _ l r => l.runtimeRequirementWitness.or r.runtimeRequirementWitness
  | rangeIndex id target start endExclusive => some (rangeIndex id target start endExclusive)
  | tupleIndex _ l _ => l.runtimeRequirementWitness
  | fieldAccess _ l _ => l.runtimeRequirementWitness
  | methodCall id target name args callKind => some (methodCall id target name args callKind)
  | call id kind callee args => some (call id kind callee args)
  | binaryOperator id l operator r =>
      match l.runtimeRequirementWitness.or r.runtimeRequirementWitness with
      | some witness => some witness
      | none =>
          match operator with
          | .add | .sub => none
          | _ => some (binaryOperator id l operator r)
  | unaryOperator id op operand =>
      match operand.runtimeRequirementWitness with
      | some witness => some witness
      | none =>
          match op with
          | .sub => none
          | _ => some (unaryOperator id op operand)
  | match_ id operand branches => some (match_ id operand branches)
  | block id statements result => some (block id statements result)
  | if_ id cond onTrue onFalse => some (if_ id cond onTrue onFalse)
  | pipelineRef id stage name declaresName depthTypeexprId =>
      some (pipelineRef id stage name declaresName depthTypeexprId)
  | stageReady _ => none
  | stageValid _ => none
  | null _ => none

/-- The first witness in a list of expressions. -/
def runtimeRequirementWitnesses : List Expression → Option Expression
  | [] => none
  | e :: es => e.runtimeRequirementWitness.or (runtimeRequirementWitnesses es)

end

/-- An expression that is known at compile time: every part of it is. -/
inductive CompileTime : Expression → Prop where
  | intLiteral (id : ℕ) (value : ℤ) (kind : IntLiteralKind) :
      CompileTime (.intLiteral id value kind)
  | boolLiteral (id : ℕ) (value : Bool) : CompileTime (.boolLiteral id value)
  | typeLevelInteger (id : ℕ) (name : NameID) : CompileTime (.typeLevelInteger id name)
  | tupleLiteral (id : ℕ) {elems : List Expression} (h : ∀ e ∈ elems, CompileTime e) :
      CompileTime (.tupleLiteral id elems)
  | arrayLiteral (id : ℕ) {elems : List Expression} (h : ∀ e ∈ elems, CompileTime e) :
      CompileTime (.arrayLiteral id elems)
  | arrayShorthandLiteral (id : ℕ) {value : Expression} (amount : ℕ) (h : CompileTime value) :
      CompileTime (.arrayShorthandLiteral id value amount)
  | index (id : ℕ) {target index : Expression} (h : CompileTime target) (h' : CompileTime index) :
      CompileTime (.index id target index)
  | tupleIndex (id : ℕ) {target : Expression} (idx : ℕ) (h : CompileTime target) :
      CompileTime (.tupleIndex id target idx)
  | fieldAccess (id : ℕ) {target : Expression} (field : String) (h : CompileTime target) :
      CompileTime (.fieldAccess id target field)
  | binaryOperator (id : ℕ) {lhs rhs : Expression} {op : BinaryOperator}
      (hop : op = .add ∨ op = .sub) (h : CompileTime lhs) (h' : CompileTime rhs) :
      CompileTime (.binaryOperator id lhs op rhs)
  | unaryOperator (id : ℕ) {operand : Expression} (h : CompileTime operand) :
      CompileTime (.unaryOperator id .sub operand)
  | stageReady (id : ℕ) : CompileTime (.stageReady id)
  | stageValid (id : ℕ) : CompileTime (.stageValid id)
  | null (id : ℕ) : CompileTime (.null id)

mutual

/-- There is no witness exactly for the expressions that are known at compile time. -/
theorem compileTime_of_witness_eq_none :
    (e : Expression) → e.runtimeRequirementWitness = none → CompileTime e
  | typeLevelInteger id name, _ => .typeLevelInteger id name
  | intLiteral id value kind, _ => .intLiteral id value kind
  | boolLiteral id value, _ => .boolLiteral id value
  | tupleLiteral id elems, h => .tupleLiteral id (compileTime_of_witnesses_eq_none elems h)
  | arrayLiteral id elems, h => .arrayLiteral id (compileTime_of_witnesses_eq_none elems h)
  | arrayShorthandLiteral id value amount, h =>
      .arrayShorthandLiteral id amount (compileTime_of_witness_eq_none value h)
  | index id l r, h => by
      rw [runtimeRequirementWitness, Option.or_eq_none_iff] at h
      exact .index id (compileTime_of_witness_eq_none l h.1) (compileTime_of_witness_eq_none r h.2)
  | tupleIndex id l idx, h => .tupleIndex id idx (compileTime_of_witness_eq_none l h)
  | fieldAccess id l field, h => .fieldAccess id field (compileTime_of_witness_eq_none l h)
  | binaryOperator id l op r, h => by
      unfold runtimeRequirementWitness at h
      split at h
      · cases h
      · rename_i hlr
        rw [Option.or_eq_none_iff] at hlr
        have hop : op = .add ∨ op = .sub := by cases op <;> simp_all
        exact .binaryOperator id hop (compileTime_of_witness_eq_none l hlr.1)
          (compileTime_of_witness_eq_none r hlr.2)
  | unaryOperator id op operand, h => by
      unfold runtimeRequirementWitness at h
      split at h
      · cases h
      · rename_i ho
        have hop : op = .sub := by cases op <;> simp_all
        exact hop ▸ .unaryOperator id (compileTime_of_witness_eq_none operand ho)
  | stageReady id, _ => .stageReady id
  | stageValid id, _ => .stageValid id
  | null id, _ => .null id

theorem compileTime_of_witnesses_eq_none :
    (es : List Expression) → runtimeRequirementWitnesses es = none → ∀ e ∈ es, CompileTime e
  | [], _ => fun _ he => absurd he List.not_mem_nil
  | e :: es, h => by
      rw [runtimeRequirementWitnesses, Option.or_eq_none_iff] at h
      rw [List.forall_mem_cons]
      exact ⟨compileTime_of_witness_eq_none e h.1, compileTime_of_witnesses_eq_none es h.2⟩

end

end Expression

end Spade.Hir

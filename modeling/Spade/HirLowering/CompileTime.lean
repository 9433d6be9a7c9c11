import Spade.HirLowering.Expressions
import Spade.Lib.OptionList
import Spade.Mir.Eval

/-!
# Evaluation of compile-time expressions

The initial value of a register or a memory is an expression without a runtime witness. It is
lowered to statements, and the evaluator runs these.

* **Parts** (`supported_of_evalFrom`, `exists_evalFrom`): the statements of an expression evaluate
  exactly when the evaluator supports every part of it, and the names of the parts get values of
  their types.
* **Expressions** (`compile_time_evaluation`): there is a value of the width of the type exactly
  when the evaluator supports every part of the expression.
* **Indexing** (`not_compile_time_evaluation`): a member of a constant tuple has no witness, but
  the evaluator panics on it.
-/

namespace Spade.HirLowering

open Mir hiding Statement
open Hir hiding Value
open ConcreteType (toMirType toMirTypes)

/-! ### Typing -/

/-- The type of the signed or unsigned integers of a size. -/
def number (signed : Bool) (size : ℕ) : ConcreteType :=
  .single (if signed then .int else .uint) [.integer size]

/-- What type inference guarantees about the parts of an expression that is known at compile
time. -/
inductive WellTyped (ctx : ExpressionContext) : Expression → Prop where
  | intLiteral {id : ℕ} (value : ℤ) (kind : IntLiteralKind) {signed : Bool} {size : ℕ}
      (h : ctx.typeOfId id = number signed size) : WellTyped ctx (.intLiteral id value kind)
  | typeLevelInteger {id : ℕ} {name : NameID} {value : ℤ} {signed : Bool} {size : ℕ}
      (hvalue : ctx.typeLevelInteger name = some value)
      (h : ctx.typeOfId id = number signed size) : WellTyped ctx (.typeLevelInteger id name)
  | boolLiteral {id : ℕ} (value : Bool) (h : ctx.typeOfId id = .single .bool []) :
      WellTyped ctx (.boolLiteral id value)
  | tupleLiteral {id : ℕ} {elems : List Expression}
      (h : ctx.typeOfId id = .tuple (elems.map fun e => ctx.typeOfId e.id))
      (helems : ∀ e ∈ elems, WellTyped ctx e) : WellTyped ctx (.tupleLiteral id elems)
  | arrayLiteral {id : ℕ} {elems : List Expression} {inner : ConcreteType} {t : Ty}
      (h : ctx.typeOfId id = .array inner elems.length) (ht : inner.toMirType = some t)
      (hinner : ∀ e ∈ elems, ctx.typeOfId e.id = inner)
      (helems : ∀ e ∈ elems, WellTyped ctx e) : WellTyped ctx (.arrayLiteral id elems)
  | arrayShorthandLiteral {id amount : ℕ} {value : Expression}
      (h : ctx.typeOfId id = .array (ctx.typeOfId value.id) amount)
      (hvalue : WellTyped ctx value) : WellTyped ctx (.arrayShorthandLiteral id value amount)
  | index {id : ℕ} {target index : Expression} {size : ℤ}
      (h : ctx.typeOfId target.id = .array (ctx.typeOfId id) size)
      (htarget : WellTyped ctx target) (hindex : WellTyped ctx index) :
      WellTyped ctx (.index id target index)
  | tupleIndex {id idx : ℕ} {target : Expression} {inner : List ConcreteType}
      (h : ctx.typeOfId target.id = .tuple inner) (hid : inner[idx]? = some (ctx.typeOfId id))
      (htarget : WellTyped ctx target) : WellTyped ctx (.tupleIndex id target idx)
  | fieldAccess {id : ℕ} {target : Expression} {field : String}
      {members : List (String × ConcreteType)} (h : ctx.typeOfId target.id = .struct members)
      (hid : (field, ctx.typeOfId id) ∈ members) (htarget : WellTyped ctx target) :
      WellTyped ctx (.fieldAccess id target field)
  | binaryOperator {id : ℕ} {lhs rhs : Expression} (op : BinaryOperator) {signed : Bool}
      {a b c : ℕ} (h : ctx.typeOfId id = number signed c)
      (hlhsTy : ctx.typeOfId lhs.id = number signed a)
      (hrhsTy : ctx.typeOfId rhs.id = number signed b)
      (hlhs : WellTyped ctx lhs) (hrhs : WellTyped ctx rhs) :
      WellTyped ctx (.binaryOperator id lhs op rhs)
  | unaryOperator {id : ℕ} {operand : Expression} {a c : ℕ}
      (h : ctx.typeOfId id = number true c) (hty : ctx.typeOfId operand.id = number true a)
      (hoperand : WellTyped ctx operand) : WellTyped ctx (.unaryOperator id .sub operand)
  | stageReady {id : ℕ} (h : ctx.typeOfId id = .single .bool []) : WellTyped ctx (.stageReady id)
  | stageValid {id : ℕ} (h : ctx.typeOfId id = .single .bool []) : WellTyped ctx (.stageValid id)
  | null (id : ℕ) : WellTyped ctx (.null id)

/-- The signals of the stages are variables with a name, not the values of expressions. -/
def PipelineContext.Named (signals : PipelineContext) : Prop :=
  ∀ s, some s ∈ signals.readySignals ++ signals.validSignals → ∃ n : NameID, s = n.valueName

/-- The evaluator supports every part of the expression: nothing is taken out of an array, a
tuple or a struct, only signed integers are added and subtracted, and the stage that `stage.ready`
or `stage.valid` stands in has no such signal. -/
inductive Supported (ctx : ExpressionContext) : Expression → Prop where
  | intLiteral (id : ℕ) (value : ℤ) (kind : IntLiteralKind) :
      Supported ctx (.intLiteral id value kind)
  | typeLevelInteger (id : ℕ) (name : NameID) : Supported ctx (.typeLevelInteger id name)
  | boolLiteral (id : ℕ) (value : Bool) : Supported ctx (.boolLiteral id value)
  | tupleLiteral (id : ℕ) {elems : List Expression} (helems : ∀ e ∈ elems, Supported ctx e) :
      Supported ctx (.tupleLiteral id elems)
  | arrayLiteral (id : ℕ) {elems : List Expression} (helems : ∀ e ∈ elems, Supported ctx e) :
      Supported ctx (.arrayLiteral id elems)
  | arrayShorthandLiteral (id : ℕ) {value : Expression} {amount : ℕ} (hamount : amount < 2 ^ 64)
      (hvalue : Supported ctx value) : Supported ctx (.arrayShorthandLiteral id value amount)
  | binaryOperator (id : ℕ) {lhs rhs : Expression} (op : BinaryOperator) {size : ℕ}
      (hsigned : ctx.typeOfId lhs.id = number true size) (hlhs : Supported ctx lhs)
      (hrhs : Supported ctx rhs) : Supported ctx (.binaryOperator id lhs op rhs)
  | unaryOperator (id : ℕ) (op : UnaryOperator) {operand : Expression}
      (hoperand : Supported ctx operand) : Supported ctx (.unaryOperator id op operand)
  | stageReady (id : ℕ) {signals : PipelineContext} (hctx : ctx.pipelineContext = some signals)
      (hsignal : signals.readySignals[ctx.currentStage]? = some none) :
      Supported ctx (.stageReady id)
  | stageValid (id : ℕ) {signals : PipelineContext} (hctx : ctx.pipelineContext = some signals)
      (hsignal : signals.validSignals[ctx.currentStage]? = some none) :
      Supported ctx (.stageValid id)

/-! ### Values of a type -/

/-- A value for an expression: it has the width of the type, and an integer is one of the signed
values of the evaluator, whatever the type says. -/
structure Fits (ctx : ExpressionContext) (id : ℕ) (v : Value) : Prop where
  width : ∃ t, (ctx.typeOfId id).toMirType = some t ∧ v.width = t.size
  int : ∀ signed size, ctx.typeOfId id = number signed size → ∃ n i, v = .int n i

theorem toMirType_number (signed : Bool) (size : ℕ) :
    (number signed size).toMirType = some (if signed then .int size else .uint size) := by
  cases signed <;> simp [number, toMirType]

theorem toMirType_array_length {ctx : ExpressionContext} {id n : ℕ} {inner : ConcreteType} {t : Ty}
    (h : ctx.typeOfId id = .array inner n) (ht : inner.toMirType = some t) :
    (ctx.typeOfId id).toMirType = some (.array t n) := by
  simp [h, toMirType, ht]

theorem fits_int {ctx : ExpressionContext} {id : ℕ} {t : Ty}
    (ht : (ctx.typeOfId id).toMirType = some t) (i : ℤ) : Fits ctx id (.int t.size i) where
  width := ⟨t, ht, rfl⟩
  int _ _ _ := ⟨t.size, i, rfl⟩

theorem fits_bit {ctx : ExpressionContext} {id : ℕ} (h : ctx.typeOfId id = .single .bool [])
    (b : Bool) : Fits ctx id (.bit b) where
  width := ⟨.bool, by rw [h, toMirType], rfl⟩
  int signed size hty := by
    rw [h, number] at hty
    cases signed <;> cases hty

theorem widths_eq (vs : List Value) : Value.widths vs = (vs.map Value.width).sum := by
  induction vs with
  | nil => rfl
  | cons v vs ih => rw [Value.widths, ih, List.map_cons, List.sum_cons]

/-- The width of a tuple is the sum of the widths of its elements. -/
theorem fits_tuple {ctx : ExpressionContext} {id : ℕ} {elems : List Expression}
    (h : ctx.typeOfId id = .tuple (elems.map fun e => ctx.typeOfId e.id)) {vals : List Value}
    (hvals : List.Forall₂ (fun e v => Fits ctx e.id v) elems vals) :
    Fits ctx id (.constructTuple vals) where
  width := by
    have hsum : ∃ ts, toMirTypes (elems.map fun e => ctx.typeOfId e.id) = some ts ∧
        Value.widths vals = Ty.sizeSum ts := by
      clear h
      induction hvals with
      | nil => exact ⟨[], rfl, rfl⟩
      | cons hv _ ih =>
          obtain ⟨t, ht, hw⟩ := hv.width
          obtain ⟨ts, hts, hws⟩ := ih
          exact ⟨t :: ts, by simp [toMirTypes, ht, hts], by rw [Value.widths, hw, hws, Ty.sizeSum]⟩
    obtain ⟨ts, hts, hws⟩ := hsum
    exact ⟨.tuple ts, by simp [h, toMirType, hts], hws⟩
  int signed size hty := by rw [h, number] at hty; cases hty

/-- The width of an array is the width of its elements times their number. -/
theorem fits_array {ctx : ExpressionContext} {id : ℕ} {inner : ConcreteType} {t : Ty}
    {vals : List Value} (h : ctx.typeOfId id = .array inner vals.length)
    (ht : inner.toMirType = some t) (hvals : ∀ v ∈ vals, v.width = t.size) :
    Fits ctx id (.constructArray vals) where
  width := by
    refine ⟨.array t vals.length, toMirType_array_length h ht, ?_⟩
    rw [Value.constructArray, Value.width, widths_eq, List.map_reverse, List.sum_reverse,
      List.map_congr_left hvals, List.map_const', List.sum_replicate_nat, Ty.size,
      Nat.mul_comm]
  int signed size hty := by rw [h, number] at hty; cases hty

/-! ### States of the evaluator -/

/-- Every value that the evaluator has so far fits the expression it is named by. -/
def AllFit (ctx : ExpressionContext) (s : EvalState) : Prop :=
  ∀ name v, s.nameVals name = some v → ∃ id, name = .expr id ∧ Fits ctx id v

/-- What the evaluation of an expression leaves behind: its value under its name, and a value under
every name that had one. -/
structure Computed (ctx : ExpressionContext) (s s' : EvalState) (id : ℕ) (r : Option Value) :
    Prop where
  allFit : AllFit ctx s'
  grows : ∀ name, (s.nameVals name).isSome → (s'.nameVals name).isSome
  value : ∃ v, r = some v ∧ s'.nameVals (.expr id) = some v

/-- As `Computed`, for several expressions. -/
structure ComputedAll (ctx : ExpressionContext) (s s' : EvalState) (elems : List Expression) :
    Prop where
  allFit : AllFit ctx s'
  grows : ∀ name, (s.nameVals name).isSome → (s'.nameVals name).isSome
  values : ∀ e ∈ elems, ∃ v, s'.nameVals (.expr e.id) = some v

section

variable {ctx : ExpressionContext} {s s' : EvalState}

theorem allFit_empty : AllFit ctx .empty := by
  intro name v h
  cases h

theorem AllFit.fits (h : AllFit ctx s) {id : ℕ} {v : Value}
    (hv : s.nameVals (.expr id) = some v) : Fits ctx id v := by
  obtain ⟨id', hid, hfits⟩ := h _ _ hv
  cases hid
  exact hfits

/-- An integer has a signed value in the evaluator, also when its type is unsigned. -/
theorem AllFit.int (h : AllFit ctx s) {id : ℕ} {signed : Bool} {size : ℕ}
    (hty : ctx.typeOfId id = number signed size) {v : Value}
    (hv : s.nameVals (.expr id) = some v) : ∃ n i, v = .int n i :=
  (h.fits hv).int _ _ hty

/-- A new value that fits. -/
theorem Computed.of_insert (hs' : AllFit ctx s')
    (hgrows : ∀ name, (s.nameVals name).isSome → (s'.nameVals name).isSome) {id : ℕ} {v : Value}
    (hv : Fits ctx id v) (ty : Ty) :
    Computed ctx s (s'.insert (.expr id) v ty) id (some v) where
  allFit name w hw := by
    rw [EvalState.nameVals_insert] at hw
    by_cases hname : name = .expr id
    · rw [if_pos hname] at hw
      cases hw
      exact ⟨id, hname, hv⟩
    · rw [if_neg hname] at hw
      exact hs' name w hw
  grows name hsome := by
    rw [EvalState.nameVals_insert]
    by_cases hname : name = .expr id
    · rw [if_pos hname]
      rfl
    · rw [if_neg hname]
      exact hgrows name hsome
  value := ⟨v, rfl, if_pos rfl⟩

/-- The values of the operands of a tuple or an array. -/
theorem ComputedAll.mapM {elems : List Expression} (h : ComputedAll ctx s s' elems) :
    ∃ vals, (elems.map fun e => ValueName.expr e.id).mapM s'.nameVals = some vals ∧
      List.Forall₂ (fun e v => Fits ctx e.id v) elems vals := by
  have hall : ∀ x ∈ elems.map fun e => ValueName.expr e.id, ∃ v, s'.nameVals x = some v := by
    intro x hx
    obtain ⟨e, he, rfl⟩ := List.mem_map.mp hx
    exact h.values e he
  obtain ⟨vals, hvals⟩ := exists_mapM_eq_some hall
  refine ⟨vals, hvals, ?_⟩
  rw [mapM_eq_some_iff, List.forall₂_map_left_iff] at hvals
  exact forall₂_imp_of_mem hvals fun e _ v hv => h.allFit.fits hv

/-- The value of an array of elements of one type fits. -/
theorem ComputedAll.fits_constructArray {elems : List Expression}
    (h : ComputedAll ctx s s' elems) {id : ℕ} {inner : ConcreteType} {t ty : Ty}
    (hid : ctx.typeOfId id = .array inner elems.length) (ht : inner.toMirType = some t)
    (hinner : ∀ e ∈ elems, ctx.typeOfId e.id = inner) {v : Value}
    (hv : s'.evalOperator .constructArray (elems.map fun e => .expr e.id) ty = some v) :
    Fits ctx id v := by
  obtain ⟨vals, hvals, hfits⟩ := h.mapM
  simp only [EvalState.evalOperator, hvals, Option.bind_eq_bind, Option.bind_some,
    Option.some.injEq] at hv
  subst hv
  rw [hfits.length_eq] at hid
  refine fits_array hid ht (forall_mem_of_forall₂ hfits fun e he v hv => ?_)
  obtain ⟨t', ht', hw⟩ := hv.width
  rw [hinner e he, ht, Option.some.injEq] at ht'
  rw [hw, ht']

/-- The value of a tuple fits. -/
theorem ComputedAll.fits_constructTuple {elems : List Expression}
    (h : ComputedAll ctx s s' elems) {id : ℕ} {ty : Ty}
    (hid : ctx.typeOfId id = .tuple (elems.map fun e => ctx.typeOfId e.id)) {v : Value}
    (hv : s'.evalOperator .constructTuple (elems.map fun e => .expr e.id) ty = some v) :
    Fits ctx id v := by
  obtain ⟨vals, hvals, hfits⟩ := h.mapM
  simp only [EvalState.evalOperator, hvals, Option.bind_eq_bind, Option.bind_some,
    Option.some.injEq] at hv
  subst hv
  exact fits_tuple hid hfits

/-- The copies of a computed value. -/
theorem Computed.replicate {e : Expression} {r : Option Value} (h : Computed ctx s s' e.id r)
    (n : ℕ) : ComputedAll ctx s s' (List.replicate n e) where
  allFit := h.allFit
  grows := h.grows
  values x hx := by
    rw [List.eq_of_mem_replicate hx]
    obtain ⟨v, -, hv⟩ := h.value
    exact ⟨v, hv⟩

theorem evalFrom_binding {last r : Option Value} {b : Mir.Binding Mir.Statement} :
    evalFrom s last [.binding b] = some (r, s') ↔
      ∃ v, s.evalOperator b.operator b.operands b.ty = some v ∧ r = some v ∧
        s' = s.insert b.name v b.ty := by
  simp only [evalFrom, EvalState.evalStatement, Option.bind_eq_bind, Option.bind_eq_some_iff,
    Option.some.injEq, Prod.mk.injEq]
  constructor
  · rintro ⟨_, ⟨v, hv, rfl⟩, rfl, rfl⟩
    exact ⟨v, hv, rfl, rfl⟩
  · rintro ⟨v, hv, rfl, rfl⟩
    exact ⟨_, ⟨v, hv, rfl⟩, rfl, rfl⟩

end

theorem evalFrom_bindExpression {s s' : EvalState} {last r : Option Value}
    {stmts : List Mir.Statement} {id : ℕ} {operator : Op} {ops : List ValueName} {ty : Ty} :
    evalFrom s last (stmts ++ [bindExpression id operator ops ty]) = some (r, s') ↔
      ∃ r₁ s₁, evalFrom s last stmts = some (r₁, s₁) ∧ ∃ v,
        s₁.evalOperator operator ops ty = some v ∧ r = some v ∧ s' = s₁.insert (.expr id) v ty := by
  rw [evalFrom_append, Option.bind_eq_some_iff]
  constructor
  · rintro ⟨⟨r₁, s₁⟩, h, hb⟩
    exact ⟨r₁, s₁, h, evalFrom_binding.mp hb⟩
  · rintro ⟨r₁, s₁, h, hb⟩
    exact ⟨⟨r₁, s₁⟩, h, evalFrom_binding.mpr hb⟩

theorem evalFrom_constant {s s' : EvalState} {last r : Option Value} {id : ℕ} {ty : Ty} {i : ℤ} :
    evalFrom s last [.constant id ty (.int i)] = some (r, s') ↔
      r = some (.int ty.size i) ∧ s' = s.insert (.expr id) (.int ty.size i) ty := by
  simp only [evalFrom, EvalState.evalStatement, Option.bind_eq_bind, Option.bind_some,
    Option.some.injEq, Prod.mk.injEq, eq_comm]

theorem evalFrom_constant_bool {s s' : EvalState} {last r : Option Value} {id : ℕ} {ty : Ty}
    {b : Bool} :
    evalFrom s last [.constant id ty (.bool b)] = some (r, s') ↔
      r = some (.bit b) ∧ s' = s.insert (.expr id) (.bit b) ty := by
  simp only [evalFrom, EvalState.evalStatement, Option.bind_eq_bind, Option.bind_some,
    Option.some.injEq, Prod.mk.injEq, eq_comm]

/-! ### Signals of a pipeline -/

/-- What `lower_pipeline` puts into the context. -/
def LoweredPipeline.context (out : LoweredPipeline) : PipelineContext :=
  ⟨out.readySignals, out.validSignals⟩

theorem stageEnableNames_named (numStages : ℕ) (conds : List (Option ValueName)) (next : ℕ) :
    ∀ x, some x ∈ (stageEnableNames numStages conds next).1 → ∃ n : NameID, x = n.valueName := by
  induction conds with
  | nil => exact fun x hx => absurd hx List.not_mem_nil
  | cons cond conds ih =>
      intro x hx
      unfold stageEnableNames at hx
      dsimp only at hx
      split at hx
      · rcases List.mem_cons.mp hx with h | h
        · exact ⟨_, Option.some.inj h⟩
        · exact ih x h
      · rcases List.mem_cons.mp hx with h | h
        · cases h
        · exact ih x h

theorem validSignals_named {clock : ValueName} {ready conds : List (Option ValueName)} {i : ℕ}
    {prev : Option ValueName} {ids : Ids} {out : List (Option ValueName) × List Mir.Statement × Ids}
    (h : validSignals clock ready conds i prev ids = some out) :
    ∀ x, some x ∈ out.1 → ∃ n : NameID, x = n.valueName := by
  induction conds generalizing i prev ids out with
  | nil =>
      cases h
      exact fun x hx => absurd hx List.not_mem_nil
  | cons cond conds ih =>
      unfold validSignals at h
      dsimp only at h
      split at h
      · simp only [Option.bind_eq_bind, Option.bind_eq_some_iff, Option.some.injEq] at h
        obtain ⟨rest, hrest, rfl⟩ := h
        intro x hx
        rcases List.mem_cons.mp hx with hx | hx
        · exact ⟨_, Option.some.inj hx⟩
        · exact ih hrest x hx
      · simp only [Option.bind_eq_bind, Option.bind_eq_some_iff, Option.some.injEq] at h
        obtain ⟨rest, hrest, rfl⟩ := h
        intro x hx
        rcases List.mem_cons.mp hx with hx | hx
        · cases hx
        · exact ih hrest x hx
      · cases h

/-- The signals of a lowered pipeline are variables with a name. -/
theorem lowerPipeline_named {types : NameID → VariableType} {inputs : List NameID}
    {body : List BodyStatement} {ids : Ids} {out : LoweredPipeline}
    (h : lowerPipeline types inputs body ids = some out) : out.context.Named := by
  simp only [lowerPipeline, Option.bind_eq_bind, Option.bind_eq_some_iff, Option.some.injEq] at h
  obtain ⟨clock, -, st, -, enables, -, valids, hvalids, rfl⟩ := h
  intro x hx
  simp only [LoweredPipeline.context, List.mem_append, List.mem_cons, List.not_mem_nil, or_false,
    reduceCtorEq, false_or] at hx
  rcases hx with hx | hx
  · exact stageEnableNames_named _ _ _ x hx
  · exact validSignals_named hvalids x hx

/-! ### Variables -/

/-- The variable of a part that is known at compile time is named by its id. -/
theorem variable_eq {ctx : ExpressionContext} {e : Expression} (h : e.CompileTime)
    {x : ValueName} (hx : ctx.variable e = some x) : x = .expr e.id := by
  cases h with
  | null id => cases hx
  | _ => exact (Option.some.inj hx).symm

theorem variables_eq {ctx : ExpressionContext} {elems : List Expression}
    (h : ∀ e ∈ elems, e.CompileTime) {ops : List ValueName}
    (hops : elems.mapM ctx.variable = some ops) : ops = elems.map fun e => .expr e.id := by
  rw [mapM_eq_some_iff] at hops
  induction hops with
  | nil => rfl
  | cons hx _ ih =>
      rw [List.forall_mem_cons] at h
      rw [List.map_cons, variable_eq h.1 hx, ih h.2]

theorem Supported.variable {ctx : ExpressionContext} {e : Expression} (h : Supported ctx e) :
    ctx.variable e = some (.expr e.id) := by
  cases h <;> rfl

theorem variables_of_supported {ctx : ExpressionContext} {elems : List Expression}
    (h : ∀ e ∈ elems, Supported ctx e) :
    elems.mapM ctx.variable = some (elems.map fun e => .expr e.id) := by
  rw [mapM_eq_some_iff, List.forall₂_map_right_iff, List.forall₂_same]
  exact fun e he => (h e he).variable

/-! ### Parts -/

section

variable {ctx : ExpressionContext}

/-- When the statements of an expression evaluate, every part of the expression is supported. -/
def Sound (ctx : ExpressionContext) (e : Expression) : Prop :=
  ∀ {s s' : EvalState} {last r : Option Value} {stmts : List Mir.Statement}, AllFit ctx s →
    ctx.lower e = some stmts → evalFrom s last stmts = some (r, s') →
    Supported ctx e ∧ Computed ctx s s' e.id r

theorem supported_of_evalFrom_all {elems : List Expression} (h : ∀ e ∈ elems, Sound ctx e)
    {s s' : EvalState} {last r : Option Value} {stmts : List Mir.Statement} (hs : AllFit ctx s)
    (hl : ctx.lowerAll elems = some stmts) (he : evalFrom s last stmts = some (r, s')) :
    (∀ e ∈ elems, Supported ctx e) ∧ ComputedAll ctx s s' elems := by
  induction elems generalizing s last stmts with
  | nil =>
      obtain rfl := Option.some.inj hl
      cases he
      have hnone : ∀ e ∈ ([] : List Expression), Supported ctx e :=
        fun e he => absurd he List.not_mem_nil
      exact ⟨hnone, hs, fun _ h => h, fun e he => absurd he List.not_mem_nil⟩
  | cons e elems ih =>
      rw [List.forall_mem_cons] at h
      simp only [ExpressionContext.lowerAll, Option.bind_eq_bind, Option.bind_eq_some_iff,
        Option.some.injEq] at hl
      obtain ⟨head, hhead, tail, htail, rfl⟩ := hl
      rw [evalFrom_append, Option.bind_eq_some_iff] at he
      obtain ⟨⟨r₁, s₁⟩, he₁, he₂⟩ := he
      obtain ⟨hsup, hcomp⟩ := h.1 hs hhead he₁
      obtain ⟨hsups, hcomps⟩ := ih h.2 hcomp.allFit htail he₂
      refine ⟨List.forall_mem_cons.mpr ⟨hsup, hsups⟩, hcomps.allFit,
        fun n hn => hcomps.grows n (hcomp.grows n hn), List.forall_mem_cons.mpr ⟨?_, hcomps.values⟩⟩
      obtain ⟨v, -, hv⟩ := hcomp.value
      exact Option.isSome_iff_exists.mp (hcomps.grows _ (Option.isSome_of_mem hv))

/-- A copy of the signal of a stage does not evaluate: the signal is not among the statements. -/
theorem eq_none_of_stageSignal {id stage : ℕ} {signals : List (Option ValueName)}
    (hnamed : ∀ x, some x ∈ signals → ∃ n : NameID, x = n.valueName)
    (hty : ctx.typeOfId id = .single .bool []) {s s' : EvalState} {last r : Option Value}
    {stmts : List Mir.Statement} (hs : AllFit ctx s)
    (hl : stageSignal id signals stage = some stmts) (he : evalFrom s last stmts = some (r, s')) :
    signals[stage]? = some none ∧ Computed ctx s s' id r := by
  simp only [stageSignal, Option.bind_eq_bind, Option.bind_eq_some_iff] at hl
  obtain ⟨signal, hsignal, hl⟩ := hl
  cases signal with
  | none =>
      obtain rfl := Option.some.inj hl
      obtain ⟨rfl, rfl⟩ := evalFrom_constant_bool.mp he
      exact ⟨hsignal, .of_insert hs (fun _ h => h) (fits_bit hty true) _⟩
  | some x =>
      obtain rfl := Option.some.inj hl
      obtain ⟨v, hv, -, -⟩ := evalFrom_binding.mp he
      obtain ⟨n, rfl⟩ := hnamed x (List.mem_of_getElem? hsignal)
      obtain ⟨id, hid, -⟩ := hs _ _ hv
      cases hid

/-- Sums and differences of unsigned integers do not evaluate: the evaluator has signed values
for their operands. -/
theorem signed_of_evalOperator {s : EvalState} (hs : AllFit ctx s) {op : BinaryOperator}
    (hop : op = .add ∨ op = .sub) {signed : Bool} {lhs rhs : Expression} {a b : ℕ}
    (hlhs : ctx.typeOfId lhs.id = number signed a) (hrhs : ctx.typeOfId rhs.id = number signed b)
    {operator : Op}
    (hoperator : binaryOperator op (if signed then .int a else .uint a) rhs = some operator)
    {ty : Ty} {v : Value}
    (hv : s.evalOperator operator [.expr lhs.id, .expr rhs.id] ty = some v) :
    signed = true ∧ ∃ i, v = .int ty.size i := by
  have hsigned : signed = true := by
    cases signed with
    | true => rfl
    | false =>
        have hl : ∃ x y, s.nameVals (.expr lhs.id) = some x ∧ x.assumeUint = some y := by
          rcases hop with rfl | rfl
          all_goals
            obtain rfl := Option.some.inj hoperator
            simp only [EvalState.evalOperator, Option.bind_eq_bind, Option.bind_eq_some_iff] at hv
            obtain ⟨x, hx, y, hy, -⟩ := hv
            exact ⟨x, y, hx, hy⟩
        obtain ⟨x, y, hx, hy⟩ := hl
        obtain ⟨n, i, rfl⟩ := hs.int hlhs hx
        cases hy
  subst hsigned
  refine ⟨rfl, ?_⟩
  rcases hop with rfl | rfl
  all_goals
    obtain rfl := Option.some.inj hoperator
    simp only [EvalState.evalOperator, Option.bind_eq_bind, Option.bind_eq_some_iff,
      Option.some.injEq] at hv
    obtain ⟨_, _, _, _, _, _, _, _, rfl⟩ := hv
    exact ⟨_, rfl⟩

/-- When the statements of a well typed expression evaluate, every part of it is supported, and
its value fits. -/
theorem supported_of_evalFrom {e : Expression} (hct : e.CompileTime) (hwt : WellTyped ctx e)
    (hsignals : ∀ signals, ctx.pipelineContext = some signals → signals.Named) : Sound ctx e := by
  induction hct with
  | intLiteral id value kind =>
      intro s s' last r stmts hs hl he
      simp only [ExpressionContext.lower, Option.bind_eq_bind, Option.bind_eq_some_iff,
        Option.some.injEq] at hl
      obtain ⟨t, ht, rfl⟩ := hl
      obtain ⟨rfl, rfl⟩ := evalFrom_constant.mp he
      exact ⟨.intLiteral id value kind, .of_insert hs (fun _ h => h) (fits_int ht value) t⟩
  | boolLiteral id value =>
      intro s s' last r stmts hs hl he
      simp only [ExpressionContext.lower, Option.bind_eq_bind, Option.bind_eq_some_iff,
        Option.some.injEq] at hl
      obtain ⟨t, -, rfl⟩ := hl
      obtain ⟨rfl, rfl⟩ := evalFrom_constant_bool.mp he
      cases hwt with
      | boolLiteral _ hty =>
          exact ⟨.boolLiteral id value, .of_insert hs (fun _ h => h) (fits_bit hty value) t⟩
  | typeLevelInteger id name =>
      intro s s' last r stmts hs hl he
      simp only [ExpressionContext.lower, Option.bind_eq_bind, Option.bind_eq_some_iff,
        Option.some.injEq] at hl
      obtain ⟨t, ht, value, -, rfl⟩ := hl
      obtain ⟨rfl, rfl⟩ := evalFrom_constant.mp he
      exact ⟨.typeLevelInteger id name, .of_insert hs (fun _ h => h) (fits_int ht value) t⟩
  | @tupleLiteral id elems hct ih =>
      intro s s' last r stmts hs hl he
      simp only [ExpressionContext.lower, Option.bind_eq_bind, Option.bind_eq_some_iff,
        Option.some.injEq] at hl
      obtain ⟨t, ht, inner, hinner, ops, hops, rfl⟩ := hl
      obtain rfl := variables_eq hct hops
      obtain ⟨r₁, s₁, hrun, v, hv, rfl, rfl⟩ := evalFrom_bindExpression.mp he
      cases hwt with
      | tupleLiteral hty helems =>
          obtain ⟨hsup, hcomp⟩ :=
            supported_of_evalFrom_all (fun e h => ih e h (helems e h)) hs hinner hrun
          exact ⟨.tupleLiteral id hsup,
            .of_insert hcomp.allFit hcomp.grows (hcomp.fits_constructTuple hty hv) t⟩
  | @arrayLiteral id elems hct ih =>
      intro s s' last r stmts hs hl he
      simp only [ExpressionContext.lower, Option.bind_eq_bind, Option.bind_eq_some_iff,
        Option.some.injEq] at hl
      obtain ⟨t, -, inner, hinner, ops, hops, rfl⟩ := hl
      obtain rfl := variables_eq hct hops
      obtain ⟨r₁, s₁, hrun, v, hv, rfl, rfl⟩ := evalFrom_bindExpression.mp he
      cases hwt with
      | arrayLiteral hty ht htypes helems =>
          obtain ⟨hsup, hcomp⟩ :=
            supported_of_evalFrom_all (fun e h => ih e h (helems e h)) hs hinner hrun
          exact ⟨.arrayLiteral id hsup,
            .of_insert hcomp.allFit hcomp.grows (hcomp.fits_constructArray hty ht htypes hv) t⟩
  | @arrayShorthandLiteral id value amount hct ih =>
      intro s s' last r stmts hs hl he
      simp only [ExpressionContext.lower, Option.bind_eq_bind, Option.bind_eq_some_iff,
        Option.ite_none_right_eq_some, Option.some.injEq] at hl
      obtain ⟨t, -, hamount, inner, hinner, ops, hops, rfl⟩ := hl
      obtain rfl := variables_eq (fun e he => List.eq_of_mem_replicate he ▸ hct) hops
      obtain ⟨r₁, s₁, hrun, v, hv, rfl, rfl⟩ := evalFrom_bindExpression.mp he
      cases hwt with
      | arrayShorthandLiteral hty hvalue =>
          obtain ⟨hsup, hcomp⟩ := ih hvalue hs hinner hrun
          obtain ⟨w, -, hw⟩ := hcomp.value
          obtain ⟨t', ht', -⟩ := (hcomp.allFit.fits hw).width
          rw [← @List.length_replicate _ amount value] at hty
          exact ⟨.arrayShorthandLiteral id hamount hsup,
            .of_insert hcomp.allFit hcomp.grows ((hcomp.replicate amount).fits_constructArray hty ht'
              (fun e he => by rw [List.eq_of_mem_replicate he]) hv) t⟩
  | index id h h' ihl ihr =>
      intro s s' last r stmts hs hl he
      simp only [ExpressionContext.lower, Option.bind_eq_bind, Option.bind_eq_some_iff,
        Option.some.injEq] at hl
      obtain ⟨t, -, target, -, index, -, x, -, y, -, rfl⟩ := hl
      obtain ⟨r₁, s₁, -, v, hv, -, -⟩ := evalFrom_bindExpression.mp he
      cases hv
  | tupleIndex id idx h ih =>
      intro s s' last r stmts hs hl he
      simp only [ExpressionContext.lower, Option.bind_eq_bind, Option.bind_eq_some_iff] at hl
      obtain ⟨t, -, target, -, ty, -, hl⟩ := hl
      split at hl
      · simp only [Option.bind_eq_some_iff, Option.some.injEq] at hl
        obtain ⟨x, -, rfl⟩ := hl
        obtain ⟨r₁, s₁, -, v, hv, -, -⟩ := evalFrom_bindExpression.mp he
        cases hv
      · cases hl
  | fieldAccess id field h ih =>
      intro s s' last r stmts hs hl he
      simp only [ExpressionContext.lower, Option.bind_eq_bind, Option.bind_eq_some_iff] at hl
      obtain ⟨t, -, target, -, ty, -, hl⟩ := hl
      split at hl
      · simp only [Option.bind_eq_some_iff, Option.some.injEq] at hl
        obtain ⟨i, -, x, -, rfl⟩ := hl
        obtain ⟨r₁, s₁, -, v, hv, -, -⟩ := evalFrom_bindExpression.mp he
        cases hv
      · cases hl
  | @binaryOperator id lhs rhs op hop hctl hctr ihl ihr =>
      intro s s' last r stmts hs hl he
      simp only [ExpressionContext.lower, Option.bind_eq_bind, Option.bind_eq_some_iff,
        Option.some.injEq] at hl
      obtain ⟨t, ht, ls, hls, rs, hrs, lty, hlty, operator, hoperator, x, hx, y, hy, rfl⟩ := hl
      obtain rfl := variable_eq hctl hx
      obtain rfl := variable_eq hctr hy
      obtain ⟨r₂, s₂, hrun, v, hv, rfl, rfl⟩ := evalFrom_bindExpression.mp he
      rw [evalFrom_append, Option.bind_eq_some_iff] at hrun
      obtain ⟨⟨r₁, s₁⟩, hrun₁, hrun₂⟩ := hrun
      cases hwt with
      | binaryOperator _ hty hlhsTy hrhsTy hlhs hrhs =>
          obtain ⟨hsupl, hcompl⟩ := ihl hlhs hs hls hrun₁
          obtain ⟨hsupr, hcompr⟩ := ihr hrhs hcompl.allFit hrs hrun₂
          rw [hlhsTy, toMirType_number, Option.some.injEq] at hlty
          subst hlty
          obtain ⟨rfl, i, rfl⟩ :=
            signed_of_evalOperator hcompr.allFit hop hlhsTy hrhsTy hoperator hv
          exact ⟨.binaryOperator id op hlhsTy hsupl hsupr,
            .of_insert hcompr.allFit (fun n h => hcompr.grows n (hcompl.grows n h))
              (fits_int ht i) t⟩
  | @unaryOperator id operand hct ih =>
      intro s s' last r stmts hs hl he
      simp only [ExpressionContext.lower, Option.bind_eq_bind, Option.bind_eq_some_iff,
        Option.some.injEq] at hl
      obtain ⟨t, ht, inner, hinner, x, hx, rfl⟩ := hl
      obtain rfl := variable_eq hct hx
      obtain ⟨r₁, s₁, hrun, v, hv, rfl, rfl⟩ := evalFrom_bindExpression.mp he
      cases hwt with
      | unaryOperator hty hoty hoperand =>
          obtain ⟨hsup, hcomp⟩ := ih hoperand hs hinner hrun
          simp only [unaryOperator, EvalState.evalOperator, Option.bind_eq_bind,
            Option.bind_eq_some_iff, Option.some.injEq] at hv
          obtain ⟨-, -, i, -, rfl⟩ := hv
          exact ⟨.unaryOperator id .sub hsup,
            .of_insert hcomp.allFit hcomp.grows (fits_int ht (-i)) t⟩
  | stageReady id =>
      intro s s' last r stmts hs hl he
      simp only [ExpressionContext.lower, Option.bind_eq_bind, Option.bind_eq_some_iff] at hl
      obtain ⟨-, -, signals, hctx, hl⟩ := hl
      cases hwt with
      | stageReady hty =>
          obtain ⟨hnone, hcomp⟩ := eq_none_of_stageSignal
            (fun x hx => hsignals signals hctx x (List.mem_append_left _ hx)) hty hs hl he
          exact ⟨.stageReady id hctx hnone, hcomp⟩
  | stageValid id =>
      intro s s' last r stmts hs hl he
      simp only [ExpressionContext.lower, Option.bind_eq_bind, Option.bind_eq_some_iff] at hl
      obtain ⟨-, -, signals, hctx, hl⟩ := hl
      cases hwt with
      | stageValid hty =>
          obtain ⟨hnone, hcomp⟩ := eq_none_of_stageSignal
            (fun x hx => hsignals signals hctx x (List.mem_append_right _ hx)) hty hs hl he
          exact ⟨.stageValid id hctx hnone, hcomp⟩
  | null id =>
      intro s s' last r stmts hs hl he
      cases hl

/-- The statements of the expression exist and evaluate. -/
def Runs (ctx : ExpressionContext) (e : Expression) : Prop :=
  ∀ {s : EvalState} (last : Option Value), AllFit ctx s →
    ∃ stmts r s', ctx.lower e = some stmts ∧ evalFrom s last stmts = some (r, s')

theorem exists_evalFrom_all {elems : List Expression} (hsound : ∀ e ∈ elems, Sound ctx e)
    (hruns : ∀ e ∈ elems, Runs ctx e) {s : EvalState} (last : Option Value) (hs : AllFit ctx s) :
    ∃ stmts r s', ctx.lowerAll elems = some stmts ∧ evalFrom s last stmts = some (r, s') := by
  induction elems generalizing s last with
  | nil => exact ⟨[], last, s, rfl, rfl⟩
  | cons e elems ih =>
      rw [List.forall_mem_cons] at hsound hruns
      obtain ⟨head, r₁, s₁, hhead, hrun₁⟩ := hruns.1 last hs
      obtain ⟨-, hcomp⟩ := hsound.1 hs hhead hrun₁
      obtain ⟨tail, r₂, s₂, htail, hrun₂⟩ := ih hsound.2 hruns.2 r₁ hcomp.allFit
      refine ⟨head ++ tail, r₂, s₂, by simp [ExpressionContext.lowerAll, hhead, htail], ?_⟩
      rw [evalFrom_append, hrun₁, Option.bind_some, hrun₂]

/-- The last statement binds a value of an operator that the evaluator supports. -/
theorem runs_of_bindExpression {e : Expression} {s s₁ : EvalState} {last r : Option Value}
    {stmts : List Mir.Statement} {id : ℕ} {operator : Op} {ops : List ValueName} {ty : Ty}
    (hl : ctx.lower e = some (stmts ++ [bindExpression id operator ops ty]))
    (hrun : evalFrom s last stmts = some (r, s₁)) {v : Value}
    (hv : s₁.evalOperator operator ops ty = some v) :
    ∃ stmts r s', ctx.lower e = some stmts ∧ evalFrom s last stmts = some (r, s') :=
  ⟨_, _, _, hl, evalFrom_bindExpression.mpr ⟨r, s₁, hrun, v, hv, rfl, rfl⟩⟩

/-- The statements of an expression of supported parts evaluate. -/
theorem exists_evalFrom {e : Expression} (h : Supported ctx e) (hct : e.CompileTime)
    (hwt : WellTyped ctx e)
    (hsignals : ∀ signals, ctx.pipelineContext = some signals → signals.Named) : Runs ctx e := by
  induction h with
  | intLiteral id value kind =>
      intro s last hs
      cases hwt with
      | @intLiteral _ _ _ signed size hty =>
          have hl : ctx.lower (.intLiteral id value kind) =
              some [.constant id (if signed then .int size else .uint size) (.int value)] := by
            simp [ExpressionContext.lower, hty, toMirType_number]
          exact ⟨_, _, _, hl, evalFrom_constant.mpr ⟨rfl, rfl⟩⟩
  | typeLevelInteger id name =>
      intro s last hs
      cases hwt with
      | @typeLevelInteger _ _ value signed size hvalue hty =>
          have hl : ctx.lower (.typeLevelInteger id name) =
              some [.constant id (if signed then .int size else .uint size) (.int value)] := by
            simp [ExpressionContext.lower, hty, toMirType_number, hvalue]
          exact ⟨_, _, _, hl, evalFrom_constant.mpr ⟨rfl, rfl⟩⟩
  | boolLiteral id value =>
      intro s last hs
      cases hwt with
      | boolLiteral _ hty =>
          have hl : ctx.lower (.boolLiteral id value) = some [.constant id .bool (.bool value)] := by
            simp [ExpressionContext.lower, hty, toMirType]
          exact ⟨_, _, _, hl, evalFrom_constant_bool.mpr ⟨rfl, rfl⟩⟩
  | @tupleLiteral id elems hsup ih =>
      intro s last hs
      cases hct with
      | tupleLiteral _ hct =>
      cases hwt with
      | tupleLiteral hty helems =>
          have hsound : ∀ e ∈ elems, Sound ctx e := fun e h =>
            supported_of_evalFrom (hct e h) (helems e h) hsignals
          obtain ⟨stmts, r, s₁, hinner, hrun⟩ := exists_evalFrom_all hsound
            (fun e h => ih e h (hct e h) (helems e h)) last hs
          obtain ⟨-, hcomp⟩ := supported_of_evalFrom_all hsound hs hinner hrun
          obtain ⟨vals, hvals, hfits⟩ := hcomp.mapM
          obtain ⟨t, ht, -⟩ := (fits_tuple hty hfits).width
          have hl : ctx.lower (.tupleLiteral id elems) = some (stmts ++ [bindExpression id
              .constructTuple (elems.map fun e => .expr e.id) t]) := by
            simp [ExpressionContext.lower, ht, hinner, variables_of_supported hsup]
          exact runs_of_bindExpression hl hrun
            (v := .constructTuple vals) (by simp [EvalState.evalOperator, hvals])
  | @arrayLiteral id elems hsup ih =>
      intro s last hs
      cases hct with
      | arrayLiteral _ hct =>
      cases hwt with
      | @arrayLiteral _ _ inner t hty ht htypes helems =>
          have hsound : ∀ e ∈ elems, Sound ctx e := fun e h =>
            supported_of_evalFrom (hct e h) (helems e h) hsignals
          obtain ⟨stmts, r, s₁, hinner, hrun⟩ := exists_evalFrom_all hsound
            (fun e h => ih e h (hct e h) (helems e h)) last hs
          obtain ⟨-, hcomp⟩ := supported_of_evalFrom_all hsound hs hinner hrun
          obtain ⟨vals, hvals, -⟩ := hcomp.mapM
          have hself := toMirType_array_length hty ht
          have hl : ctx.lower (.arrayLiteral id elems) = some (stmts ++ [bindExpression id
              .constructArray (elems.map fun e => .expr e.id) (.array t elems.length)]) := by
            simp only [ExpressionContext.lower, hself, hinner, variables_of_supported hsup,
              Option.bind_eq_bind, Option.bind_some]
          exact runs_of_bindExpression hl hrun
            (v := .constructArray vals) (by simp [EvalState.evalOperator, hvals])
  | @arrayShorthandLiteral id value amount hamount hsup ih =>
      intro s last hs
      cases hct with
      | arrayShorthandLiteral _ _ hct =>
      cases hwt with
      | arrayShorthandLiteral hty hvalue =>
          obtain ⟨stmts, r, s₁, hinner, hrun⟩ := ih hct hvalue last hs
          obtain ⟨-, hcomp⟩ := supported_of_evalFrom hct hvalue hsignals hs hinner hrun
          obtain ⟨vals, hvals, -⟩ := (hcomp.replicate amount).mapM
          obtain ⟨v, -, hv⟩ := hcomp.value
          obtain ⟨t, ht, -⟩ := (hcomp.allFit.fits hv).width
          have hself := toMirType_array_length hty ht
          have hops := @variables_of_supported ctx (List.replicate amount value)
            fun e he => List.eq_of_mem_replicate he ▸ hsup
          have hl : ctx.lower (.arrayShorthandLiteral id value amount) =
              some (stmts ++ [bindExpression id .constructArray
                ((List.replicate amount value).map fun e => .expr e.id) (.array t amount)]) := by
            simp only [ExpressionContext.lower, hself, hinner, hops, if_pos hamount,
              Option.bind_eq_bind, Option.bind_some]
          exact runs_of_bindExpression hl hrun (v := .constructArray vals)
            (by simp only [EvalState.evalOperator, hvals, Option.bind_eq_bind, Option.bind_some])
  | @binaryOperator id lhs rhs op size hsigned hsupl hsupr ihl ihr =>
      intro s last hs
      cases hct with
      | binaryOperator _ hop hctl hctr =>
      cases hwt with
      | @binaryOperator _ _ _ _ signed a b c hty hlhsTy hrhsTy hlhs hrhs =>
          obtain ⟨ls, r₁, s₁, hls, hrun₁⟩ := ihl hctl hlhs last hs
          obtain ⟨-, hcompl⟩ := supported_of_evalFrom hctl hlhs hsignals hs hls hrun₁
          obtain ⟨rs, r₂, s₂, hrs, hrun₂⟩ := ihr hctr hrhs r₁ hcompl.allFit
          obtain ⟨-, hcompr⟩ := supported_of_evalFrom hctr hrhs hsignals hcompl.allFit hrs hrun₂
          have hrun : evalFrom s last (ls ++ rs) = some (r₂, s₂) := by
            rw [evalFrom_append, hrun₁, Option.bind_some, hrun₂]
          obtain ⟨v, -, hv⟩ := hcompl.value
          obtain ⟨x, hx⟩ := Option.isSome_iff_exists.mp (hcompr.grows _ (Option.isSome_of_mem hv))
          obtain ⟨y, -, hy⟩ := hcompr.value
          obtain ⟨n, i, rfl⟩ := hcompr.allFit.int hlhsTy hx
          obtain ⟨m, j, rfl⟩ := hcompr.allFit.int hrhsTy hy
          have hl : ctx.lower (.binaryOperator id lhs op rhs) = some (ls ++ rs ++ [bindExpression id
              (if op = .add then .add else .sub) [.expr lhs.id, .expr rhs.id]
              (if signed then .int c else .uint c)]) := by
            rcases hop with rfl | rfl
            all_goals
              simp [ExpressionContext.lower, hty, hsigned, toMirType_number, hls, hrs,
                binaryOperator, dualBinop, hsupl.variable, hsupr.variable]
          refine runs_of_bindExpression hl hrun
            (v := .int (Ty.size (if signed then .int c else .uint c))
              (if op = .add then i + j else i - j)) ?_
          rcases hop with rfl | rfl
          all_goals simp [EvalState.evalOperator, hx, hy, Value.assumeInt]
  | @unaryOperator id op operand hsup ih =>
      intro s last hs
      cases hct with
      | unaryOperator _ hct =>
      cases hwt with
      | @unaryOperator _ _ a c hty hoty hoperand =>
          obtain ⟨stmts, r, s₁, hinner, hrun⟩ := ih hct hoperand last hs
          obtain ⟨-, hcomp⟩ := supported_of_evalFrom hct hoperand hsignals hs hinner hrun
          obtain ⟨v, -, hv⟩ := hcomp.value
          obtain ⟨n, i, rfl⟩ := hcomp.allFit.int hoty hv
          have hl : ctx.lower (.unaryOperator id .sub operand) =
              some (stmts ++ [bindExpression id .uSub [.expr operand.id] (.int c)]) := by
            simp [ExpressionContext.lower, hty, toMirType_number, hinner, hsup.variable,
              unaryOperator]
          exact runs_of_bindExpression hl hrun (v := .int c (-i))
            (by simp [EvalState.evalOperator, hv, Value.assumeInt, Ty.size])
  | stageReady id hctx hsignal =>
      intro s last hs
      cases hwt with
      | stageReady hty =>
          have hl : ctx.lower (.stageReady id) = some [.constant id .bool (.bool true)] := by
            simp [ExpressionContext.lower, hty, toMirType, hctx, stageSignal, hsignal]
          exact ⟨_, _, _, hl, evalFrom_constant_bool.mpr ⟨rfl, rfl⟩⟩
  | stageValid id hctx hsignal =>
      intro s last hs
      cases hwt with
      | stageValid hty =>
          have hl : ctx.lower (.stageValid id) = some [.constant id .bool (.bool true)] := by
            simp [ExpressionContext.lower, hty, toMirType, hctx, stageSignal, hsignal]
          exact ⟨_, _, _, hl, evalFrom_constant_bool.mpr ⟨rfl, rfl⟩⟩

end

/-! ### Expressions -/

/-- Compile-time evaluation works: the expression is lowered, and the statements evaluate to a
value of the width of its type. -/
def EvaluatesToType (ctx : ExpressionContext) (e : Expression) : Prop :=
  ∃ stmts v t, ctx.lower e = some stmts ∧ evalStatements stmts = some v ∧
    (ctx.typeOfId e.id).toMirType = some t ∧ v.width = t.size

/-- An expression without a runtime witness is evaluated to a value of its type exactly when the
evaluator supports every part of it. -/
theorem compile_time_evaluation (ctx : ExpressionContext)
    (hsignals : ∀ signals, ctx.pipelineContext = some signals → signals.Named) (e : Expression)
    (hwitness : e.runtimeRequirementWitness = none) (hwt : WellTyped ctx e) :
    EvaluatesToType ctx e ↔ Supported ctx e := by
  have hct := e.compileTime_of_witness_eq_none hwitness
  constructor
  · rintro ⟨stmts, v, t, hl, he, -, -⟩
    rw [evalStatements, Option.bind_eq_bind, Option.bind_eq_some_iff] at he
    obtain ⟨⟨r, s'⟩, hrun, -⟩ := he
    exact (supported_of_evalFrom hct hwt hsignals allFit_empty hl hrun).1
  · intro hsup
    obtain ⟨stmts, r, s', hl, hrun⟩ := exists_evalFrom hsup hct hwt hsignals none allFit_empty
    obtain ⟨-, hcomp⟩ := supported_of_evalFrom hct hwt hsignals allFit_empty hl hrun
    obtain ⟨v, rfl, hv⟩ := hcomp.value
    obtain ⟨t, ht, hw⟩ := (hcomp.allFit.fits hv).width
    exact ⟨stmts, v, t, hl, by rw [evalStatements, hrun]; rfl, ht, hw⟩

/-- The types of `(5, true)` with its elements and of its first element, outside of a pipeline. -/
def tupleContext : ExpressionContext where
  typeOfId
    | 0 => .tuple [number true 8, .single .bool []]
    | 1 => number true 8
    | 2 => .single .bool []
    | _ => number true 8
  typeLevelInteger _ := none
  subs := .new
  currentStage := 0
  pipelineContext := none
  lowerRuntime _ _ _ := none

/-- `(5, true)`. -/
def constantTuple : Expression :=
  .tupleLiteral 0 [.intLiteral 1 5 .unsized, .boolLiteral 2 true]

theorem wellTyped_constantTuple : WellTyped tupleContext constantTuple := by
  refine .tupleLiteral rfl (List.forall_mem_cons.mpr ⟨?_, List.forall_mem_singleton.mpr ?_⟩)
  · exact @WellTyped.intLiteral tupleContext 1 5 .unsized true 8 rfl
  · exact .boolLiteral _ rfl

theorem compile_time_evaluation_tuple :
    EvaluatesToType tupleContext constantTuple ↔ Supported tupleContext constantTuple :=
  compile_time_evaluation tupleContext (fun _ h => by cases h) constantTuple rfl
    wellTyped_constantTuple

/-- A member of a constant tuple has no runtime witness, but the evaluator panics on it. -/
theorem not_compile_time_evaluation :
    ¬ ∀ (ctx : ExpressionContext),
      (∀ signals, ctx.pipelineContext = some signals → signals.Named) → ∀ e : Expression,
      e.runtimeRequirementWitness = none → WellTyped ctx e → EvaluatesToType ctx e := by
  intro h
  obtain ⟨stmts, v, t, hl, he, -, -⟩ := h tupleContext (fun _ h => by cases h)
    (.tupleIndex 3 constantTuple 0) rfl (.tupleIndex rfl rfl wellTyped_constantTuple)
  cases hl
  cases he

end Spade.HirLowering

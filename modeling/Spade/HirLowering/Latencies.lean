import Spade.Hir.Expression
import Spade.Lib.DataPaths
import Spade.Lib.StateExcept
import Spade.Types

/-!
# Latencies of expressions

The number of cycles after which the value of an expression is available in a pipeline, from
`try_compute_availability` and `PipelineAvailability` in `spade-hir-lowering/src/pipelines.rs`.

The types of type inference are a parameter: `typeOf` is `try_get_type_of_id` with its context. The
locations of the errors are left out.

* **Followed operands** (`accepts_availableIn`): a latency is computed for the elements, operands,
  branches and results of an expression, and they have to agree.
* **Data paths** (`availableIn_iff_aligned`): an expression that gets a latency has it along all its
  data paths exactly when no condition, scrutinee or argument of a call, for which no latency is
  computed, has a latency of its own.
-/

namespace Spade.HirLowering.PipelineAvailability

open Hir (Expression Pattern Statement CallKind)
open Lib.StateExcept (exists_of_bind_eq_ok)

/-- The errors of `available_in`. -/
inductive AvailabilityError where
  /-- All subexpressions need the same pipeline delay. -/
  | delayMismatch (new prev : ℕ)
  /-- Inferred more than `usize::MAX` pipeline stages. -/
  | tooManyStages
  /-- Found non-integer for pipeline depth. -/
  | nonIntegerDepth
  /-- The latency of this pipeline instantiation is not known. -/
  | unknownLatency
  /-- Method call should already have been lowered by this point. -/
  | methodCall
  /-- Null expression during pipeline lowering. -/
  | null
  deriving DecidableEq

/-- `usize::MAX`. -/
def usizeMax : ℕ := 2 ^ 64 - 1

/-- The depth of a pipeline instance, the type of the expression with this id. -/
def pipelineDepth (typeOf : ℕ → Option ConcreteType) (depthTypeexprId : ℕ) :
    Except AvailabilityError ℕ :=
  match typeOf depthTypeexprId with
  | some (.integer val) =>
    if 0 ≤ val ∧ val ≤ usizeMax then .ok val.toNat else .error .tooManyStages
  | some _ => .error .nonIntegerDepth
  | none => .error .unknownLatency

/-- The comparison in the loop of `try_compute_availability`. -/
def agree (result : Option ℕ) (a : ℕ) : Except AvailabilityError (Option ℕ) :=
  match result with
  | none => .ok (some a)
  | some prev => if a = prev then .ok result else .error (.delayMismatch a prev)

/-- The loop of `try_compute_availability` for two expressions. -/
def agreeing (first second : Except AvailabilityError ℕ) : Except AvailabilityError ℕ := do
  let a ← first
  let b ← second
  return (← agree (some a) b).getD 0

section Code

variable (typeOf : ℕ → Option ConcreteType)

mutual

/-- `available_in`. -/
def availableIn : Expression → Except AvailabilityError ℕ
  | .identifier _ _ => .ok 0
  | .intLiteral _ _ _ => .ok 0
  | .typeLevelInteger _ _ => .ok 0
  | .boolLiteral _ _ => .ok 0
  | .bitLiteral _ _ => .ok 0
  | .createPorts _ => .ok 0
  | .stageReady _ => .ok 0
  | .stageValid _ => .ok 0
  | .tupleLiteral _ inner => tryComputeAvailability none inner
  | .arrayLiteral _ elems => tryComputeAvailability none elems
  | .arrayShorthandLiteral _ inner _ => availableIn inner
  | .index _ lhs idx => agreeing (availableIn lhs) (availableIn idx)
  | .rangeIndex _ target _ _ => availableIn target
  | .tupleIndex _ lhs _ => availableIn lhs
  | .fieldAccess _ lhs _ => availableIn lhs
  | .binaryOperator _ lhs _ rhs => agreeing (availableIn lhs) (availableIn rhs)
  | .unaryOperator _ _ val => availableIn val
  | .match_ _ _ values => tryComputeBranches none values
  | .block _ _ (some result) => availableIn result
  | .block _ _ none => .ok 0
  | .call _ (.pipeline _ depthTypeexprId) _ _ => pipelineDepth typeOf depthTypeexprId
  | .call _ .function _ _ => .ok 0
  | .call _ .entity _ _ => .ok 0
  | .if_ _ _ t f => agreeing (availableIn t) (availableIn f)
  | .pipelineRef _ _ _ _ _ => .ok 0
  | .methodCall _ _ _ _ _ => .error .methodCall
  | .null _ => .error .null

/-- `try_compute_availability`, from the result of the expressions before these. -/
def tryComputeAvailability (result : Option ℕ) : List Expression → Except AvailabilityError ℕ
  | [] => .ok (result.getD 0)
  | expr :: exprs => do
    let a ← availableIn expr
    tryComputeAvailability (← agree result a) exprs

/-- `try_compute_availability` on the results of the branches of a `match`. -/
def tryComputeBranches (result : Option ℕ) :
    List (Pattern × Expression) → Except AvailabilityError ℕ
  | [] => .ok (result.getD 0)
  | (_, expr) :: values => do
    let a ← availableIn expr
    tryComputeBranches (← agree result a) values

end

end Code

/-! ### Operands -/

section Operands

variable (typeOf : ℕ → Option ConcreteType)

/-- The subexpressions whose values flow into the result and whose latencies are computed. -/
def followed : Expression → List Expression
  | .tupleLiteral _ inner => inner
  | .arrayLiteral _ elems => elems
  | .arrayShorthandLiteral _ inner _ => [inner]
  | .index _ lhs idx => [lhs, idx]
  | .rangeIndex _ target _ _ => [target]
  | .tupleIndex _ lhs _ => [lhs]
  | .fieldAccess _ lhs _ => [lhs]
  | .binaryOperator _ lhs _ rhs => [lhs, rhs]
  | .unaryOperator _ _ val => [val]
  | .match_ _ _ values => values.map Prod.snd
  | .block _ _ (some result) => [result]
  | .if_ _ _ t f => [t, f]
  | _ => []

/-- The other subexpressions whose values flow into the result: the scrutinee of a `match`, the
condition of an `if`, and the arguments of functions and pipelines. An entity has state of its own,
so that its arguments do not flow into the result by themselves. -/
def skipped : Expression → List Expression
  | .match_ _ operand _ => [operand]
  | .if_ _ cond _ _ => [cond]
  | .call _ .function _ args => args
  | .call _ (.pipeline _ _) _ args => args
  | _ => []

/-- The cycles that an expression adds to its operands: the depth of a pipeline. -/
def ownLatency : Expression → ℕ
  | .call _ (.pipeline _ depthTypeexprId) _ _ =>
    (pipelineDepth typeOf depthTypeexprId).toOption.getD 0
  | _ => 0

theorem sizeOf_followed_lt {e c : Expression} (hc : c ∈ followed e) : sizeOf c < sizeOf e := by
  unfold followed at hc
  split at hc
  case h_10 id operand values =>
    obtain ⟨⟨pattern, expr⟩, hmem, rfl⟩ := List.mem_map.mp hc
    have hlt := List.sizeOf_lt_of_mem hmem
    simp only [Expression.match_.sizeOf_spec, Prod.mk.sizeOf_spec] at hlt ⊢
    omega
  case h_1 | h_2 =>
    have hlt := List.sizeOf_lt_of_mem hc
    simp only [Expression.tupleLiteral.sizeOf_spec, Expression.arrayLiteral.sizeOf_spec]
    omega
  case h_4 | h_8 | h_12 =>
    rcases List.mem_pair.mp hc with rfl | rfl
    all_goals
      simp only [Expression.index.sizeOf_spec, Expression.binaryOperator.sizeOf_spec,
        Expression.if_.sizeOf_spec]
      omega
  case h_13 => exact absurd hc List.not_mem_nil
  all_goals
    obtain rfl := List.mem_singleton.mp hc
    simp only [Expression.arrayShorthandLiteral.sizeOf_spec, Expression.rangeIndex.sizeOf_spec,
      Expression.tupleIndex.sizeOf_spec, Expression.fieldAccess.sizeOf_spec,
      Expression.unaryOperator.sizeOf_spec, Expression.block.sizeOf_spec, Option.some.sizeOf_spec]
    omega

theorem sizeOf_skipped_lt {e c : Expression} (hc : c ∈ skipped e) : sizeOf c < sizeOf e := by
  unfold skipped at hc
  split at hc
  · obtain rfl := List.mem_singleton.mp hc
    simp only [Expression.match_.sizeOf_spec]
    omega
  · obtain rfl := List.mem_singleton.mp hc
    simp only [Expression.if_.sizeOf_spec]
    omega
  · have hlt := List.sizeOf_lt_of_mem hc
    simp only [Expression.call.sizeOf_spec]
    omega
  · have hlt := List.sizeOf_lt_of_mem hc
    simp only [Expression.call.sizeOf_spec]
    omega
  · exact absurd hc List.not_mem_nil

/-- How values flow into expressions. -/
noncomputable def dataFlow : DataPaths.Network Expression where
  followed := followed
  skipped := skipped
  latency := ownLatency typeOf
  size := sizeOf
  size_lt _ _ hc := (List.mem_append.mp hc).elim sizeOf_followed_lt sizeOf_skipped_lt

end Operands

/-! ### Followed operands -/

section Followed

variable {typeOf : ℕ → Option ConcreteType}

theorem agree_ok {result result' : Option ℕ} {a : ℕ} (h : agree result a = .ok result') :
    result' = some a ∧ ∀ prev, result = some prev → prev = a := by
  unfold agree at h
  split at h
  · exact ⟨(Except.ok.inj h).symm, nofun⟩
  · split at h
    · rename_i heq
      subst heq
      exact ⟨(Except.ok.inj h).symm, fun prev hprev => (Option.some.inj hprev).symm⟩
    · exact absurd h (by simp)

theorem agreeing_ok {first second : Except AvailabilityError ℕ} {d : ℕ}
    (h : agreeing first second = .ok d) : first = .ok d ∧ second = .ok d := by
  obtain ⟨a, ha, h⟩ := exists_of_bind_eq_ok h
  obtain ⟨b, hb, h⟩ := exists_of_bind_eq_ok h
  obtain ⟨result, hagree, h⟩ := exists_of_bind_eq_ok h
  obtain ⟨rfl, hprev⟩ := agree_ok hagree
  obtain rfl := hprev a rfl
  obtain rfl : a = d := Except.ok.inj h
  exact ⟨ha, hb⟩

/-- All expressions in the loop have the same latency as the result. -/
theorem tryComputeAvailability_ok {result : Option ℕ} {exprs : List Expression} {d : ℕ}
    (h : tryComputeAvailability typeOf result exprs = .ok d) :
    (exprs = [] → result.getD 0 = d) ∧ (∀ prev, result = some prev → prev = d) ∧
      ∀ e ∈ exprs, availableIn typeOf e = .ok d := by
  induction exprs generalizing result with
  | nil =>
    rw [tryComputeAvailability, Except.ok.injEq] at h
    refine ⟨fun _ => h, fun prev hprev => ?_, fun e he => absurd he List.not_mem_nil⟩
    rw [← h, hprev]
    rfl
  | cons expr exprs ih =>
    rw [tryComputeAvailability] at h
    obtain ⟨a, ha, h⟩ := exists_of_bind_eq_ok h
    obtain ⟨result', hagree, h⟩ := exists_of_bind_eq_ok h
    obtain ⟨rfl, hprev⟩ := agree_ok hagree
    obtain ⟨-, hsome, hall⟩ := ih h
    obtain rfl := hsome a rfl
    refine ⟨nofun, hprev, fun e he => ?_⟩
    rcases List.mem_cons.mp he with rfl | he
    · exact ha
    · exact hall e he

/-- The branches of a `match` are followed as the expressions of a list are. -/
theorem tryComputeBranches_eq (result : Option ℕ) (values : List (Pattern × Expression)) :
    tryComputeBranches typeOf result values =
      tryComputeAvailability typeOf result (values.map Prod.snd) := by
  induction values generalizing result with
  | nil => rfl
  | cons value values ih =>
    rw [List.map_cons, tryComputeAvailability, tryComputeBranches]
    simp only [ih]

/-- An expression gets the latency of all operands that are followed. -/
theorem accepts_availableIn :
    DataPaths.Accepts (dataFlow typeOf) fun e d => availableIn typeOf e = .ok d := by
  intro e d h
  change (followed e = [] ∧ d = ownLatency typeOf e) ∨ (followed e ≠ [] ∧ ownLatency typeOf e = 0 ∧
    ∀ c ∈ followed e, availableIn typeOf c = .ok d)
  have hlist {exprs : List Expression} (hok : tryComputeAvailability typeOf none exprs = .ok d) :
      (exprs = [] ∧ d = 0) ∨ (exprs ≠ [] ∧ 0 = 0 ∧ ∀ c ∈ exprs, availableIn typeOf c = .ok d) := by
    obtain ⟨hempty, -, hall⟩ := tryComputeAvailability_ok hok
    rcases eq_or_ne exprs [] with hnil | hcons
    · exact .inl ⟨hnil, (hempty hnil).symm⟩
    · exact .inr ⟨hcons, rfl, hall⟩
  have hone {inner : Expression} (hinner : availableIn typeOf inner = .ok d) :
      [inner] ≠ [] ∧ 0 = 0 ∧ ∀ c ∈ [inner], availableIn typeOf c = .ok d :=
    ⟨List.cons_ne_nil _ _, rfl, fun c hc => List.mem_singleton.mp hc ▸ hinner⟩
  have htwo {first second : Expression}
      (hboth : agreeing (availableIn typeOf first) (availableIn typeOf second) = .ok d) :
      [first, second] ≠ [] ∧ 0 = 0 ∧ ∀ c ∈ [first, second], availableIn typeOf c = .ok d := by
    obtain ⟨hfirst, hsecond⟩ := agreeing_ok hboth
    refine ⟨List.cons_ne_nil _ _, rfl, fun c hc => ?_⟩
    rcases List.mem_pair.mp hc with rfl | rfl
    · exact hfirst
    · exact hsecond
  cases e with
  | identifier | intLiteral | typeLevelInteger | boolLiteral | bitLiteral | createPorts
  | stageReady | stageValid | pipelineRef =>
    rw [availableIn] at h
    exact .inl ⟨rfl, (Except.ok.inj h).symm⟩
  | methodCall | null =>
    rw [availableIn] at h
    exact absurd h (by simp)
  | tupleLiteral | arrayLiteral =>
    rw [availableIn] at h
    exact hlist h
  | arrayShorthandLiteral | rangeIndex | tupleIndex | fieldAccess | unaryOperator =>
    rw [availableIn] at h
    exact .inr (hone h)
  | index | binaryOperator | if_ =>
    rw [availableIn] at h
    exact .inr (htwo h)
  | match_ id operand values =>
    rw [availableIn, tryComputeBranches_eq] at h
    exact hlist h
  | block id statements result =>
    cases result with
    | none =>
      rw [availableIn] at h
      exact .inl ⟨rfl, (Except.ok.inj h).symm⟩
    | some result =>
      rw [availableIn] at h
      exact .inr (hone h)
  | call id kind callee args =>
    cases kind with
    | function | entity =>
      rw [availableIn] at h
      exact .inl ⟨rfl, (Except.ok.inj h).symm⟩
    | pipeline depth depthTypeexprId =>
      rw [availableIn] at h
      refine .inl ⟨rfl, ?_⟩
      rw [ownLatency, h]
      rfl

/-- **Latencies.** For an expression that gets the latency `d`, all data paths have this latency if
and only if the operands that are not followed are aligned with the others. -/
theorem availableIn_iff_aligned (typeOf : ℕ → Option ConcreteType) (e : Expression) (d : ℕ)
    (h : availableIn typeOf e = .ok d) :
    (∀ n, DataPaths.DataPath (dataFlow typeOf) e n → n = d) ↔
      DataPaths.Aligned (dataFlow typeOf) e :=
  DataPaths.forall_dataPath_iff_aligned accepts_availableIn h

end Followed

/-- The depth of a pipeline with two stages has the id 0. -/
def twoStages (id : ℕ) : Option ConcreteType := if id = 0 then some (.integer 2) else none

/-- An instance `inst(2) sub(x)`. -/
def twoStageCall (id : ℕ) : Expression :=
  .call id (.pipeline (.integer 2) 0) ⟨0, "sub"⟩ [.identifier (id + 1) ⟨1, "x"⟩]

/-- The sum of two instances. -/
theorem availableIn_iff_aligned_sum :
    (∀ n, DataPaths.DataPath (dataFlow twoStages)
      (.binaryOperator 1 (twoStageCall 2) .add (twoStageCall 4)) n → n = 2) ↔
      DataPaths.Aligned (dataFlow twoStages)
        (.binaryOperator 1 (twoStageCall 2) .add (twoStageCall 4)) :=
  availableIn_iff_aligned twoStages _ 2 rfl

/-- In `if inst(2) sub(x) {y} else {z}` the condition is late, and the result is taken to be
available at once. -/
theorem condition_latency_ignored :
    ¬ ∀ e d, availableIn twoStages e = .ok d →
      ∀ n, DataPaths.DataPath (dataFlow twoStages) e n → n = d := by
  intro h
  have hpath : DataPaths.DataPath (dataFlow twoStages)
      (.if_ 1 (twoStageCall 2) (.identifier 4 ⟨2, "y"⟩) (.identifier 5 ⟨3, "z"⟩)) (0 + 2 + 0) :=
    .through (c := twoStageCall 2) (by simp [DataPaths.Network.operands, dataFlow, skipped])
      (.through (c := .identifier 3 ⟨1, "x"⟩)
        (by simp [DataPaths.Network.operands, dataFlow, skipped, twoStageCall]) (.source rfl))
  exact absurd (h _ 0 rfl _ hpath) (by decide)

end Spade.HirLowering.PipelineAvailability

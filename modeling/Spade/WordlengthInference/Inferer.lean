import Spade.WordlengthInference.AffineStability

/-!
# The inference of word lengths

Equations give ranges to variables, in passes over all of them: the first range of a variable is
kept, and the word lengths of later ones are compared with it.

* **Consistency** (`infer_consistent`): the passes end with ranges that all equations agree with,
  in any order.
* **Order** (`infer_perm_iff`): the order of the equations makes no difference exactly when no
  variable can get two ranges, or no ranges that the equations can give agree with all of them.
-/

namespace Spade.WordlengthInference

open FirstWriter Relation
open Spade.Lib.StateExcept (Ends pure_ends)

inductive InferMethod where
  | ia
  | aa
  | aaia
deriving DecidableEq

/-- The range of an equation by one of the methods. -/
def evaluate (wlInferMethod : InferMethod) (known : Known) (body : Equation) :
    Except Failure (Option Range) :=
  match wlInferMethod with
  | .ia => .ok (evaluateIa known body)
  | .aa => evaluateAaAndSimplifyToRange known body
  | .aaia => do
    match evaluateIa known body, ← evaluateAaAndSimplifyToRange known body with
    | some a, some b => return some (a.subset b)
    | some a, none => return some a
    | none, some a => return some a
    | none, none => return none

/-- The word length of a later range is more than that of the known one. -/
def mismatch (var : Var) (range infer : Range) : Option Failure :=
  match range.toWordlength, infer.toWordlength with
  | some typecheckWl, some inferWl =>
    if typecheckWl < inferWl then some (.wordlengthMismatch typecheckWl inferWl var) else none
  | _, _ => none

/-- The range of an equation is kept if its variable has none, and else its word length is compared
with the known one. -/
def visitEquation (wlInferMethod : InferMethod) (known : Known) :
    Var × Equation → Except Failure Known
  | (var, body) => do
    match ← evaluate wlInferMethod known body with
    | none => return known
    | some infer =>
      match known.lookup var with
      | none => return known.insert var infer
      | some range =>
        match mismatch var range infer with
        | some e => throw e
        | none => return known

def inferPasses (wlInferMethod : InferMethod) (equations : List (Var × Equation)) :
    ℕ → Known → Except Failure Known
  | 0, known => return known
  | n + 1, knownAtStart => do
    let known ← equations.foldlM (visitEquation wlInferMethod) knownAtStart
    if knownAtStart = known then return known else inferPasses wlInferMethod equations n known

def infer (wlInferMethod : InferMethod) (equations : List (Var × Equation)) (known : Known) :
    Except Failure Known :=
  inferPasses wlInferMethod equations equations.length known

/-! ### Evaluation with more ranges -/

theorem evaluateAaAndSimplifyToRange_error {known : Known} {body : Equation} :
    (∃ e, evaluateAaAndSimplifyToRange known body = .error e) ↔
      Panics (evaluateAa known body) 0 := by
  unfold evaluateAaAndSimplifyToRange Panics
  split
  · rename_i e he
    exact ⟨fun _ => ⟨e, he⟩, fun _ => ⟨e, rfl⟩⟩
  · rename_i f m hf
    constructor
    · rintro ⟨e, he⟩
      cases he
    · rintro ⟨e, he⟩
      cases hf.symm.trans he
  · rename_i m hnone
    constructor
    · rintro ⟨e, he⟩
      cases he
    · rintro ⟨e, he⟩
      cases hnone.symm.trans he

theorem evaluateAaAndSimplifyToRange_some {known : Known} {body : Equation} {r : Range}
    (h : evaluateAaAndSimplifyToRange known body = .ok (some r)) :
    ∃ f m, Ends (evaluateAa known body) 0 (some f) m ∧
      r = .new ⌊f.mid - f.rad⌋ ⌈f.mid + f.rad⌉ := by
  unfold evaluateAaAndSimplifyToRange at h
  split at h
  · cases h
  · rename_i f m hf
    exact ⟨f, m, hf, (Option.some.inj (Except.ok.inj h)).symm⟩
  · cases h

/-- The interval analysis, the affine one or both give the range of an equation. -/
theorem evaluate_some {method : InferMethod} {known : Known} {body : Equation} {r : Range}
    (h : evaluate method known body = .ok (some r)) :
    evaluateIa known body = some r ∨ evaluateAaAndSimplifyToRange known body = .ok (some r) ∨
      ∃ a b, evaluateIa known body = some a ∧
        evaluateAaAndSimplifyToRange known body = .ok (some b) ∧ r = a.subset b := by
  cases method with
  | ia => exact .inl (Except.ok.inj h)
  | aa => exact .inr (.inl h)
  | aaia =>
    unfold evaluate at h
    cases haa : evaluateAaAndSimplifyToRange known body with
    | error e =>
      rw [haa] at h
      cases h
    | ok b =>
      rw [haa] at h
      cases hia : evaluateIa known body with
      | none =>
        rw [hia] at h
        cases b with
        | none => cases h
        | some b => exact .inr (.inl h)
      | some a =>
        rw [hia] at h
        cases b with
        | none => exact .inl (Except.ok.inj h)
        | some b => exact .inr (.inr ⟨a, b, rfl, rfl, (Option.some.inj (Except.ok.inj h)).symm⟩)

theorem covers_of_evaluate {method : InferMethod} {known : Known} {body : Equation} {r : Range}
    (h : evaluate method known body = .ok (some r)) : Covers known body := by
  rcases evaluate_some h with hia | haa | ⟨a, -, hia, -, -⟩
  · exact covers_of_evaluateIa hia
  · obtain ⟨f, m, hf, -⟩ := evaluateAaAndSimplifyToRange_some haa
    exact covers_of_evaluateAa hf
  · exact covers_of_evaluateIa hia

theorem evaluate_of_covers {method : InferMethod} {known known' : Known}
    (hext : Extends known known') {body : Equation} (h : Covers known body) :
    evaluate method known' body = evaluate method known body := by
  simp only [evaluate, evaluateAaAndSimplifyToRange, evaluateIa_of_covers hext h,
    evaluateAa_of_covers hext h]

theorem evaluate_error {method : InferMethod} {known : Known} {body : Equation} :
    (∃ e, evaluate method known body = .error e) ↔
      method ≠ .ia ∧ ∃ e, evaluateAaAndSimplifyToRange known body = .error e := by
  cases method with
  | ia => simp [evaluate]
  | aa => simp [evaluate]
  | aaia =>
    unfold evaluate
    cases evaluateAaAndSimplifyToRange known body with
    | error e => simp [bind, Except.bind]
    | ok b =>
      cases evaluateIa known body with
      | none =>
        cases b with
        | none => simp [bind, Except.bind, pure, Except.pure]
        | some b => simp [bind, Except.bind, pure, Except.pure]
      | some a =>
        cases b with
        | none => simp [bind, Except.bind, pure, Except.pure]
        | some b => simp [bind, Except.bind, pure, Except.pure]

/-! ### The equations as rules -/

/-- The equations as rules that fill the map of known ranges. -/
def rules (method : InferMethod) : Rules Var Range (Var × Equation) Failure where
  key := Prod.fst
  value known equation := evaluate method known equation.2
  rejects equation := mismatch equation.1

theorem mismatch_eq_none {var : Var} {range infer : Range} : mismatch var range infer = none ↔
    ∀ typecheckWl inferWl, range.toWordlength = some typecheckWl →
      infer.toWordlength = some inferWl → inferWl ≤ typecheckWl := by
  unfold mismatch
  cases range.toWordlength with
  | none => simp
  | some typecheckWl =>
    cases infer.toWordlength with
    | none => simp
    | some inferWl => simp

theorem stable_rules (method : InferMethod) : Stable (rules method) where
  value_extends := by
    intro known known' equation r hext h
    exact (evaluate_of_covers hext (covers_of_evaluate h)).trans h
  error_extends := by
    intro known known' equation e hext h
    obtain ⟨hmethod, haa⟩ := evaluate_error.mp ⟨e, h⟩
    have hpanics := evaluateAaAndSimplifyToRange_error.mp haa
    exact evaluate_error.mpr ⟨hmethod, evaluateAaAndSimplifyToRange_error.mpr
      (evaluateAa_panics hext equation.2 hpanics 0)⟩
  rejects_self := by
    intro equation range
    apply mismatch_eq_none.mpr
    intro typecheckWl inferWl h h'
    exact (Option.some.inj (h'.symm.trans h)).le

theorem visitEquation_eq (method : InferMethod) :
    visitEquation method = visit (rules method) := by
  funext known ⟨var, body⟩
  unfold visitEquation visit
  simp only [rules]
  cases evaluate method known body with
  | error e => rfl
  | ok infer =>
    cases infer with
    | none => rfl
    | some infer =>
      simp only [bind, Except.bind]
      cases known.lookup var with
      | none => rfl
      | some range =>
        simp only
        cases mismatch var range infer with
        | none => rfl
        | some e => rfl

theorem inferPasses_eq (method : InferMethod) (equations : List (Var × Equation)) (n : ℕ)
    (known : Known) :
    inferPasses method equations n known = passes (rules method) equations n known := by
  induction n generalizing known with
  | zero => rfl
  | succ n ih =>
    unfold inferPasses passes FirstWriter.pass
    rw [visitEquation_eq]
    cases equations.foldlM (visit (rules method)) known with
    | error e => rfl
    | ok known' =>
      simp only [bind, Except.bind, ih]
      rfl

/-! ### Results of the inference -/

/-- The ranges that the inference ends with agree with all equations, so that further passes in any
order change nothing. -/
theorem infer_consistent {method : InferMethod} {equations : List (Var × Equation)}
    {start known : Known} (h : infer method equations start = .ok known) :
    (∀ var body r, (var, body) ∈ equations → evaluate method known body = .ok (some r) →
      ∃ range, known.lookup var = some range ∧
        ∀ wl inferWl, range.toWordlength = some wl → r.toWordlength = some inferWl →
          inferWl ≤ wl) ∧
      ∀ equations' : List (Var × Equation), equations'.Perm equations →
        equations'.foldlM (visitEquation method) known = .ok known := by
  unfold infer at h
  rw [inferPasses_eq] at h
  have hsatisfied := passes_satisfied (stable_rules method) h
  constructor
  · intro var body r hmem hr
    rcases visit_eq_self_iff.mp (hsatisfied _ hmem) with hnone | ⟨x, range, hx, hrange, hadmits⟩
    · cases hnone.symm.trans hr
    · obtain rfl := Option.some.inj (Except.ok.inj (hx.symm.trans hr))
      exact ⟨range, hrange, mismatch_eq_none.mp hadmits⟩
  · intro equations' hperm
    rw [visitEquation_eq]
    exact (hsatisfied.perm hperm).pass

/-- An equation that stands before the one it depends on, and the same equations the other way
round. -/
theorem infer_consistent_sum :
    [(⟨0⟩, .constant (.new 0 10)), (⟨1⟩, .add (.v ⟨0⟩) (.v ⟨0⟩))].foldlM (visitEquation .aaia)
        ((Finmap.singleton (⟨0⟩ : Var) (Range.new 0 10)).insert ⟨1⟩ (.new 0 20)) =
      .ok ((Finmap.singleton (⟨0⟩ : Var) (Range.new 0 10)).insert ⟨1⟩ (.new 0 20)) := by
  have hinfer : infer .aaia [(⟨1⟩, .add (.v ⟨0⟩) (.v ⟨0⟩)), (⟨0⟩, .constant (.new 0 10))] ∅ =
      .ok ((Finmap.singleton ⟨0⟩ (.new 0 10)).insert ⟨1⟩ (.new 0 20)) := by
    decide +kernel
  exact (infer_consistent hinfer).2 _ (.swap _ _ [])

/-- The inference gives the same ranges in all orders of the equations exactly when no variable can
get two ranges, one equation after the other, or no ranges that the equations can give agree with
all of them. -/
theorem infer_perm_iff {method : InferMethod} {equations : List (Var × Equation)} {start : Known} :
    (∀ equations' : List (Var × Equation), equations'.Perm equations → ∀ known,
      infer method equations' start = .ok known ↔ infer method equations start = .ok known) ↔
    Determined (rules method) equations start ∨
      ¬ ∃ known, ReflTransGen (Writes (rules method) equations) start known ∧
        Satisfied (rules method) equations known := by
  simp only [infer, inferPasses_eq]
  exact passes_perm_iff (stable_rules method)

/-- Two lower bounds of one variable are accepted with the higher one first only. -/
theorem infer_lower_bounds :
    infer .ia [(⟨0⟩, .constant (.new 0 100)), (⟨0⟩, .constant (.new 0 1))] ∅ =
        .ok (Finmap.singleton ⟨0⟩ (.new 0 100)) ∧
      infer .ia [(⟨0⟩, .constant (.new 0 1)), (⟨0⟩, .constant (.new 0 100))] ∅ =
        .error (.wordlengthMismatch 2 8 ⟨0⟩) := by
  constructor
  · decide +kernel
  · decide +kernel

end Spade.WordlengthInference

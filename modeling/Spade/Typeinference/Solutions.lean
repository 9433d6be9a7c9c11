import Mathlib.Logic.Function.Basic
import Spade.Typeinference.Unify

/-!
# Solutions of a type state

Type inference computes with integers at the type level. A solution of a type state gives integers
to unknown types such that replaced types are equal to what has replaced them, and all constraints
hold.

* **Following** (`Follows`): a type state that comes after another one has no new solutions, and
  what its tables say about a solution is what they said before.
* **Unification** (`unify_follows`): the state after a unification follows the one before, and in
  all of its solutions the unified types are equal.
* **Existence** (`exists_solves`): when no type is replaced twice, the integers that are known are
  part of a solution.
-/

namespace Spade.Typeinference

open Lib.StateExcept

/-! ### Integers -/

/-- The integer that a type is when the unknown types are integers. -/
def TypeVar.int (σ : ℕ → Option ℤ) : TypeVar → Option ℤ
  | .known (.integer val) _ => some val
  | .known _ _ => none
  | .unknown id _ _ => σ id

/-- The value of a constraint. -/
def ConstraintExpr.int (bits : ℤ → ℤ) (σ : ℕ → Option ℤ) : ConstraintExpr → Option ℤ
  | integer val => some val
  | var v => v.int σ
  | sum lhs rhs => do some ((← lhs.int bits σ) + (← rhs.int bits σ))
  | difference lhs rhs => do some ((← lhs.int bits σ) - (← rhs.int bits σ))
  | product lhs rhs => do some ((← lhs.int bits σ) * (← rhs.int bits σ))
  | sub inner => do some (-(← inner.int bits σ))
  | uintBitsToRepresent inner => do some (bits (← inner.int bits σ))

/-- A pipeline reference goes to a stage of the pipeline. The other requirements say nothing about
the depths of pipelines. -/
def Requirement.Met (σ : ℕ → Option ℤ) : Requirement → Prop
  | validPipelineOffset definitionDepth _ referenceOffset =>
      ∃ depth offset, definitionDepth.int σ = some depth ∧ referenceOffset.int σ = some offset ∧
        0 ≤ offset ∧ offset ≤ depth
  | _ => True

/-- A constraint holds when its sides are equal, as soon as the right one has a value. -/
def ConstraintHolds (ctx : Context) (σ : ℕ → Option ℤ) (c : TypeVar × ConstraintExpr) : Prop :=
  ∀ val, c.2.int ctx.uintBits σ = some val → c.1.int σ = some val

/-- The replacements are equalities. -/
def Consistent (σ : ℕ → Option ℤ) (replacements : Replacements) : Prop :=
  ∀ r ∈ replacements, r.1.int σ = r.2.int σ

/-- Integers for the unknown types that agree with everything a type state says. -/
structure Solves (ctx : Context) (σ : ℕ → Option ℤ) (state : TypeState) : Prop where
  replacements : Consistent σ state.replacements
  constraints : ∀ c ∈ state.constraints, ConstraintHolds ctx σ c
  requirements : ∀ r ∈ state.requirements, r.Met σ

/-! ### Types that are replaced or looked up -/

section types

variable {σ : ℕ → Option ℤ}

theorem TypeVar.int_of_same {t u : TypeVar} (h : t.same u = true) : t.int σ = u.int σ := by
  cases t with
  | known base params =>
      cases u with
      | known base' params' =>
          rw [TypeVar.same, Bool.and_eq_true, beq_iff_eq] at h
          rw [h.1]
          cases base' <;> rfl
      | unknown id' traits' metaType' => cases h
  | unknown id traits metaType =>
      cases u with
      | known base' params' => cases h
      | unknown id' traits' metaType' =>
          rw [TypeVar.same, Bool.and_eq_true, beq_iff_eq] at h
          exact congrArg σ h.1

theorem TypeVar.int_of_isReplaced {t u : TypeVar} (h : t.isReplaced u = true) :
    t.int σ = u.int σ := by
  cases t with
  | known base params =>
      cases u with
      | known base' params' => exact TypeVar.int_of_same h
      | unknown id' traits' metaType' => exact TypeVar.int_of_same h
  | unknown id traits metaType =>
      cases u with
      | known base' params' => exact TypeVar.int_of_same h
      | unknown id' traits' metaType' => exact congrArg σ (beq_iff_eq.mp h)

theorem TypeVar.int_known {base : KnownType} {params params' : List TypeVar} :
    (TypeVar.known base params).int σ = (TypeVar.known base params').int σ := by
  cases base <;> rfl

theorem TypeVar.int_replace {old new : TypeVar} (h : old.int σ = new.int σ) (t : TypeVar) :
    (t.replace old new).int σ = t.int σ := by
  cases t with
  | known base params =>
      rw [TypeVar.replace]
      split
      · rename_i hsame
        rw [← h, ← TypeVar.int_of_isReplaced hsame]
        exact TypeVar.int_known
      · exact TypeVar.int_known
  | unknown id traits metaType =>
      rw [TypeVar.replace]
      split
      · rename_i hsame
        rw [← h, ← TypeVar.int_of_isReplaced hsame]
        rfl
      · rfl

theorem Replacements.get_mem {replacements : Replacements} {t u : TypeVar}
    (h : replacements.get t = some u) : ∃ r ∈ replacements, r.1.same t = true ∧ r.2 = u := by
  unfold Replacements.get at h
  obtain ⟨r, hr, hu⟩ := Option.map_eq_some_iff.mp h
  have hsame := List.find?_some hr
  exact ⟨r, List.mem_of_find?_eq_some hr, hsame, hu⟩

theorem Consistent.int_get {replacements : Replacements} (h : Consistent σ replacements)
    {t u : TypeVar} (hu : replacements.get t = some u) : u.int σ = t.int σ := by
  obtain ⟨r, hr, hsame, rfl⟩ := Replacements.get_mem hu
  rw [← h r hr]
  exact TypeVar.int_of_same hsame

theorem Consistent.int_check {replacements : Replacements} (h : Consistent σ replacements)
    (t : TypeVar) : (t.check replacements).int σ = t.int σ := by
  cases t with
  | known base params =>
      rw [TypeVar.check]
      cases hget : replacements.get (.known base params) with
      | some new => exact h.int_get hget
      | none => exact TypeVar.int_known
  | unknown id traits metaType =>
      rw [TypeVar.check]
      cases hget : replacements.get (.unknown id traits metaType) with
      | some new => exact h.int_get hget
      | none => rfl

theorem ConstraintExpr.int_replace {bits : ℤ → ℤ} {old new : TypeVar}
    (h : old.int σ = new.int σ) (e : ConstraintExpr) :
    (e.replace old new).int bits σ = e.int bits σ := by
  induction e with
  | integer val => rfl
  | var v =>
      have hv := TypeVar.int_replace h v
      rw [ConstraintExpr.replace]
      split
      · rename_i hknown
        rw [hknown] at hv
        exact hv
      · exact hv
  | sum lhs rhs ihl ihr | difference lhs rhs ihl ihr | product lhs rhs ihl ihr =>
      simp only [ConstraintExpr.replace, ConstraintExpr.int, ihl, ihr]
  | sub inner ih | uintBitsToRepresent inner ih =>
      simp only [ConstraintExpr.replace, ConstraintExpr.int, ih]

theorem Consistent.int_checkExpr {replacements : Replacements} (h : Consistent σ replacements)
    {bits : ℤ → ℤ} (e : ConstraintExpr) : (e.check replacements).int bits σ = e.int bits σ := by
  induction e with
  | integer val => rfl
  | var v => exact h.int_check v
  | sum lhs rhs ihl ihr | difference lhs rhs ihl ihr | product lhs rhs ihl ihr =>
      simp only [ConstraintExpr.check, ConstraintExpr.int, ihl, ihr]
  | sub inner ih | uintBitsToRepresent inner ih =>
      simp only [ConstraintExpr.check, ConstraintExpr.int, ih]

theorem ConstraintExpr.int_evaluateBinary {bits : ℤ → ℤ} {op : ℤ → ℤ → ℤ}
    {self lhs rhs lhs' rhs' : ConstraintExpr} (hl : lhs'.int bits σ = lhs.int bits σ)
    (hr : rhs'.int bits σ = rhs.int bits σ)
    (hself : self.int bits σ = do some (op (← lhs.int bits σ) (← rhs.int bits σ))) :
    (ConstraintExpr.evaluateBinary op self lhs' rhs').int bits σ = self.int bits σ := by
  unfold ConstraintExpr.evaluateBinary
  split
  · rw [hself, ← hl, ← hr]
    rfl
  · rfl

theorem ConstraintExpr.int_evaluateUnary {bits op : ℤ → ℤ} {self inner inner' : ConstraintExpr}
    (h : inner'.int bits σ = inner.int bits σ)
    (hself : self.int bits σ = do some (op (← inner.int bits σ))) :
    (ConstraintExpr.evaluateUnary op self inner').int bits σ = self.int bits σ := by
  unfold ConstraintExpr.evaluateUnary
  split
  · rw [hself, ← h]
    rfl
  · rfl

/-- Evaluation keeps the value of a constraint. -/
theorem ConstraintExpr.int_evaluate {bits : ℤ → ℤ} (e : ConstraintExpr) :
    (e.evaluate bits).int bits σ = e.int bits σ := by
  induction e with
  | integer val => rfl
  | var v => rfl
  | sum lhs rhs ihl ihr | difference lhs rhs ihl ihr | product lhs rhs ihl ihr =>
      exact ConstraintExpr.int_evaluateBinary ihl ihr rfl
  | sub inner ih | uintBitsToRepresent inner ih =>
      exact ConstraintExpr.int_evaluateUnary ih rfl

theorem Requirement.met_replace {old new : TypeVar} (h : old.int σ = new.int σ)
    {r : Requirement} (hr : (r.replace old new).Met σ) : r.Met σ := by
  cases r with
  | validPipelineOffset definitionDepth currentStage referenceOffset =>
      simp only [Requirement.replace, Requirement.Met, TypeVar.int_replace h] at hr
      exact hr
  | hasField | hasMethod | fitsIntLiteral | positivePipelineDepth | sharedBase => trivial

end types

/-! ### States that follow -/

/-- What `unify_inner` replaces: unknown types, and generic arguments by named types. -/
def Replaceable (old new : TypeVar) : Prop :=
  (∃ id traits metaType, old = .unknown id traits metaType) ∨
    ∃ n params n' params', old = .known (.named n) params ∧ new = .known (.named n') params'

/-- The state `t` comes after `s`: replacements have been added, and in every solution of `t` the
tables of both states say the same. -/
structure Grows (ctx : Context) (σ : ℕ → Option ℤ) (s t : TypeState) : Prop where
  replacements : ∃ steps : Replacements, t.replacements = steps ++ s.replacements ∧
    ∀ r ∈ steps, Replaceable r.1 r.2
  solves : Solves ctx σ t → Solves ctx σ s
  equations : Solves ctx σ t → ∀ e v, s.equations e = some v →
    ∃ v', t.equations e = some v' ∧ v'.int σ = v.int σ
  genericLists : Solves ctx σ t → ∀ token name v, s.genericLists token name = some v →
    ∃ v', t.genericLists token name = some v' ∧ v'.int σ = v.int σ

/-- The state `t` comes after `s` and is in the same stage of the pipeline. -/
structure Follows (ctx : Context) (σ : ℕ → Option ℤ) (s t : TypeState) : Prop
    extends Grows ctx σ s t where
  pipelineState : Solves ctx σ t → ∀ p, s.pipelineState = some p →
    ∃ p', t.pipelineState = some p' ∧ p'.currentStageDepth.int σ = p.currentStageDepth.int σ ∧
      p'.totalDepth.int σ = p.totalDepth.int σ

section follows

variable {ctx : Context} {σ : ℕ → Option ℤ} {s t u : TypeState}

theorem Grows.of_eq (hr : t.replacements = s.replacements) (hc : t.constraints = s.constraints)
    (hq : t.requirements = s.requirements) (he : t.equations = s.equations)
    (hg : t.genericLists = s.genericLists) : Grows ctx σ s t where
  replacements := ⟨[], hr, fun _ h => absurd h List.not_mem_nil⟩
  solves h := ⟨hr ▸ h.replacements, hc ▸ h.constraints, hq ▸ h.requirements⟩
  equations _ _ v hv := ⟨v, he ▸ hv, rfl⟩
  genericLists _ _ _ v hv := ⟨v, hg ▸ hv, rfl⟩

/-- A state with the same tables. -/
theorem Follows.of_eq (hr : t.replacements = s.replacements) (hc : t.constraints = s.constraints)
    (hq : t.requirements = s.requirements) (he : t.equations = s.equations)
    (hg : t.genericLists = s.genericLists) (hp : t.pipelineState = s.pipelineState) :
    Follows ctx σ s t where
  toGrows := .of_eq hr hc hq he hg
  pipelineState _ p hv := ⟨p, hp ▸ hv, rfl, rfl⟩

theorem Follows.refl (s : TypeState) : Follows ctx σ s s := .of_eq rfl rfl rfl rfl rfl rfl

theorem Grows.trans (hst : Grows ctx σ s t) (htu : Grows ctx σ t u) : Grows ctx σ s u where
  replacements := by
    obtain ⟨steps, heq, hsteps⟩ := hst.replacements
    obtain ⟨steps', heq', hsteps'⟩ := htu.replacements
    refine ⟨steps' ++ steps, by rw [heq', heq, List.append_assoc], fun r hr => ?_⟩
    rcases List.mem_append.mp hr with hr | hr
    · exact hsteps' r hr
    · exact hsteps r hr
  solves h := hst.solves (htu.solves h)
  equations h e v hv := by
    obtain ⟨w, hw, hwv⟩ := hst.equations (htu.solves h) e v hv
    obtain ⟨x, hx, hxw⟩ := htu.equations h e w hw
    exact ⟨x, hx, hxw.trans hwv⟩
  genericLists h token name v hv := by
    obtain ⟨w, hw, hwv⟩ := hst.genericLists (htu.solves h) token name v hv
    obtain ⟨x, hx, hxw⟩ := htu.genericLists h token name w hw
    exact ⟨x, hx, hxw.trans hwv⟩

theorem Follows.trans (hst : Follows ctx σ s t) (htu : Follows ctx σ t u) : Follows ctx σ s u where
  toGrows := hst.toGrows.trans htu.toGrows
  pipelineState h p hp := by
    obtain ⟨q, hq, hcurrent, htotal⟩ := hst.pipelineState (htu.solves h) p hp
    obtain ⟨r, hr, hcurrent', htotal'⟩ := htu.pipelineState h q hq
    exact ⟨r, hr, hcurrent'.trans hcurrent, htotal'.trans htotal⟩

/-- A replacement that is consistent with a solution. -/
theorem solves_replace {old new : TypeVar} (h : Solves ctx σ (s.replace old new)) :
    Solves ctx σ s := by
  have heq : old.int σ = new.int σ := h.replacements (old, new) List.mem_cons_self
  refine ⟨fun r hr => h.replacements r (List.mem_cons_of_mem _ hr), ?_, ?_⟩
  · intro c hc val hval
    have hc' := h.constraints _ (List.mem_map_of_mem hc) val
    simp only [ConstraintExpr.int_replace heq, TypeVar.int_replace heq] at hc'
    exact hc' hval
  · intro r hr
    exact Requirement.met_replace heq (h.requirements _ (List.mem_map_of_mem hr))

theorem Follows.replace {old new : TypeVar} (hold : Replaceable old new) :
    Follows ctx σ s (s.replace old new) where
  replacements := ⟨[(old, new)], rfl, fun r hr => by
    rw [List.mem_singleton.mp hr]
    exact hold⟩
  solves := solves_replace
  equations h e v hv := by
    have heq : old.int σ = new.int σ := h.replacements (old, new) List.mem_cons_self
    refine ⟨v.replace old new, ?_, TypeVar.int_replace heq v⟩
    unfold TypeState.replace
    dsimp only
    rw [hv]
    rfl
  genericLists h token name v hv := by
    have heq : old.int σ = new.int σ := h.replacements (old, new) List.mem_cons_self
    refine ⟨v.replace old new, ?_, TypeVar.int_replace heq v⟩
    unfold TypeState.replace
    dsimp only
    rw [hv]
    rfl
  pipelineState h p hp := by
    have heq : old.int σ = new.int σ := h.replacements (old, new) List.mem_cons_self
    refine ⟨p.replace old new, ?_, TypeVar.int_replace heq _, TypeVar.int_replace heq _⟩
    unfold TypeState.replace
    dsimp only
    rw [hp]
    rfl

theorem newGeneric_follows {traits : List TraitReq} {metaType : MetaType} {v : TypeVar}
    (h : Ends (newGeneric traits metaType) s v t) : Follows ctx σ s t := by
  cases h
  exact .of_eq rfl rfl rfl rfl rfl rfl

/-- What is unified keeps its value. -/
theorem HasType.getType_follows (hst : Follows ctx σ s t) (h : Solves ctx σ t) {e : HasType}
    {v : TypeVar} (hv : e.getType s = some v) :
    ∃ v', e.getType t = some v' ∧ v'.int σ = v.int σ := by
  cases e with
  | type u =>
      cases hv
      refine ⟨_, rfl, ?_⟩
      rw [h.replacements.int_check, (hst.solves h).replacements.int_check]
  | typed e => exact hst.equations h e v hv
  | base k => exact ⟨v, hv, rfl⟩

end follows

/-! ### Unification -/

section unification

variable (ctx : Context) (σ : ℕ → Option ℤ)

/-- A function that unifies two types: its result is equal to both in all solutions. -/
def Unifies (f : TypeVar → TypeVar → Infer TypeVar) : Prop :=
  ∀ ⦃t u r : TypeVar⦄ ⦃s s' : TypeState⦄, Ends (f t u) s r s' →
    Follows ctx σ s s' ∧ (Solves ctx σ s' → t.int σ = u.int σ ∧ r.int σ = t.int σ)

variable {ctx σ} {s t : TypeState} {inner full : TypeVar → TypeVar → Infer TypeVar}

theorem unifyZip_follows {f : TypeVar → TypeVar → Infer TypeVar} (hf : Unifies ctx σ f)
    {ts us rs : List TypeVar} (h : Ends (unifyZip f ts us) s rs t) : Follows ctx σ s t := by
  induction ts generalizing us rs s with
  | nil =>
      obtain ⟨-, rfl⟩ := pure_ends h
      exact .refl _
  | cons a ts ih =>
      cases us with
      | nil =>
          obtain ⟨-, rfl⟩ := pure_ends h
          exact .refl _
      | cons b us =>
          obtain ⟨r, s1, hr, h⟩ := bind_ends h
          obtain ⟨rs', s2, hrs, h⟩ := bind_ends h
          obtain ⟨-, rfl⟩ := pure_ends h
          exact (hf hr).1.trans (ih hrs)

theorem unifyParams_follows (hinner : Unifies ctx σ inner) {ps ps' : List TypeVar} {x : Unit}
    (h : Ends (unifyParams inner ps ps') s x t) : Follows ctx σ s t := by
  unfold unifyParams at h
  split at h
  · exact absurd h not_throw_ends
  · obtain ⟨rs, s1, hrs, h⟩ := bind_ends h
    obtain ⟨-, rfl⟩ := pure_ends h
    exact unifyZip_follows hinner hrs

theorem mergeTrait_follows (hfull : Unifies ctx σ full) {name : TraitName}
    {req1 req2 : Option TraitReq} {r : TraitReq} (h : Ends (mergeTrait full name req1 req2) s r t) :
    Follows ctx σ s t := by
  unfold mergeTrait at h
  split at h
  · obtain ⟨ps, s1, hps, hpure⟩ := bind_ends h
    obtain ⟨-, rfl⟩ := pure_ends hpure
    exact unifyZip_follows hfull hps
  · obtain ⟨-, rfl⟩ := pure_ends h
    exact .refl _
  · obtain ⟨-, rfl⟩ := pure_ends h
    exact .refl _
  · exact absurd h not_throw_ends

theorem mergeTraits_follows (hfull : Unifies ctx σ full) {traits1 traits2 rs : List TraitReq}
    {names : List TraitName} (h : Ends (mergeTraits full traits1 traits2 names) s rs t) :
    Follows ctx σ s t := by
  induction names generalizing rs s with
  | nil =>
      obtain ⟨-, rfl⟩ := pure_ends h
      exact .refl _
  | cons name names ih =>
      obtain ⟨req, s1, hreq, h1⟩ := bind_ends h
      obtain ⟨rs', s2, hrs, h2⟩ := bind_ends h1
      obtain ⟨-, rfl⟩ := pure_ends h2
      exact (mergeTrait_follows hfull hreq).trans (ih hrs)

theorem unifyUnknown_follows (hfull : Unifies ctx σ full) {traits1 traits2 : List TraitReq}
    {meta1 meta2 : MetaType} {v : TypeVar}
    (h : Ends (unifyUnknown full traits1 traits2 meta1 meta2) s v t) : Follows ctx σ s t := by
  unfold unifyUnknown at h
  split at h
  · split at h
    · exact absurd h not_throw_ends
    · exact newGeneric_follows h
  · split at h
    · exact absurd h not_throw_ends
    · exact newGeneric_follows h
  · obtain ⟨traits, s1, htraits, h⟩ := bind_ends h
    exact (mergeTraits_follows hfull htraits).trans (newGeneric_follows h)
  · exact newGeneric_follows h
  · exact newGeneric_follows h
  · exact absurd h not_throw_ends

theorem unifyTraitParams_follows (hinner : Unifies ctx σ inner) {params newParams rs : List TypeVar}
    {traits : List TraitReq} (h : Ends (unifyTraitParams inner params traits newParams) s rs t) :
    Follows ctx σ s t := by
  induction traits generalizing newParams s with
  | nil =>
      obtain ⟨-, rfl⟩ := pure_ends h
      exact .refl _
  | cons req traits ih =>
      rw [unifyTraitParams] at h
      split at h
      · exact ih h
      · split at h
        · exact absurd h not_throw_ends
        · obtain ⟨ps, s1, hps, h⟩ := bind_ends h
          exact (unifyZip_follows hinner hps).trans (ih h)

theorem ensureImpls_ends {var : TypeVar} {traits : List TraitReq} {traitIsExpected : Bool}
    {x : Unit} (h : Ends (ensureImpls ctx var traits traitIsExpected) s x t) : t = s := by
  unfold ensureImpls at h
  split at h
  · obtain ⟨state, s1, hget, hstate⟩ := bind_ends h
    obtain ⟨-, rfl⟩ := get_ends hget
    dsimp only at hstate
    split at hstate
    · exact (pure_ends hstate).2
    · exact absurd hstate not_throw_ends
  · exact absurd h not_throw_ends
  · split at h
    · exact (pure_ends h).2
    · exact absurd h not_throw_ends

theorem unifyKnownUnknown_follows (hinner : Unifies ctx σ inner) {base : KnownType}
    {params : List TypeVar} {traits : List TraitReq} {metaType : MetaType}
    {traitIsExpected : Bool} {v : TypeVar}
    (h : Ends (unifyKnownUnknown ctx inner base params traits metaType traitIsExpected) s v t) :
    Follows ctx σ s t ∧ v.int σ = (TypeVar.known base params).int σ := by
  unfold unifyKnownUnknown at h
  obtain ⟨x, s1, hensure, h1⟩ := bind_ends h
  obtain rfl := ensureImpls_ends hensure
  obtain ⟨newParams, s2, hparams, h2⟩ := bind_ends h1
  split at h2
  · obtain ⟨rfl, rfl⟩ := pure_ends h2
    exact ⟨unifyTraitParams_follows hinner hparams, TypeVar.int_known⟩
  · exact absurd h2 not_throw_ends

theorem unifyKnown_follows (hinner : Unifies ctx σ inner) {e1 : HasType} {t1 t2 : KnownType}
    {p1 p2 : List TypeVar} {w : TypeVar} (hw : e1.getType s = some w)
    (hint : Solves ctx σ s → w.int σ = (TypeVar.known t1 p1).int σ) {r : TypeVar × List TypeVar}
    (h : Ends (unifyKnown ctx inner e1 (.known t1 p1) (.known t2 p2) t1 t2 p1 p2) s r t) :
    Follows ctx σ s t ∧ (∀ v ∈ r.2, Replaceable v r.1) ∧ (Solves ctx σ t →
      (TypeVar.known t1 p1).int σ = (TypeVar.known t2 p2).int σ ∧
        r.1.int σ = (TypeVar.known t1 p1).int σ) := by
  have hnil : ∀ {v w : TypeVar}, v ∈ ([] : List TypeVar) → Replaceable v w :=
    fun hv => absurd hv List.not_mem_nil
  unfold unifyKnown at h
  split at h
  · split at h
    · rename_i heq
      obtain ⟨rfl, rfl⟩ := pure_ends h
      exact ⟨.refl _, fun _ => hnil, fun _ => ⟨congrArg some heq, rfl⟩⟩
    · exact absurd h not_throw_ends
  · split at h
    · split at h
      · exact absurd h not_throw_ends
      · obtain ⟨x, s1, hparams, h1⟩ := bind_ends h
        obtain ⟨state, s2, hget, h2⟩ := bind_ends h1
        obtain ⟨rfl, rfl⟩ := get_ends hget
        have hfollows := unifyParams_follows hinner hparams
        split at h2
        · rename_i v1 hv1
          obtain ⟨rfl, rfl⟩ := pure_ends h2
          refine ⟨hfollows, fun _ => hnil, fun hs => ⟨rfl, ?_⟩⟩
          -- the left side has kept its value while its parameters were unified
          obtain ⟨w', hw', hww'⟩ := HasType.getType_follows hfollows hs hw
          cases hw'.symm.trans hv1
          rw [hs.replacements.int_check, hww', hint (hfollows.solves hs)]
        · exact absurd h2 not_throw_ends
    · obtain ⟨rfl, rfl⟩ := pure_ends h
      refine ⟨.refl _, fun v hv => ?_, fun _ => ⟨rfl, rfl⟩⟩
      rw [List.mem_singleton.mp hv]
      exact .inr ⟨_, _, _, _, rfl, rfl⟩
    · obtain ⟨rfl, rfl⟩ := pure_ends h
      refine ⟨.refl _, fun v hv => ?_, fun _ => ⟨rfl, rfl⟩⟩
      rw [List.mem_singleton.mp hv]
      exact .inr ⟨_, _, _, _, rfl, rfl⟩
    · obtain ⟨rfl, rfl⟩ := pure_ends h
      refine ⟨.refl _, fun v hv => ?_, fun _ => ⟨rfl, rfl⟩⟩
      rw [List.mem_singleton.mp hv]
      exact .inr ⟨_, _, _, _, rfl, rfl⟩
    · exact absurd h not_throw_ends
  all_goals try exact absurd h not_throw_ends
  all_goals
    obtain ⟨x, s1, hparams, h1⟩ := bind_ends h
    obtain ⟨state, s2, hget, h2⟩ := bind_ends h1
    obtain ⟨rfl, rfl⟩ := get_ends hget
    obtain ⟨rfl, rfl⟩ := pure_ends h2
    exact ⟨unifyParams_follows hinner hparams, fun _ => hnil,
      fun hs => ⟨rfl, hs.replacements.int_check _⟩⟩

/-- The new type and the types it replaces: when these are equal to it, the unified types are equal
to each other. -/
theorem unifyTypes_follows (hinner : Unifies ctx σ inner) (hfull : Unifies ctx σ full)
    {e1 : HasType} {v1 v2 w : TypeVar} (hw : e1.getType s = some w)
    (hint : Solves ctx σ s → w.int σ = v1.int σ) {r : TypeVar × List TypeVar}
    (h : Ends (unifyTypes ctx inner full e1 v1 v2) s r t) :
    Follows ctx σ s t ∧ (∀ v ∈ r.2, Replaceable v r.1) ∧
      (Solves ctx σ t → (∀ v ∈ r.2, v.int σ = r.1.int σ) →
        v1.int σ = v2.int σ ∧ r.1.int σ = v1.int σ) := by
  have hunknown : ∀ {id traits metaType v} {w : TypeVar},
      v ∈ [TypeVar.unknown id traits metaType] → Replaceable v w := by
    intro id traits metaType v w hv
    exact .inl ⟨id, traits, metaType, List.mem_singleton.mp hv⟩
  cases v1 with
  | known t1 p1 =>
      cases v2 with
      | known t2 p2 =>
          obtain ⟨hfollows, hold, heq⟩ := unifyKnown_follows hinner hw hint h
          exact ⟨hfollows, hold, fun hs _ => heq hs⟩
      | unknown id2 traits2 meta2 =>
          obtain ⟨v, s1, hv, h1⟩ := bind_ends h
          obtain ⟨rfl, rfl⟩ := pure_ends h1
          obtain ⟨hfollows, heq⟩ := unifyKnownUnknown_follows hinner hv
          refine ⟨hfollows, fun _ => hunknown, fun _ hr => ⟨?_, heq⟩⟩
          rw [hr _ (List.mem_singleton_self _), heq]
  | unknown id1 traits1 meta1 =>
      cases v2 with
      | known t2 p2 =>
          obtain ⟨v, s1, hv, h1⟩ := bind_ends h
          obtain ⟨rfl, rfl⟩ := pure_ends h1
          obtain ⟨hfollows, heq⟩ := unifyKnownUnknown_follows hinner hv
          refine ⟨hfollows, fun _ => hunknown, fun _ hr => ⟨?_, ?_⟩⟩
          · rw [hr _ (List.mem_singleton_self _), heq]
          · rw [hr _ (List.mem_singleton_self _)]
      | unknown id2 traits2 meta2 =>
          obtain ⟨v, s1, hv, h1⟩ := bind_ends h
          obtain ⟨rfl, rfl⟩ := pure_ends h1
          refine ⟨unifyUnknown_follows hfull hv, fun v hmem => ?_, fun _ hr => ⟨?_, ?_⟩⟩
          · rcases List.mem_cons.mp hmem with rfl | hmem
            · exact hunknown (List.mem_singleton_self _)
            · exact hunknown hmem
          · rw [hr _ List.mem_cons_self, hr _ (List.mem_cons_of_mem _ (List.mem_singleton_self _))]
          · rw [hr _ List.mem_cons_self]

theorem replaceTypes_follows {newType : TypeVar} {replacedTypes : List TypeVar} {x : Unit}
    (hold : ∀ v ∈ replacedTypes, Replaceable v newType)
    (h : Ends (replaceTypes newType replacedTypes) s x t) :
    Follows ctx σ s t ∧
      (Solves ctx σ t → ∀ v ∈ replacedTypes, v.int σ = newType.int σ) := by
  induction replacedTypes generalizing s with
  | nil =>
      obtain ⟨-, rfl⟩ := pure_ends h
      exact ⟨.refl _, fun _ v hv => absurd hv List.not_mem_nil⟩
  | cons v replacedTypes ih =>
      obtain ⟨y, s1, hmodify, h1⟩ := bind_ends h
      obtain rfl := modify_ends hmodify
      obtain ⟨hfollows, heq⟩ := ih (fun u hu => hold u (List.mem_cons_of_mem _ hu)) h1
      refine ⟨(Follows.replace (hold v List.mem_cons_self)).trans hfollows, fun hs u hu => ?_⟩
      rcases List.mem_cons.mp hu with rfl | hu
      · exact (hfollows.solves hs).replacements (u, newType) List.mem_cons_self
      · exact heq hs u hu

/-! ### Constraints -/

/-- A function that unifies what has a type. -/
def UnifiesTyped (ctx : Context) (σ : ℕ → Option ℤ) (f : HasType → HasType → Infer TypeVar) :
    Prop :=
  ∀ ⦃e1 e2 : HasType⦄ ⦃r : TypeVar⦄ ⦃s t : TypeState⦄, Ends (f e1 e2) s r t →
    Follows ctx σ s t ∧ (Solves ctx σ t → ∃ v1 v2, e1.getType s = some v1 ∧
      e2.getType s = some v2 ∧ v1.int σ = v2.int σ ∧ r.int σ = v1.int σ)

theorem UnifiesTyped.unifies {f : HasType → HasType → Infer TypeVar}
    (hf : UnifiesTyped ctx σ f) : Unifies ctx σ fun t u => f (.type t) (.type u) := by
  intro t u r s s' h
  obtain ⟨hfollows, heq⟩ := hf h
  refine ⟨hfollows, fun hs => ?_⟩
  obtain ⟨v1, v2, hv1, hv2, h12, hr⟩ := heq hs
  have hreplacements := (hfollows.solves hs).replacements
  cases hv1
  cases hv2
  rw [hreplacements.int_check, hreplacements.int_check] at h12
  rw [hreplacements.int_check] at hr
  exact ⟨h12, hr⟩

/-- The constraints that have been taken away hold when their left sides have the values that the
right sides have been evaluated to. -/
theorem solves_of_stuck (h : Solves ctx σ (s.stuck ctx))
    (hinfo : ∀ c ∈ s.newInfo ctx, c.1.int σ = some c.2) : Solves ctx σ s := by
  refine ⟨h.replacements, fun c hc val hval => ?_, h.requirements⟩
  rw [← ConstraintExpr.int_evaluate] at hval
  by_cases hinteger : ∃ v, c.2.evaluate ctx.uintBits = .integer v
  · obtain ⟨v, hv⟩ := hinteger
    rw [hv] at hval
    cases hval
    refine hinfo (c.1, val) (List.mem_filterMap.mpr ⟨c, hc, ?_⟩)
    rw [hv]
  · refine h.constraints (c.1, c.2.evaluate ctx.uintBits) (List.mem_filterMap.mpr ⟨c, hc, ?_⟩)
      val hval
    split
    · rename_i v hv
      exact absurd ⟨v, hv⟩ hinteger
    · rfl

variable {inner : HasType → HasType → Infer TypeVar}

theorem applyConstraint_follows (hinner : UnifiesTyped ctx σ inner) {var : TypeVar} {val : ℤ}
    {x : Unit} (h : Ends (applyConstraint inner var val) s x t) :
    Follows ctx σ s t ∧ (Solves ctx σ t → var.int σ = some val) := by
  unfold Ends applyConstraint at h
  split at h
  · rename_i r state hrun
    cases h
    obtain ⟨hfollows, heq⟩ := hinner hrun
    refine ⟨hfollows, fun hs => ?_⟩
    obtain ⟨v1, v2, hv1, hv2, h12, -⟩ := heq hs
    have hreplacements := (hfollows.solves hs).replacements
    cases hv1
    cases hv2
    rw [hreplacements.int_check, hreplacements.int_check] at h12
    exact h12.symm
  all_goals cases h

theorem applyConstraints_follows (hinner : UnifiesTyped ctx σ inner)
    {newInfo : List (TypeVar × ℤ)} {x : Unit} (h : Ends (applyConstraints inner newInfo) s x t) :
    Follows ctx σ s t ∧ (Solves ctx σ t → ∀ c ∈ newInfo, c.1.int σ = some c.2) := by
  induction newInfo generalizing s with
  | nil =>
      obtain ⟨-, rfl⟩ := pure_ends h
      exact ⟨.refl _, fun _ c hc => absurd hc List.not_mem_nil⟩
  | cons c newInfo ih =>
      obtain ⟨y, s1, hc, h1⟩ := bind_ends h
      obtain ⟨hfollows, heq⟩ := applyConstraint_follows hinner hc
      obtain ⟨hfollows', heq'⟩ := ih h1
      refine ⟨hfollows.trans hfollows', fun hs c' hc' => ?_⟩
      rcases List.mem_cons.mp hc' with rfl | hc'
      · exact heq (hfollows'.solves hs)
      · exact heq' hs c' hc'

/-- A state that follows after the constraints that are known have been taken away and applied. -/
theorem Follows.of_stuck (h : Follows ctx σ (s.stuck ctx) t)
    (hinfo : Solves ctx σ t → ∀ c ∈ s.newInfo ctx, c.1.int σ = some c.2) : Follows ctx σ s t where
  replacements := h.replacements
  solves hs := solves_of_stuck (h.solves hs) (hinfo hs)
  equations := h.equations
  genericLists := h.genericLists
  pipelineState := h.pipelineState

theorem propagate_follows (hinner : UnifiesTyped ctx σ inner) {rounds : ℕ} {x : Unit}
    (h : Ends (propagate ctx inner rounds) s x t) : Follows ctx σ s t := by
  induction rounds generalizing s with
  | zero =>
      obtain ⟨-, rfl⟩ := pure_ends h
      exact .refl _
  | succ rounds ih =>
      obtain ⟨state, s1, hget, h1⟩ := bind_ends h
      obtain ⟨rfl, rfl⟩ := get_ends hget
      obtain ⟨y, s2, hset, h2⟩ := bind_ends h1
      cases hset
      split at h2
      · rename_i hempty
        obtain ⟨-, rfl⟩ := pure_ends h2
        refine Follows.of_stuck (.refl _) fun _ c hc => ?_
        rw [List.isEmpty_iff.mp hempty] at hc
        exact absurd hc List.not_mem_nil
      · obtain ⟨z, s3, hinfo, h3⟩ := bind_ends h2
        obtain ⟨hfollows, heq⟩ := applyConstraints_follows hinner hinfo
        exact Follows.of_stuck (hfollows.trans (ih h3)) fun hs => heq ((ih h3).solves hs)

theorem unifyWith_follows (hinner : UnifiesTyped ctx σ inner) :
    UnifiesTyped ctx σ (unifyWith ctx inner) := by
  intro e1 e2 r s t h
  obtain ⟨v, s1, hv, h1⟩ := bind_ends h
  obtain ⟨state, s2, hget, h2⟩ := bind_ends h1
  obtain ⟨rfl, rfl⟩ := get_ends hget
  obtain ⟨x, s3, hpropagate, h3⟩ := bind_ends h2
  obtain ⟨rfl, rfl⟩ := pure_ends h3
  obtain ⟨hfollows, heq⟩ := hinner hv
  have hfollows' := propagate_follows hinner hpropagate
  exact ⟨hfollows.trans hfollows', fun hs => heq (hfollows'.solves hs)⟩

theorem unifyInner_follows (fuel : ℕ) : UnifiesTyped ctx σ (unifyInner ctx fuel) := by
  induction fuel with
  | zero =>
      intro e1 e2 r s t h
      exact absurd h not_throw_ends
  | succ fuel ih =>
      intro e1 e2 r s t h
      obtain ⟨state, s1, hget, h1⟩ := bind_ends h
      obtain ⟨rfl, rfl⟩ := get_ends hget
      split at h1
      · rename_i v1 v2 hv1 hv2
        obtain ⟨⟨newType, replacedTypes⟩, s2, htypes, h2⟩ := bind_ends h1
        obtain ⟨x, s3, hreplace, h3⟩ := bind_ends h2
        obtain ⟨rfl, rfl⟩ := pure_ends h3
        obtain ⟨hfollows, hold, heq⟩ := unifyTypes_follows ih.unifies
          (unifyWith_follows ih).unifies hv1 (fun hs => (hs.replacements.int_check v1).symm) htypes
        obtain ⟨hfollows', hreplaced⟩ := replaceTypes_follows hold hreplace
        refine ⟨hfollows.trans hfollows', fun hs => ⟨v1, v2, hv1, hv2, ?_⟩⟩
        have hs2 := hfollows'.solves hs
        have hreplacements := (hfollows.solves hs2).replacements
        obtain ⟨h12, hr⟩ := heq hs2 (hreplaced hs)
        rw [hreplacements.int_check] at h12 hr
        rw [hreplacements.int_check] at h12
        exact ⟨h12, hr⟩
      · exact absurd h1 not_throw_ends

/-- The state after a unification follows the one before, and in all of its solutions the unified
types are equal. -/
theorem unify_follows (fuel : ℕ) : UnifiesTyped ctx σ (unify ctx fuel) :=
  unifyWith_follows (unifyInner_follows fuel)

end unification

/-! ### The other operations -/

section operations

variable {ctx : Context} {σ : ℕ → Option ℤ} {s t : TypeState}

theorem addEquation_follows {e : TypedExpression} {v : TypeVar} {x : Unit}
    (h : Ends (addEquation e v) s x t) :
    Follows ctx σ s t ∧
      (Solves ctx σ t → ∃ v', t.equations e = some v' ∧ v'.int σ = v.int σ) := by
  obtain ⟨state, s1, hget, h1⟩ := bind_ends h
  obtain ⟨rfl, rfl⟩ := get_ends hget
  split at h1
  · exact absurd h1 not_throw_ends
  · rename_i hnew
    cases h1
    refine ⟨⟨⟨⟨[], rfl, fun _ h => absurd h List.not_mem_nil⟩, fun hs => ⟨hs.1, hs.2, hs.3⟩,
      fun _ e' v' hv' => ⟨v', ?_, rfl⟩, fun _ _ _ v' hv' => ⟨v', hv', rfl⟩⟩,
      fun _ p hp => ⟨p, hp, rfl, rfl⟩⟩, fun hs => ⟨v.check s1.replacements, if_pos rfl,
      hs.replacements.int_check v⟩⟩
    dsimp only
    rw [if_neg]
    · exact hv'
    · rintro rfl
      rw [hv'] at hnew
      exact hnew rfl

theorem addConstraint_follows {lhs : TypeVar} {rhs : ConstraintExpr} {x : Unit}
    (h : Ends (addConstraint lhs rhs) s x t) :
    Follows ctx σ s t ∧ (Solves ctx σ t → ConstraintHolds ctx σ (lhs, rhs)) := by
  obtain rfl := modify_ends h
  refine ⟨⟨⟨⟨[], rfl, fun _ h => absurd h List.not_mem_nil⟩, fun hs => ⟨hs.1, fun c hc =>
    hs.2 c (List.mem_append_left _ hc), hs.3⟩, fun _ e v hv => ⟨v, hv, rfl⟩,
    fun _ _ _ v hv => ⟨v, hv, rfl⟩⟩, fun _ p hp => ⟨p, hp, rfl, rfl⟩⟩, fun hs val hval => ?_⟩
  have hreplacements : Consistent σ s.replacements := hs.replacements
  have hc := hs.constraints (lhs.check s.replacements, rhs.check s.replacements)
    (List.mem_append_right _ (List.mem_singleton_self _)) val
  rw [hreplacements.int_checkExpr, hreplacements.int_check] at hc
  exact hc hval

/-- The value of a constant generic, where the generic arguments have values. -/
def constGenericInt (bits : ℤ → ℤ) (generics : NameID → Option ℤ) : Hir.ConstGeneric → Option ℤ
  | .name n => generics n
  | .const val => some val
  | .add lhs rhs => do
      some ((← constGenericInt bits generics lhs) + (← constGenericInt bits generics rhs))
  | .sub lhs rhs => do
      some ((← constGenericInt bits generics lhs) - (← constGenericInt bits generics rhs))
  | .mul lhs rhs => do
      some ((← constGenericInt bits generics lhs) * (← constGenericInt bits generics rhs))
  | .uintBitsToFit inner => do some (bits (← constGenericInt bits generics inner))

/-- The value of a type expression that is a number. -/
def typeExprInt (bits : ℤ → ℤ) (generics : NameID → Option ℤ) : Hir.TypeExpression → Option ℤ
  | .integer val => some val
  | .typeSpec (.generic name) => generics name
  | .typeSpec _ => none
  | .constGeneric g => constGenericInt bits generics g

/-- The values of the generic arguments of a list. -/
def TypeState.genericInts (state : TypeState) (σ : ℕ → Option ℤ) (token : GenericListToken)
    (name : NameID) : Option ℤ :=
  (state.genericLists token name).bind (·.int σ)

end operations

/-! ### Existence -/

section existence

/-- The id of an unknown type. -/
def TypeVar.unknownId : TypeVar → Option ℕ
  | .known _ _ => none
  | .unknown id _ _ => some id

/-- An unknown type that is not among the types that have been replaced. -/
def TypeVar.Untouched (t : TypeVar) (replacements : Replacements) : Prop :=
  ∀ r ∈ replacements, r.1.unknownId = t.unknownId → t.unknownId = none

/-- No unknown type is replaced by two different types, and none is replaced by one that has been
replaced before: the types that are unified have been looked up in the replacements, as `TypeVar`
asks for. -/
def Current : Replacements → Prop
  | [] => True
  | (old, new) :: replacements =>
      (∀ r ∈ replacements, r.1.unknownId = old.unknownId → old.unknownId = none ∨ r.2 = new) ∧
        new.Untouched ((old, new) :: replacements) ∧ Current replacements

/-- The integers that unknown types are replaced by, from the last replacement to the first. -/
def resolveInts (σ : ℕ → Option ℤ) : Replacements → ℕ → Option ℤ
  | [] => σ
  | (.unknown id _ _, new) :: replacements =>
      resolveInts (Function.update σ id (new.int σ)) replacements
  | (.known _ _, _) :: replacements => resolveInts σ replacements

/-- What the unknown types of a state have been inferred to be at the type level. -/
def TypeState.inferredInts (state : TypeState) : ℕ → Option ℤ :=
  resolveInts (fun _ => none) state.replacements

theorem TypeVar.int_eq_of_unknownId {σ σ' : ℕ → Option ℤ} {t : TypeVar}
    (h : ∀ id, t.unknownId = some id → σ' id = σ id) : t.int σ' = t.int σ := by
  cases t with
  | known base params => cases base <;> rfl
  | unknown id traits metaType => exact h id rfl

theorem TypeVar.Untouched.int_update {t u : TypeVar} {id : ℕ} {traits : List TraitReq}
    {metaType : MetaType} {replacements : Replacements}
    (h : t.Untouched ((.unknown id traits metaType, u) :: replacements)) (σ : ℕ → Option ℤ)
    (val : Option ℤ) : t.int (Function.update σ id val) = t.int σ := by
  refine TypeVar.int_eq_of_unknownId fun i hi => Function.update_of_ne ?_ _ _
  rintro rfl
  have hnone := h _ List.mem_cons_self hi.symm
  rw [hi] at hnone
  cases hnone

/-- Types that have not been replaced keep their integers. -/
theorem resolveInts_untouched {replacements : Replacements} {σ : ℕ → Option ℤ} {t : TypeVar}
    (h : t.Untouched replacements) : t.int (resolveInts σ replacements) = t.int σ := by
  induction replacements generalizing σ with
  | nil => rfl
  | cons r replacements ih =>
      obtain ⟨old, new⟩ := r
      have ih' := fun {σ} => @ih σ fun r hr => h r (List.mem_cons_of_mem _ hr)
      cases old with
      | known base params => exact ih'
      | unknown id traits metaType =>
          rw [resolveInts, ih']
          exact h.int_update σ _

/-- A type that has been replaced by `new` only is equal to it. -/
theorem resolveInts_replaced {replacements : Replacements} {σ : ℕ → Option ℤ} {id : ℕ}
    {new : TypeVar} (h : ∀ r ∈ replacements, r.1.unknownId = some id → r.2 = new)
    (hnew : new.Untouched replacements) (hid : σ id = new.int σ) :
    resolveInts σ replacements id = new.int σ := by
  induction replacements generalizing σ with
  | nil => exact hid
  | cons r replacements ih =>
      obtain ⟨old, t⟩ := r
      have ih' := fun {σ} => @ih σ (fun r hr => h r (List.mem_cons_of_mem _ hr))
        (fun r hr => hnew r (List.mem_cons_of_mem _ hr))
      cases old with
      | known base params => exact ih' hid
      | unknown id' traits metaType =>
          have hsame : new.int (Function.update σ id' (t.int σ)) = new.int σ :=
            hnew.int_update σ _
          rw [resolveInts, ← hsame]
          apply ih'
          rw [hsame]
          by_cases heq : id' = id
          · subst heq
            rw [Function.update_self, ← h _ List.mem_cons_self rfl]
          · rw [Function.update_of_ne (Ne.symm heq), hid]

theorem consistent_resolveInts {replacements : Replacements} (h : Current replacements)
    (hold : ∀ r ∈ replacements, Replaceable r.1 r.2) (σ : ℕ → Option ℤ) :
    Consistent (resolveInts σ replacements) replacements := by
  induction replacements generalizing σ with
  | nil => exact fun r hr => absurd hr List.not_mem_nil
  | cons r replacements ih =>
      obtain ⟨old, new⟩ := r
      obtain ⟨honce, hnew, hcurrent⟩ := h
      have ih' := fun σ => ih hcurrent (fun r hr => hold r (List.mem_cons_of_mem _ hr)) σ
      have hnew' : new.Untouched replacements := fun r hr => hnew r (List.mem_cons_of_mem _ hr)
      intro r hr
      rcases hold _ List.mem_cons_self with ⟨id, traits, metaType, hid⟩ | ⟨n, ps, n', ps', hn, hn'⟩
      · dsimp only at hid
        subst hid
        rcases List.mem_cons.mp hr with rfl | hr
        · have hsame : new.int (Function.update σ id (new.int σ)) = new.int σ :=
            hnew.int_update σ _
          rw [resolveInts, resolveInts_untouched hnew']
          refine resolveInts_replaced (fun r hr hid => ?_) hnew' ?_
          · exact (honce r hr hid).resolve_left (Option.some_ne_none _)
          · rw [Function.update_self, hsame]
        · exact ih' _ r hr
      · dsimp only at hn hn'
        subst hn hn'
        rcases List.mem_cons.mp hr with rfl | hr
        · rfl
        · exact ih' _ r hr

end existence

end Spade.Typeinference

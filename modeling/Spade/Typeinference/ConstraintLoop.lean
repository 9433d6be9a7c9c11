import Spade.Lib.Histories
import Spade.Typeinference.BitsToRepresent
import Spade.Typeinference.OccursCheck
import Spade.Typeinference.Preservation

/-!
# Constraints on integers

What becomes of the constraints that `add_constraint` of `spade-typeinference/src/lib.rs` adds:
`unify` evaluates them in a loop and unifies their left sides with the values.

* **Loop** (`updateLoop_eq_propagate`): every round takes a constraint away, so the loop ends after
  at most one round more than there are constraints.
* **Settled** (`unify_settled`): after a unification the constraints hold that are left.
* **Runs** (`constraints_honoured`): in a run of additions and unifications every constraint holds
  that was ever added, as long as no right side was known when it was added and no type is replaced
  twice.
-/

namespace Spade.Typeinference

open Lib.StateExcept
open Lib (ClearOfPower)

/-! ### The loop -/

/-- Unification adds no constraints. -/
def NoMoreConstraints (s t : TypeState) : Prop := t.constraints.length ≤ s.constraints.length

theorem respected_noMoreConstraints (ctx : Context) : Respected ctx NoMoreConstraints where
  refl _ := le_rfl
  trans _ _ _ h h' := le_trans h' h
  fresh _ := le_rfl
  replace _ _ _ := (List.length_map _).le
  stuck _ := List.length_filterMap_le _ _

section loop

variable (ctx : Context) (inner : HasType → HasType → Infer TypeVar)

variable {ctx inner} {s t : TypeState}

/-- Evaluation gives an integer or leaves the expression as it is. -/
theorem ConstraintExpr.evaluate_eq (bits : ℤ → ℤ) (e : ConstraintExpr) :
    (∃ val, e.evaluate bits = .integer val) ∨ e.evaluate bits = e := by
  have hbinary : ∀ op self l r, (∃ val, evaluateBinary op self l r = .integer val) ∨
      evaluateBinary op self l r = self := by
    intro op self l r
    unfold evaluateBinary
    split
    · exact .inl ⟨_, rfl⟩
    · exact .inr rfl
  have hunary : ∀ op self inner, (∃ val, evaluateUnary op self inner = .integer val) ∨
      evaluateUnary op self inner = self := by
    intro op self inner
    unfold evaluateUnary
    split
    · exact .inl ⟨_, rfl⟩
    · exact .inr rfl
  cases e with
  | integer val => exact .inr rfl
  | var v => exact .inr rfl
  | sum lhs rhs => exact hbinary _ _ _ _
  | difference lhs rhs => exact hbinary _ _ _ _
  | product lhs rhs => exact hbinary _ _ _ _
  | sub inner => exact hunary _ _ _
  | uintBitsToRepresent inner => exact hunary _ _ _

/-- A constraint that is left has been there before, and is not known. -/
theorem mem_stuck {ctx : Context} {s : TypeState} {c : TypeVar × ConstraintExpr}
    (h : c ∈ (s.stuck ctx).constraints) :
    c ∈ s.constraints ∧ ∀ val, c.2.evaluate ctx.uintBits ≠ .integer val := by
  obtain ⟨c', hmem, hleft⟩ := List.mem_filterMap.mp h
  rcases c'.2.evaluate_eq ctx.uintBits with ⟨val, hval⟩ | hsame
  · rw [hval] at hleft
    cases hleft
  · rw [hsame] at hleft
    split at hleft
    · cases hleft
    · rename_i hnot
      cases hleft
      rw [hsame]
      exact ⟨hmem, hnot⟩

theorem newInfo_stuck (ctx : Context) (s : TypeState) : (s.stuck ctx).newInfo ctx = [] := by
  apply List.filterMap_eq_nil_iff.mpr
  intro c hc
  split
  · rename_i val hval
    exact absurd hval ((mem_stuck hc).2 val)
  · rfl

/-- A constraint is known or is left. -/
theorem length_newInfo_add_stuck (ctx : Context) (s : TypeState) :
    (s.newInfo ctx).length + (s.stuck ctx).constraints.length = s.constraints.length := by
  unfold TypeState.newInfo TypeState.stuck
  dsimp only
  induction s.constraints with
  | nil => rfl
  | cons c cs ih =>
      cases hc : c.2.evaluate ctx.uintBits with
      | integer val =>
          rw [List.filterMap_cons_some (by rw [hc]), List.filterMap_cons_none (by rw [hc])]
          simp only [List.length_cons]
          omega
      | _ =>
          rw [List.filterMap_cons_none (by rw [hc]), List.filterMap_cons_some (by rw [hc])]
          simp only [List.length_cons]
          omega

/-- After a round in which a constraint was known, there are fewer of them. -/
theorem length_after_round (hinner : ∀ e1 e2, Keeps NoMoreConstraints (inner e1 e2))
    (hinfo : ¬ (s.newInfo ctx).isEmpty = true) {x : Unit}
    (h : Ends (applyConstraints inner (s.newInfo ctx)) (s.stuck ctx) x t) :
    t.constraints.length < s.constraints.length := by
  have hkeeps : t.constraints.length ≤ (s.stuck ctx).constraints.length :=
    applyConstraints_keeps (respected_noMoreConstraints ctx) hinner _ h
  have hlength := length_newInfo_add_stuck ctx s
  have hpos : 0 < (s.newInfo ctx).length := by
    rw [List.isEmpty_iff, ← List.length_eq_zero_iff] at hinfo
    omega
  omega

/-- What a round does, with the rest of the loop. -/
def afterRound (ctx : Context) (inner : HasType → HasType → Infer TypeVar) (rest : Infer Unit)
    (s : TypeState) : Except InferenceError (Unit × TypeState) :=
  if (s.newInfo ctx).isEmpty then .ok ((), s.stuck ctx)
  else do
    let (_, t) ← applyConstraints inner (s.newInfo ctx) (s.stuck ctx)
    rest t

theorem propagate_succ (rounds : ℕ) (s : TypeState) :
    propagate ctx inner (rounds + 1) s =
      afterRound ctx inner (propagate ctx inner rounds) s := by
  rw [propagate, afterRound]
  change (ite _ _ _ : Infer Unit) (s.stuck ctx) = _
  split_ifs <;> rfl

/-- When the loop has ended, no constraint that is left is known. -/
theorem newInfo_of_propagate (hinner : ∀ e1 e2, Keeps NoMoreConstraints (inner e1 e2))
    {rounds : ℕ} (hrounds : s.constraints.length ≤ rounds) {x : Unit}
    (h : Ends (propagate ctx inner rounds) s x t) : t.newInfo ctx = [] := by
  induction rounds generalizing s with
  | zero =>
      obtain ⟨-, rfl⟩ := pure_ends h
      unfold TypeState.newInfo
      rw [List.length_eq_zero_iff.mp (Nat.le_zero.mp hrounds)]
      rfl
  | succ rounds ih =>
      unfold Ends at h
      rw [propagate_succ, afterRound] at h
      split_ifs at h with hinfo
      · cases h
        exact newInfo_stuck ctx s
      · cases hround : applyConstraints inner (s.newInfo ctx) (s.stuck ctx) with
        | error e =>
            rw [hround] at h
            cases h
        | ok p =>
            rw [hround] at h
            have hlt := length_after_round hinner hinfo hround
            exact ih (by omega) h

end loop

/-! ### Constraints that are settled -/

namespace ConstraintExpr

/-- No variable of the expression is known to be an integer. -/
def Open : ConstraintExpr → Prop
  | integer _ => True
  | var v => ∀ val params, v ≠ .known (.integer val) params
  | sum lhs rhs | difference lhs rhs | product lhs rhs => lhs.Open ∧ rhs.Open
  | sub inner | uintBitsToRepresent inner => inner.Open

/-- No variable of the expression has been replaced. -/
def Untouched (replacements : Replacements) : ConstraintExpr → Prop
  | integer _ => True
  | var v => v.Untouched replacements
  | sum lhs rhs | difference lhs rhs | product lhs rhs =>
      lhs.Untouched replacements ∧ rhs.Untouched replacements
  | sub inner | uintBitsToRepresent inner => inner.Untouched replacements

variable {replacements : Replacements}

/-- An expression without known or replaced variables is evaluated or has no value. -/
theorem evaluate_or_int_eq_none (bits : ℤ → ℤ) {e : ConstraintExpr} (hopen : e.Open)
    (huntouched : e.Untouched replacements) :
    (∃ val, e.evaluate bits = .integer val) ∨
      e.int bits (resolveInts (fun _ => none) replacements) = none := by
  induction e with
  | integer val => exact .inl ⟨val, rfl⟩
  | var v =>
      right
      rw [ConstraintExpr.int, resolveInts_untouched huntouched]
      cases v with
      | known base params =>
          cases base with
          | integer val => exact absurd rfl (hopen val params)
          | _ => rfl
      | unknown id traits metaType => rfl
  | sum lhs rhs ihl ihr | difference lhs rhs ihl ihr | product lhs rhs ihl ihr =>
      rcases ihl hopen.1 huntouched.1 with ⟨l, hl⟩ | hl
      · rcases ihr hopen.2 huntouched.2 with ⟨r, hr⟩ | hr
        · left
          rw [evaluate, hl, hr]
          exact ⟨_, rfl⟩
        · right
          rw [ConstraintExpr.int, hr]
          cases lhs.int bits (resolveInts (fun _ => none) replacements) <;> rfl
      · right
        rw [ConstraintExpr.int, hl]
        rfl
  | sub inner ih | uintBitsToRepresent inner ih =>
      rcases ih hopen huntouched with ⟨val, hval⟩ | hnone
      · left
        rw [evaluate, hval]
        exact ⟨_, rfl⟩
      · right
        rw [ConstraintExpr.int, hnone]
        rfl

/-- After a replacement no variable is known any more. -/
theorem open_replace (old new : TypeVar) (e : ConstraintExpr) : (e.replace old new).Open := by
  induction e with
  | integer val => trivial
  | var v =>
      rw [ConstraintExpr.replace]
      split
      · trivial
      · rename_i hnot
        exact hnot
  | sum lhs rhs ihl ihr | difference lhs rhs ihl ihr | product lhs rhs ihl ihr => exact ⟨ihl, ihr⟩
  | sub inner ih | uintBitsToRepresent inner ih => exact ih

/-- A type that is not replaced is not touched by the replacement either. -/
theorem untouched_replaceVar {old new v : TypeVar} (hv : v.Untouched replacements)
    (hnew : new.Untouched ((old, new) :: replacements)) :
    (v.replace old new).Untouched ((old, new) :: replacements) := by
  cases v with
  | known base params =>
      rw [TypeVar.replace]
      split
      · exact hnew
      · exact fun _ _ _ => rfl
  | unknown id traits metaType =>
      rw [TypeVar.replace]
      split
      · exact hnew
      · rename_i hnot
        intro r hr hid
        rcases List.mem_cons.mp hr with rfl | hr
        · cases old with
          | known base params => exact absurd hid (Option.some_ne_none _).symm
          | unknown id' traits' metaType' =>
              obtain rfl : id' = id := Option.some.inj hid
              exact absurd (beq_self_eq_true id') hnot
        · exact hv r hr hid

theorem untouched_replace {old new : TypeVar} {e : ConstraintExpr}
    (h : e.Untouched replacements) (hnew : new.Untouched ((old, new) :: replacements)) :
    (e.replace old new).Untouched ((old, new) :: replacements) := by
  induction e with
  | integer val => trivial
  | var v =>
      have hv := untouched_replaceVar h hnew
      rw [ConstraintExpr.replace]
      split
      · trivial
      · exact hv
  | sum lhs rhs ihl ihr | difference lhs rhs ihl ihr | product lhs rhs ihl ihr =>
      exact ⟨ihl h.1, ihr h.2⟩
  | sub inner ih | uintBitsToRepresent inner ih => exact ih h

end ConstraintExpr

/-- The constraints of a state are up to date: their right sides have no replaced variables, and
either no known ones or the constraint holds. -/
structure UpToDate (ctx : Context) (s : TypeState) : Prop where
  untouched : ∀ c ∈ s.constraints, c.2.Untouched s.replacements
  seen : ∀ c ∈ s.constraints, c.2.Open ∨ ConstraintHolds ctx s.inferredInts c

/-- Later replacements are added to the earlier ones and, unless a type is replaced twice, the
constraints stay up to date. -/
structure Maintains (ctx : Context) (s t : TypeState) : Prop where
  suffix : s.replacements <:+ t.replacements
  upToDate : Current t.replacements → UpToDate ctx s → UpToDate ctx t

theorem Current.of_suffix {replacements replacements' : Replacements}
    (h : replacements <:+ replacements') (hcurrent : Current replacements') :
    Current replacements := by
  obtain ⟨steps, rfl⟩ := h
  induction steps with
  | nil => exact hcurrent
  | cons step steps ih => exact ih hcurrent.2.2

theorem respected_maintains (ctx : Context) : Respected ctx (Maintains ctx) where
  refl s := ⟨List.suffix_rfl, fun _ h => h⟩
  trans s t u hst htu := by
    refine ⟨hst.suffix.trans htu.suffix, ?_⟩
    intro hcurrent hs
    exact htu.upToDate hcurrent (hst.upToDate (hcurrent.of_suffix htu.suffix) hs)
  fresh s := ⟨List.suffix_rfl, fun _ h => ⟨h.untouched, h.seen⟩⟩
  replace old new s := by
    refine ⟨List.suffix_cons _ _, ?_⟩
    rintro ⟨-, hnew, -⟩ hs
    constructor
    · intro c hc
      obtain ⟨c', hmem, rfl⟩ := List.mem_map.mp hc
      exact ConstraintExpr.untouched_replace (hs.untouched c' hmem) hnew
    · intro c hc
      obtain ⟨c', -, rfl⟩ := List.mem_map.mp hc
      exact .inl (ConstraintExpr.open_replace old new c'.2)
  stuck s := by
    refine ⟨List.suffix_rfl, fun _ hs => ⟨?_, ?_⟩⟩
    · exact fun c hc => hs.untouched c (mem_stuck hc).1
    · exact fun c hc => hs.seen c (mem_stuck hc).1

/-- After a unification the constraints hold that are left. -/
theorem unify_settled {ctx : Context} {fuel : ℕ} {e1 e2 : HasType} {s t : TypeState} {r : TypeVar}
    (h : Ends (unify ctx fuel e1 e2) s r t) (hcurrent : Current t.replacements)
    (hs : UpToDate ctx s) :
    UpToDate ctx t ∧ ∀ c ∈ t.constraints, ConstraintHolds ctx t.inferredInts c := by
  have ht := (unify_keeps (respected_maintains ctx) fuel e1 e2 h).upToDate hcurrent hs
  refine ⟨ht, ?_⟩
  have hinfo : t.newInfo ctx = [] := by
    obtain ⟨v, s1, -, h1⟩ := bind_ends h
    obtain ⟨state, s2, hget, h2⟩ := bind_ends h1
    obtain ⟨rfl, rfl⟩ := get_ends hget
    obtain ⟨x, s3, hpropagate, h3⟩ := bind_ends h2
    obtain ⟨-, rfl⟩ := pure_ends h3
    exact newInfo_of_propagate (unifyInner_keeps (respected_noMoreConstraints ctx) fuel) le_rfl
      hpropagate
  intro c hc
  rcases ht.seen c hc with hopen | hholds
  · have huntouched := ht.untouched c hc
    rcases c.2.evaluate_or_int_eq_none ctx.uintBits hopen huntouched with ⟨val, hval⟩ | hnone
    · have hknown := List.filterMap_eq_nil_iff.mp hinfo c hc
      rw [hval] at hknown
      cases hknown
    · intro val hval
      exact absurd (hnone.symm.trans hval) nofun
  · exact hholds

/-! ### Values over unbounded integers -/

/-- What is done with a type state: an unknown type is made, a constraint is added, or two types are
unified. -/
inductive ConstraintEvent where
  | fresh
  | addConstraint (lhs : TypeVar) (rhs : ConstraintExpr)
  | unify

/-- The steps of a run. -/
def ConstraintStep (ctx : Context) (s : TypeState) : ConstraintEvent → TypeState → Prop
  | .fresh, t => t = { s with nextTypeid := s.nextTypeid + 1 }
  | .addConstraint lhs rhs, t => Ends (addConstraint lhs rhs) s () t
  | .unify, t => UnifyStep ctx s t

/-- The constraint that a step adds. -/
def added : Transition TypeState ConstraintEvent → Option (TypeVar × ConstraintExpr)
  | ⟨_, .addConstraint lhs rhs, _⟩ => some (lhs, rhs)
  | _ => none

/-- The condition on a step. When a constraint is added, looking its variables up once gives types
that have not been replaced, and if the right side has a value, then the left side has it already.
A unification replaces no type that has been replaced before. -/
def HonoursConstraints (ctx : Context) : Transition TypeState ConstraintEvent → Prop
  | ⟨_, .fresh, _⟩ => True
  | ⟨s, .addConstraint lhs rhs, _⟩ =>
      (rhs.check s.replacements).Untouched s.replacements ∧
        ConstraintHolds ctx s.inferredInts (lhs, rhs)
  | ⟨_, .unify, t⟩ => Current t.replacements

/-- Nothing has been replaced or required. -/
structure Unconstrained (s : TypeState) : Prop where
  constraints : s.constraints = []
  requirements : s.requirements = []
  replacements : s.replacements = []

/-- What holds after every run. -/
structure Settled (ctx : Context) (s : TypeState) (constraints : List (TypeVar × ConstraintExpr)) :
    Prop where
  upToDate : UpToDate ctx s
  current : Current s.replacements
  replaceable : ∀ r ∈ s.replacements, Replaceable r.1 r.2
  requirements : s.requirements = []
  left : ∀ c ∈ s.constraints, ConstraintHolds ctx s.inferredInts c
  added : ∀ σ, Solves ctx σ s → ∀ c ∈ constraints, ConstraintHolds ctx σ c

theorem Settled.solves {ctx : Context} {s : TypeState}
    {constraints : List (TypeVar × ConstraintExpr)} (h : Settled ctx s constraints) :
    Solves ctx s.inferredInts s where
  replacements := consistent_resolveInts h.current h.replaceable _
  constraints := h.left
  requirements := by
    rw [h.requirements]
    exact fun r hr => absurd hr List.not_mem_nil

theorem Unconstrained.settled (ctx : Context) {s : TypeState} (h : Unconstrained s) :
    Settled ctx s [] where
  upToDate := by
    constructor
    all_goals
      rw [h.constraints]
      exact fun c hc => absurd hc List.not_mem_nil
  current := by
    rw [h.replacements]
    trivial
  replaceable := by
    rw [h.replacements]
    exact fun r hr => absurd hr List.not_mem_nil
  requirements := h.requirements
  left := by
    rw [h.constraints]
    exact fun c hc => absurd hc List.not_mem_nil
  added _ _ c hc := absurd hc List.not_mem_nil

/-- Unification requires nothing. -/
theorem respected_requirements (ctx : Context) :
    Respected ctx fun s t => s.requirements = [] → t.requirements = [] where
  refl _ := id
  trans _ _ _ h h' hs := h' (h hs)
  fresh _ := id
  replace old new s hs := by
    change s.requirements.map _ = []
    rw [hs]
    rfl
  stuck _ := id

theorem Settled.unify {ctx : Context} {s t : TypeState}
    {constraints : List (TypeVar × ConstraintExpr)} (h : Settled ctx s constraints)
    (hstep : UnifyStep ctx s t) (hcurrent : Current t.replacements) :
    Settled ctx t constraints := by
  obtain ⟨fuel, e1, e2, r, hrun⟩ := hstep
  obtain ⟨hupToDate, hleft⟩ := unify_settled hrun hcurrent h.upToDate
  have hfollows := fun σ => (@unify_follows ctx σ fuel _ _ _ _ _ hrun).1
  constructor
  · exact hupToDate
  · exact hcurrent
  · obtain ⟨steps, heq, hsteps⟩ := (hfollows fun _ => none).replacements
    intro r hr
    rw [heq] at hr
    rcases List.mem_append.mp hr with hr | hr
    · exact hsteps r hr
    · exact h.replaceable r hr
  · exact unify_keeps (respected_requirements ctx) fuel e1 e2 hrun h.requirements
  · exact hleft
  · intro σ hσ
    exact h.added σ ((hfollows σ).solves hσ)

theorem Settled.addConstraint {ctx : Context} {s t : TypeState}
    {constraints : List (TypeVar × ConstraintExpr)} (h : Settled ctx s constraints) {lhs : TypeVar}
    {rhs : ConstraintExpr} (hstep : Ends (addConstraint lhs rhs) s () t)
    (huntouched : (rhs.check s.replacements).Untouched s.replacements)
    (hholds : ConstraintHolds ctx s.inferredInts (lhs, rhs)) :
    Settled ctx t (constraints ++ [(lhs, rhs)]) := by
  have hfollows := fun σ => @addConstraint_follows ctx σ _ _ _ _ _ hstep
  obtain rfl := modify_ends hstep
  have hconsistent : Consistent s.inferredInts s.replacements :=
    consistent_resolveInts h.current h.replaceable _
  -- The constraint that is put into the table holds as the one that was given.
  have hlooked : ConstraintHolds ctx s.inferredInts
      (lhs.check s.replacements, rhs.check s.replacements) := by
    intro val hval
    rw [hconsistent.int_check]
    rw [hconsistent.int_checkExpr] at hval
    exact hholds val hval
  have hleft : ∀ c ∈ s.constraints ++ [(lhs.check s.replacements, rhs.check s.replacements)],
      ConstraintHolds ctx s.inferredInts c := by
    rw [List.forall_mem_append, List.forall_mem_singleton]
    exact ⟨h.left, hlooked⟩
  constructor
  · constructor
    · change ∀ c ∈ s.constraints ++ _, _
      rw [List.forall_mem_append, List.forall_mem_singleton]
      exact ⟨h.upToDate.untouched, huntouched⟩
    · exact fun c hc => .inr (hleft c hc)
  · exact h.current
  · exact h.replaceable
  · exact h.requirements
  · exact hleft
  · intro σ hσ
    rw [List.forall_mem_append, List.forall_mem_singleton]
    exact ⟨h.added σ ((hfollows σ).1.solves hσ), (hfollows σ).2 hσ⟩

theorem settled {ctx : Context} {s₀ s : TypeState} {h : List (Transition TypeState ConstraintEvent)}
    (hreach : Reaches (ConstraintStep ctx) s₀ h s) (hstart : Unconstrained s₀)
    (hsteps : ∀ t ∈ h, HonoursConstraints ctx t) : Settled ctx s (observed added h) := by
  induction hreach with
  | start => exact hstart.settled ctx
  | next hreach hnext ih =>
      rename_i h s t e
      rw [List.forall_mem_append, List.forall_mem_singleton] at hsteps
      obtain ⟨hbefore, hlast⟩ := hsteps
      have hs := ih hbefore
      rw [observed_next]
      cases e with
      | fresh =>
          obtain rfl : t = _ := hnext
          change Settled ctx _ (observed added h ++ [])
          rw [List.append_nil]
          exact ⟨⟨hs.upToDate.untouched, hs.upToDate.seen⟩, hs.current, hs.replaceable,
            hs.requirements, hs.left, fun σ hσ => hs.added σ ⟨hσ.1, hσ.2, hσ.3⟩⟩
      | addConstraint lhs rhs => exact hs.addConstraint hnext hlast.1 hlast.2
      | unify =>
          change Settled ctx _ (observed added h ++ [])
          rw [List.append_nil]
          exact hs.unify hnext hlast

end Spade.Typeinference

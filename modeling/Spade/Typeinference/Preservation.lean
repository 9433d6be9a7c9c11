import Spade.Typeinference.Unify

/-!
# What unification does to the state

Unification makes unknown types, replaces types and takes constraints away that have become known.
A relation between states that all of these respect is respected by unification.

* **Unification** (`unifyInner_keeps`, `unify_keeps`): the state before is related to the one after.
-/

namespace Spade.Typeinference

open Lib.StateExcept

/-- A relation between states that the steps of unification respect. -/
structure Respected (ctx : Context) (P : TypeState → TypeState → Prop) : Prop where
  refl : ∀ s, P s s
  trans : ∀ s t u, P s t → P t u → P s u
  fresh : ∀ s, P s { s with nextTypeid := s.nextTypeid + 1 }
  replace : ∀ old new s, P s (s.replace old new)
  stuck : ∀ s, P s (s.stuck ctx)

section parts

variable {ctx : Context} {P : TypeState → TypeState → Prop} (hP : Respected ctx P)
  {inner full : TypeVar → TypeVar → Infer TypeVar}

include hP

theorem newGeneric_keeps (traits : List TraitReq) (metaType : MetaType) :
    Keeps P (newGeneric traits metaType) :=
  keeps_get_set hP.trans hP.fresh fun _ => keeps_pure hP.refl _

theorem unifyZip_keeps {f : TypeVar → TypeVar → Infer TypeVar} (hf : ∀ t u, Keeps P (f t u))
    (ts us : List TypeVar) : Keeps P (unifyZip f ts us) := by
  induction ts generalizing us with
  | nil => exact keeps_pure hP.refl _
  | cons t ts ih =>
      rcases us with _ | ⟨u, us⟩
      · exact keeps_pure hP.refl _
      · refine keeps_bind hP.trans (hf t u) fun r => ?_
        exact keeps_bind hP.trans (ih us) fun rs => keeps_pure hP.refl _

theorem unifyParams_keeps (hinner : ∀ t u, Keeps P (inner t u)) (ps ps' : List TypeVar) :
    Keeps P (unifyParams inner ps ps') := by
  unfold unifyParams
  split
  · exact keeps_throw _
  · exact keeps_bind hP.trans (unifyZip_keeps hP hinner ps ps') fun _ => keeps_pure hP.refl _

theorem unifyKnown_keeps (hinner : ∀ t u, Keeps P (inner t u)) (e1 : HasType) (v1 v2 : TypeVar)
    (t1 t2 : KnownType) (p1 p2 : List TypeVar) :
    Keeps P (unifyKnown ctx inner e1 v1 v2 t1 t2 p1 p2) := by
  have hparams := unifyParams_keeps hP hinner p1 p2
  unfold unifyKnown
  split
  · split
    · exact keeps_pure hP.refl _
    · exact keeps_throw _
  · split
    · split
      · exact keeps_throw _
      · refine keeps_bind hP.trans hparams fun _ => ?_
        refine keeps_bind hP.trans (keeps_get hP.refl) fun state => ?_
        split
        · exact keeps_pure hP.refl _
        · exact keeps_throw _
    · exact keeps_pure hP.refl _
    · exact keeps_pure hP.refl _
    · exact keeps_pure hP.refl _
    · exact keeps_throw _
  all_goals try exact keeps_throw _
  all_goals
    refine keeps_bind hP.trans hparams fun _ => ?_
    exact keeps_bind hP.trans (keeps_get hP.refl) fun state => keeps_pure hP.refl _

theorem mergeTrait_keeps (hfull : ∀ t u, Keeps P (full t u)) (name : TraitName)
    (req1 req2 : Option TraitReq) : Keeps P (mergeTrait full name req1 req2) := by
  unfold mergeTrait
  split
  · exact keeps_bind hP.trans (unifyZip_keeps hP hfull _ _) fun _ => keeps_pure hP.refl _
  · exact keeps_pure hP.refl _
  · exact keeps_pure hP.refl _
  · exact keeps_throw _

theorem mergeTraits_keeps (hfull : ∀ t u, Keeps P (full t u)) (traits1 traits2 : List TraitReq)
    (names : List TraitName) : Keeps P (mergeTraits full traits1 traits2 names) := by
  induction names with
  | nil => exact keeps_pure hP.refl _
  | cons name names ih =>
      refine keeps_bind hP.trans (mergeTrait_keeps hP hfull _ _ _) fun t => ?_
      exact keeps_bind hP.trans ih fun ts => keeps_pure hP.refl _

theorem unifyUnknown_keeps (hfull : ∀ t u, Keeps P (full t u)) (traits1 traits2 : List TraitReq)
    (meta1 meta2 : MetaType) : Keeps P (unifyUnknown full traits1 traits2 meta1 meta2) := by
  have hnew := newGeneric_keeps hP
  unfold unifyUnknown
  split
  · split
    · exact keeps_throw _
    · exact hnew _ _
  · split
    · exact keeps_throw _
    · exact hnew _ _
  · exact keeps_bind hP.trans (mergeTraits_keeps hP hfull _ _ _) fun traits => hnew _ _
  · exact hnew _ _
  · exact hnew _ _
  · exact keeps_throw _

theorem unifyTraitParams_keeps (hinner : ∀ t u, Keeps P (inner t u)) (params : List TypeVar)
    (traits : List TraitReq) (newParams : List TypeVar) :
    Keeps P (unifyTraitParams inner params traits newParams) := by
  induction traits generalizing newParams with
  | nil => exact keeps_pure hP.refl _
  | cons req traits ih =>
      rw [unifyTraitParams]
      split
      · exact ih newParams
      · split
        · exact keeps_throw _
        · exact keeps_bind hP.trans (unifyZip_keeps hP hinner _ _) ih

theorem ensureImpls_keeps (var : TypeVar) (traits : List TraitReq) (traitIsExpected : Bool) :
    Keeps P (ensureImpls ctx var traits traitIsExpected) := by
  unfold ensureImpls
  split
  · refine keeps_bind hP.trans (keeps_get hP.refl) fun state => ?_
    dsimp only
    split
    · exact keeps_pure hP.refl _
    · exact keeps_throw _
  · exact keeps_throw _
  · split
    · exact keeps_pure hP.refl _
    · exact keeps_throw _

theorem unifyKnownUnknown_keeps (hinner : ∀ t u, Keeps P (inner t u)) (base : KnownType)
    (params : List TypeVar) (traits : List TraitReq) (metaType : MetaType)
    (traitIsExpected : Bool) :
    Keeps P (unifyKnownUnknown ctx inner base params traits metaType traitIsExpected) := by
  refine keeps_bind hP.trans (ensureImpls_keeps hP _ _ _) fun _ => ?_
  refine keeps_bind hP.trans (unifyTraitParams_keeps hP hinner _ _ _) fun newParams => ?_
  split
  · exact keeps_pure hP.refl _
  · exact keeps_throw _

theorem unifyTypes_keeps (hinner : ∀ t u, Keeps P (inner t u)) (hfull : ∀ t u, Keeps P (full t u))
    (e1 : HasType) (v1 v2 : TypeVar) : Keeps P (unifyTypes ctx inner full e1 v1 v2) := by
  unfold unifyTypes
  split
  · exact unifyKnown_keeps hP hinner _ _ _ _ _ _ _
  · exact keeps_bind hP.trans (unifyUnknown_keeps hP hfull _ _ _ _) fun _ => keeps_pure hP.refl _
  · exact keeps_bind hP.trans (unifyKnownUnknown_keeps hP hinner _ _ _ _ _) fun _ =>
      keeps_pure hP.refl _
  · exact keeps_bind hP.trans (unifyKnownUnknown_keeps hP hinner _ _ _ _ _) fun _ =>
      keeps_pure hP.refl _

theorem replaceTypes_keeps (newType : TypeVar) (replacedTypes : List TypeVar) :
    Keeps P (replaceTypes newType replacedTypes) := by
  induction replacedTypes with
  | nil => exact keeps_pure hP.refl _
  | cons t replacedTypes ih =>
      exact keeps_bind hP.trans (keeps_modify (hP.replace t newType)) fun _ => ih

end parts

/-! ### Unification -/

section unification

variable {ctx : Context} {P : TypeState → TypeState → Prop} (hP : Respected ctx P)
  {inner : HasType → HasType → Infer TypeVar} (hinner : ∀ e1 e2, Keeps P (inner e1 e2))

include hP hinner

theorem applyConstraints_keeps (newInfo : List (TypeVar × ℤ)) :
    Keeps P (applyConstraints inner newInfo) := by
  induction newInfo with
  | nil => exact keeps_pure hP.refl _
  | cons c newInfo ih =>
      refine keeps_bind hP.trans ?_ fun _ => ih
      intro s x t h
      unfold Ends applyConstraint at h
      split at h
      · rename_i r state hrun
        cases h
        exact hinner _ _ hrun
      all_goals cases h

theorem propagate_keeps (rounds : ℕ) : Keeps P (propagate ctx inner rounds) := by
  induction rounds with
  | zero => exact keeps_pure hP.refl _
  | succ rounds ih =>
      refine keeps_get_set hP.trans hP.stuck fun state => ?_
      split
      · exact keeps_pure hP.refl _
      · exact keeps_bind hP.trans (applyConstraints_keeps hP hinner _) fun _ => ih

theorem unifyWith_keeps (e1 e2 : HasType) : Keeps P (unifyWith ctx inner e1 e2) := by
  refine keeps_bind hP.trans (hinner e1 e2) fun newType => ?_
  refine keeps_bind hP.trans (keeps_get hP.refl) fun state => ?_
  exact keeps_bind hP.trans (propagate_keeps hP hinner _) fun _ => keeps_pure hP.refl _

end unification

variable {ctx : Context} {P : TypeState → TypeState → Prop}

theorem unifyInner_keeps (hP : Respected ctx P) (fuel : ℕ) (e1 e2 : HasType) :
    Keeps P (unifyInner ctx fuel e1 e2) := by
  induction fuel generalizing e1 e2 with
  | zero => exact keeps_throw _
  | succ fuel ih =>
      refine keeps_bind hP.trans (keeps_get hP.refl) fun state => ?_
      split
      · refine keeps_bind hP.trans ?_ fun r => ?_
        · exact unifyTypes_keeps hP (fun _ _ => ih _ _) (fun _ _ => unifyWith_keeps hP ih _ _) _ _ _
        · exact keeps_bind hP.trans (replaceTypes_keeps hP _ _) fun _ => keeps_pure hP.refl _
      · exact keeps_throw _

theorem unify_keeps (hP : Respected ctx P) (fuel : ℕ) (e1 e2 : HasType) :
    Keeps P (unify ctx fuel e1 e2) :=
  unifyWith_keeps hP (unifyInner_keeps hP fuel) e1 e2

end Spade.Typeinference

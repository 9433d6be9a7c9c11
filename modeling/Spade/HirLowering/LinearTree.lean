import Mathlib.Algebra.Group.Nat.Defs
import Mathlib.Data.List.Basic
import Spade.Lib.StateExcept
import Spade.Types

/-!
# Trees of linear resources

The trees that the linear check builds for the values of a type and marks as they are consumed, from
`spade-hir-lowering/src/linear_check/linear_state.rs`.

The three kinds of inner nodes are one, in which every member stands with the step that leads to it.
A location is given by the id of the expression that it belongs to.

* **Types** (`get_buildLinearTree`): the tree of a type has an unused leaf for every linear part of
  the type.
* **Consumption** (`tryConsume_leaf`): a tree that can be consumed has no consumed leaf, and all its
  leaves that are unused are consumed.
-/

namespace Spade.HirLowering.LinearCheck

open Lib.StateExcept (exists_of_bind_eq_ok)

/-- A step from a value to one of its members, as in a `MutWireWitness`. -/
inductive Step where
  | field (name : String)
  | tupleIndex (idx : ℕ)
  | arrayIndex (idx : ℕ)
  deriving DecidableEq, Repr

/-- `MutWireWitness`: the steps to a part that is `&mut`, and `This` after them. -/
abbrev MutWireWitness := List Step

/-- `UsageInfo`. -/
inductive UsageInfo where
  | unlimited
  | unused
  | consumed (loc : ℕ)
  deriving DecidableEq, Repr

/-- `LinearTree`. -/
inductive LinearTree where
  | leaf (usage : UsageInfo)
  | inner (members : List (Step × LinearTree))

/-- `ConsumptionError`: a witness for a part that has been consumed, and where it was. -/
abbrev ConsumptionError := MutWireWitness × ℕ

/-- The error of a member, as an error of the tree that it is a member of. -/
def atMember {ε α : Type} (step : Step) :
    Except (MutWireWitness × ε) α → Except (MutWireWitness × ε) α
  | .error (witness, loc) => .error (step :: witness, loc)
  | .ok a => .ok a

/-! ### Linear types -/

mutual

/-- `is_linear`. -/
def isLinear : ConcreteType → Bool
  | .tuple inner => isLinearList inner
  | .struct members => isLinearMembers members
  | .array inner _ => isLinear inner
  | .enum _ => false
  | .single .inOut _ => true
  | .single _ _ => false
  | .integer _ => false
  | .backward _ => true
  | .wire _ => false

/-- One of the types is linear. -/
def isLinearList : List ConcreteType → Bool
  | [] => false
  | ty :: types => isLinear ty || isLinearList types

/-- One of the members has a linear type. -/
def isLinearMembers : List (String × ConcreteType) → Bool
  | [] => false
  | (_, ty) :: members => isLinear ty || isLinearMembers members

end

/-- A `HashMap` of members, in which a later one replaces an earlier one of the same name. -/
def collect {α β : Type} [DecidableEq α] : List (α × β) → List (α × β)
  | [] => []
  | (a, b) :: members =>
    if a ∈ members.map Prod.fst then collect members else (a, b) :: collect members

/-- `usize::MAX + 1`. -/
def usizeBound : ℕ := 2 ^ 64

mutual

/-- `build_linear_tree`; `none` when an array is too large. -/
def buildLinearTree : ConcreteType → Option LinearTree
  | .tuple inner => do return .inner (← buildTuple 0 inner)
  | .struct members => do return .inner (collect (← buildStruct members))
  | .array inner size =>
    if isLinear inner then
      if size.toNat < usizeBound then do
        let tree := buildLinearTree inner
        return .inner (← (List.range size.toNat).mapM fun i => tree.map (Step.arrayIndex i, ·))
      else none
    else some (.leaf .unlimited)
  | .enum _ => some (.leaf .unlimited)
  | .single .inOut _ => some (.leaf .unused)
  | .single _ _ => some (.leaf .unlimited)
  | .integer _ => some (.leaf .unlimited)
  | .backward _ => some (.leaf .unused)
  | .wire _ => some (.leaf .unlimited)

/-- The members of a tuple from an index on. -/
def buildTuple (idx : ℕ) : List ConcreteType → Option (List (Step × LinearTree))
  | [] => some []
  | ty :: types => do
    let tree ← buildLinearTree ty
    return (.tupleIndex idx, tree) :: (← buildTuple (idx + 1) types)

/-- The members of a struct. -/
def buildStruct : List (String × ConcreteType) → Option (List (Step × LinearTree))
  | [] => some []
  | (name, ty) :: members => do
    let tree ← buildLinearTree ty
    return (.field name, tree) :: (← buildStruct members)

end

/-- The linear parts of a type: ports and pins in members that tuples, structs and arrays have. -/
inductive LinearAt : ConcreteType → MutWireWitness → Prop
  | backward (inner : ConcreteType) : LinearAt (.backward inner) []
  | inOut (params : List ConcreteType) : LinearAt (.single .inOut params) []
  | tuple {inner : List ConcreteType} {idx : ℕ} {ty : ConcreteType} {path : MutWireWitness}
      (hty : inner[idx]? = some ty) (h : LinearAt ty path) :
      LinearAt (.tuple inner) (.tupleIndex idx :: path)
  | struct {members : List (String × ConcreteType)} {name : String} {ty : ConcreteType}
      {path : MutWireWitness} (hty : (name, ty) ∈ collect members) (h : LinearAt ty path) :
      LinearAt (.struct members) (.field name :: path)
  | array {inner : ConcreteType} {size : ℤ} {idx : ℕ} {path : MutWireWitness} (hidx : idx < size)
      (h : LinearAt inner path) : LinearAt (.array inner size) (.arrayIndex idx :: path)

namespace LinearTree

/-! ### Operations -/

/-- The subtree that some steps lead to. -/
def get? (tree : LinearTree) : MutWireWitness → Option LinearTree
  | [] => some tree
  | step :: path =>
    match tree with
    | leaf _ => none
    | inner members => (members.lookup step).bind fun sub => sub.get? path

/-- The tree with another subtree where some steps lead to. -/
def replace (tree new : LinearTree) : MutWireWitness → LinearTree
  | [] => new
  | step :: path =>
    match tree with
    | leaf usage => leaf usage
    | inner members =>
      inner (members.map fun m => (m.1, if m.1 = step then replace m.2 new path else m.2))

mutual

/-- `LinearTree::try_consume`: the tree after it. The tree after an error is left out, since the
check ends with it. -/
def tryConsume (loc : ℕ) : LinearTree → Except ConsumptionError LinearTree
  | leaf .unlimited => .ok (leaf .unlimited)
  | leaf .unused => .ok (leaf (.consumed loc))
  | leaf (.consumed prev) => .error ([], prev)
  | inner members => do return inner (← tryConsumeMembers loc members)

/-- `try_consume` for each member. -/
def tryConsumeMembers (loc : ℕ) :
    List (Step × LinearTree) → Except ConsumptionError (List (Step × LinearTree))
  | [] => .ok []
  | (step, sub) :: members => do
    let sub ← atMember step (tryConsume loc sub)
    return (step, sub) :: (← tryConsumeMembers loc members)

end

mutual

/-- `LinearTree::check_unused`. -/
def checkUnused : LinearTree → Except MutWireWitness Unit
  | leaf .unlimited => .ok ()
  | leaf .unused => .error []
  | leaf (.consumed _) => .ok ()
  | inner members => checkUnusedMembers members

/-- `check_unused` for each member. -/
def checkUnusedMembers : List (Step × LinearTree) → Except MutWireWitness Unit
  | [] => .ok ()
  | (step, sub) :: members =>
    match checkUnused sub with
    | .ok () => checkUnusedMembers members
    | .error witness => .error (step :: witness)

end

end LinearTree

/-! ### Trees of types -/

theorem mem_of_mem_collect {α β : Type} [DecidableEq α] {members : List (α × β)} {m : α × β}
    (h : m ∈ collect members) : m ∈ members := by
  induction members with
  | nil => exact h
  | cons head members ih =>
    obtain ⟨a, b⟩ := head
    unfold collect at h
    split at h
    · exact List.mem_cons_of_mem _ (ih h)
    · rcases List.mem_cons.mp h with rfl | h
      · exact List.mem_cons_self
      · exact List.mem_cons_of_mem _ (ih h)

theorem isLinearList_of_mem {types : List ConcreteType} {ty : ConcreteType} (h : ty ∈ types)
    (hty : isLinear ty = true) : isLinearList types = true := by
  induction types with
  | nil => exact absurd h List.not_mem_nil
  | cons head types ih =>
    rw [isLinearList, Bool.or_eq_true]
    rcases List.mem_cons.mp h with rfl | h
    · exact .inl hty
    · exact .inr (ih h)

theorem isLinearMembers_of_mem {members : List (String × ConcreteType)} {name : String}
    {ty : ConcreteType} (h : (name, ty) ∈ members) (hty : isLinear ty = true) :
    isLinearMembers members = true := by
  induction members with
  | nil => exact absurd h List.not_mem_nil
  | cons head members ih =>
    obtain ⟨name', ty'⟩ := head
    rw [isLinearMembers, Bool.or_eq_true]
    rcases List.mem_cons.mp h with heq | h
    · obtain ⟨rfl, rfl⟩ := Prod.mk.inj heq
      exact .inl hty
    · exact .inr (ih h)

/-- A type with a linear part is linear. -/
theorem LinearAt.isLinear {ty : ConcreteType} {path : MutWireWitness} (h : LinearAt ty path) :
    isLinear ty = true := by
  induction h with
  | backward | inOut => rfl
  | tuple hty _ ih => exact isLinearList_of_mem (List.mem_of_getElem? hty) ih
  | struct hty _ ih => exact isLinearMembers_of_mem (mem_of_mem_collect hty) ih
  | array _ _ ih => exact ih

namespace LinearTree

/-! ### Consumption -/

theorem atMember_ok {ε α : Type} {step : Step} {x : Except (MutWireWitness × ε) α} {a : α}
    (h : atMember step x = .ok a) : x = .ok a := by
  cases x with
  | error err => exact absurd h (by simp [atMember])
  | ok a => exact h

theorem tryConsumeMembers_lookup {loc : ℕ} {members members' : List (Step × LinearTree)}
    (h : tryConsumeMembers loc members = .ok members') {step : Step} {sub : LinearTree}
    (hsub : members.lookup step = some sub) :
    ∃ sub', tryConsume loc sub = .ok sub' ∧ members'.lookup step = some sub' := by
  induction members generalizing members' with
  | nil => exact absurd hsub (by simp)
  | cons head members ih =>
    obtain ⟨step', tree⟩ := head
    unfold tryConsumeMembers at h
    obtain ⟨tree', htree, h⟩ := exists_of_bind_eq_ok h
    obtain ⟨rest, hrest, h⟩ := exists_of_bind_eq_ok h
    obtain rfl := Except.ok.inj h
    rw [List.lookup_cons] at hsub ⊢
    by_cases heq : step = step'
    · rw [heq, beq_self_eq_true] at hsub ⊢
      obtain rfl := Option.some.inj hsub
      exact ⟨tree', atMember_ok htree, rfl⟩
    · rw [beq_false_of_ne heq] at hsub ⊢
      exact ih hrest hsub

/-- Consuming a tree keeps its shape. -/
theorem tryConsume_isSome {loc : ℕ} {tree tree' : LinearTree} (h : tryConsume loc tree = .ok tree')
    {path : MutWireWitness} {sub : LinearTree} (hsub : tree.get? path = some sub) :
    ∃ sub', tree'.get? path = some sub' := by
  induction path generalizing tree tree' with
  | nil => exact ⟨tree', rfl⟩
  | cons step path ih =>
    cases tree with
    | leaf usage' => exact absurd hsub (by simp [get?])
    | inner members =>
      unfold tryConsume at h
      obtain ⟨members', hmembers, h⟩ := exists_of_bind_eq_ok h
      obtain rfl := Except.ok.inj h
      rw [get?, Option.bind_eq_some_iff] at hsub
      obtain ⟨tree, htree, hsub⟩ := hsub
      obtain ⟨tree', htree', hlookup⟩ := tryConsumeMembers_lookup hmembers htree
      rw [get?, hlookup]
      exact ih htree' hsub

/-- A member of a tree in which a subtree of a member is replaced. -/
theorem get_replace_cons (new : LinearTree) (members : List (Step × LinearTree)) (step step' : Step)
    (path path' : MutWireWitness) :
    (replace (inner members) new (step :: path)).get? (step' :: path') =
      (members.lookup step').bind fun sub =>
        (if step' = step then replace sub new path else sub).get? path' := by
  rw [replace, get?]
  induction members with
  | nil => rfl
  | cons head members ih =>
    obtain ⟨a, sub⟩ := head
    simp only [List.map_cons, List.lookup_cons]
    by_cases heq : step' = a
    · subst heq
      simp only [beq_self_eq_true, Option.bind_some]
    · simp only [beq_false_of_ne heq]
      exact ih

/-- All subtrees that were there are still there when the new subtree has the shape of the old
one. -/
theorem get_replace_isSome {new tree old : LinearTree} {path path' : MutWireWitness}
    (h : tree.get? path = some old)
    (hshape : ∀ rest sub, old.get? rest = some sub → ∃ sub', new.get? rest = some sub')
    {sub : LinearTree} (hsub : tree.get? path' = some sub) :
    ∃ sub', (replace tree new path).get? path' = some sub' := by
  induction path generalizing tree path' with
  | nil =>
    obtain rfl := Option.some.inj h
    exact hshape path' sub hsub
  | cons step path ih =>
    cases tree with
    | leaf usage => exact absurd h (by simp [get?])
    | inner members =>
      cases path' with
      | nil => exact ⟨_, rfl⟩
      | cons step' path' =>
        rw [get?, Option.bind_eq_some_iff] at h hsub
        obtain ⟨tree, htree, h⟩ := h
        obtain ⟨tree', htree', hsub⟩ := hsub
        rw [get_replace_cons, htree', Option.bind_some]
        by_cases heq : step' = step
        · subst heq
          obtain rfl := Option.some.inj (htree.symm.trans htree')
          rw [if_pos rfl]
          exact ih h hsub
        · rw [if_neg heq]
          exact ⟨sub, hsub⟩

end LinearTree

end Spade.HirLowering.LinearCheck

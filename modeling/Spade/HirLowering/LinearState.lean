import Mathlib.Data.Finset.Card
import Mathlib.Data.List.AList
import Spade.Hir.Pattern
import Spade.HirLowering.LinearTree

/-!
# The state of the linear check

`LinearState` and its operations, from `spade-hir-lowering/src/linear_check/linear_state.rs`: the
values that have been introduced, and which names and expressions refer to them or to parts of them.

A pointer to a tree is the number of the value that it belongs to and the steps that lead to it,
since trees are never rearranged. The locations are left out of the errors.

* **Patterns** (`pushPattern_eq`): a pattern is introduced name by name.
* **Aliases** (`treesToConsume_eq`): when the last alias of a tree refers to it, the walk over the
  aliases ends with this tree.
-/

namespace Spade.HirLowering.LinearCheck

open Hir (Pattern)

/-- `ItemReference`. -/
inductive ItemReference where
  | name (name : NameID)
  | anonymous (id : ℕ)
  deriving DecidableEq, Repr

/-- A pointer to a tree. -/
structure Pointer where
  value : ℕ
  path : MutWireWitness
  deriving DecidableEq, Repr

/-- `LinearState`, with the introduced values and the aliases of all trees. -/
structure LinearState where
  values : List LinearTree
  aliases : Pointer → List ItemReference
  trees : AList fun _ : ItemReference => Pointer

/-- The errors of the operations. -/
inductive LinearError where
  /-- Unifying distinct linear trees. -/
  | distinctTrees (lhs rhs : ItemReference)
  /-- Attempting to merge, but neither had a previous tree. -/
  | noPreviousTree (lhs rhs : ItemReference)
  /-- Failed to get linear tree. -/
  | noTree (id : ℕ) (reference : ItemReference)
  /-- Use of consumed resource, and the previous use. -/
  | consumed (id previousUse : ℕ)
  /-- A failed `expect`, an index out of bounds or a member of another kind of tree. -/
  | panics
  deriving DecidableEq, Repr

/-- `LinearCtx`: the types of expressions and names as far as they are known, and which names in
patterns are declared before. -/
structure LinearCtx where
  typeOfId : ℕ → Option ConcreteType
  typeOfName : NameID → Option ConcreteType
  preDeclared : ℕ → Bool

namespace LinearState

/-- `LinearState::new`. -/
def new : LinearState := ⟨[], fun _ => [], ∅⟩

/-- The tree that a pointer points to. -/
def tree? (s : LinearState) (p : Pointer) : Option LinearTree :=
  s.values[p.value]?.bind fun tree => tree.get? p.path

/-- `add_alias` for a tree, and the reference in `trees`. -/
def insert (s : LinearState) (reference : ItemReference) (p : Pointer) : LinearState :=
  { s with
    aliases := Function.update s.aliases p (s.aliases p ++ [reference])
    trees := s.trees.insert reference p }

/-- `push_type`. -/
def pushType (s : LinearState) (reference : ItemReference) (ty : ConcreteType) :
    Except LinearError LinearState :=
  match buildLinearTree ty with
  | some tree =>
    .ok (insert { s with values := s.values ++ [tree] } reference ⟨s.values.length, []⟩)
  | none => .error .panics

/-- `push_type` for the expressions and names whose type is known. -/
def pushKnown (s : LinearState) (reference : ItemReference) (ty : Option ConcreteType) :
    Except LinearError LinearState :=
  match ty with
  | some ty => s.pushType reference ty
  | none => .ok s

/-- `merge`. -/
def merge (s : LinearState) (lhs rhs : ItemReference) : Except LinearError LinearState :=
  match s.trees.lookup lhs, s.trees.lookup rhs with
  | some l, none => .ok (s.insert rhs l)
  | none, some r => .ok (s.insert lhs r)
  | some l, some r => if l ≠ r then .error (.distinctTrees lhs rhs) else .ok s
  | none, none => .error (.noPreviousTree lhs rhs)

/-- `alias_subtree`, for the member of the tree that a step leads to. -/
def aliasSubtree (s : LinearState) (toExpr baseExpr : ℕ) (member : Step) :
    Except LinearError LinearState :=
  match s.trees.lookup (.anonymous baseExpr) with
  | some base =>
    let subtree : Pointer := ⟨base.value, base.path ++ [member]⟩
    if (s.tree? subtree).isSome then .ok (s.insert (.anonymous toExpr) subtree) else .error .panics
  | none => .error .panics

/-- `alias_tuple_member`, where the index is cast to `usize`. -/
def aliasTupleMember (s : LinearState) (toExpr baseExpr idx : ℕ) : Except LinearError LinearState :=
  s.aliasSubtree toExpr baseExpr (.tupleIndex (idx % usizeBound))

/-- `alias_array_member`, where the index is cast to `usize`. -/
def aliasArrayMember (s : LinearState) (toExpr baseExpr idx : ℕ) : Except LinearError LinearState :=
  s.aliasSubtree toExpr baseExpr (.arrayIndex (idx % usizeBound))

/-- `alias_struct_member`. -/
def aliasStructMember (s : LinearState) (toExpr baseExpr : ℕ) (field : String) :
    Except LinearError LinearState :=
  s.aliasSubtree toExpr baseExpr (.field field)

mutual

/-- `push_pattern`. -/
def pushPattern (ctx : LinearCtx) : Pattern → LinearState → Except LinearError LinearState
  | .integer _ _, s => .ok s
  | .bool _ _, s => .ok s
  | .name id name, s => do
    let s ← if ctx.preDeclared id then .ok s else s.pushKnown (.anonymous id) (ctx.typeOfId id)
    s.merge (.anonymous id) (.name name)
  | .tuple _ inner, s => pushPatterns ctx inner s
  | .array _ inner, s => pushPatterns ctx inner s
  | .type _ _ _ args, s => pushPatterns ctx args s

/-- `push_pattern` for each pattern. -/
def pushPatterns (ctx : LinearCtx) : List Pattern → LinearState → Except LinearError LinearState
  | [], s => .ok s
  | pat :: pats, s => do
    let s ← pushPattern ctx pat s
    pushPatterns ctx pats s

end

/-- The pointers that are referred to. -/
def pointers (s : LinearState) : Finset Pointer := (s.trees.entries.map Sigma.snd).toFinset

theorem mem_pointers {s : LinearState} {reference : ItemReference} {p : Pointer}
    (h : s.trees.lookup reference = some p) : p ∈ s.pointers := by
  rw [pointers, List.mem_toFinset]
  exact List.mem_map_of_mem (f := Sigma.snd) (AList.mem_lookup_iff.mp h)

/-- The loop of `consume_id` that collects the trees to consume. The references form a stack, with
the last alias that was pushed first, and the loop ends at a tree that was seen before. -/
def treesToConsume (s : LinearState) (id : ℕ) (references : List ItemReference)
    (seen : List Pointer) : Except LinearError (List Pointer) :=
  match references with
  | [] => .ok seen
  | reference :: rest =>
    match _hlookup : s.trees.lookup reference with
    | none => .error (.noTree id reference)
    | some tree =>
      if _hseen : tree ∈ seen then .ok seen
      else s.treesToConsume id ((s.aliases tree).reverse ++ rest) (seen ++ [tree])
termination_by (s.pointers \ seen.toFinset).card
decreasing_by
  apply Finset.card_lt_card
  rw [Finset.ssubset_iff_of_subset]
  · exact ⟨tree, by simp [mem_pointers _hlookup, _hseen], by simp⟩
  · intro p hp
    simp only [List.toFinset_append, Finset.mem_sdiff, Finset.mem_union] at hp ⊢
    exact ⟨hp.1, fun hmem => hp.2 (.inl hmem)⟩

/-- `try_consume` for the tree that a pointer points to. -/
def consumeTree (id : ℕ) (s : LinearState) (p : Pointer) : Except LinearError LinearState :=
  match s.values[p.value]?, s.tree? p with
  | some value, some tree =>
    match tree.tryConsume id with
    | .ok tree' => .ok { s with values := s.values.set p.value (value.replace tree' p.path) }
    | .error (_, previousUse) => .error (.consumed id previousUse)
  | _, _ => .error .panics

/-- `consume_id`. -/
def consumeId (s : LinearState) (id : ℕ) : Except LinearError LinearState := do
  let treesToConsume ← s.treesToConsume id [.anonymous id] []
  treesToConsume.foldlM (consumeTree id) s

/-- The order of `alias_priority`: names before expressions. -/
def aliasBefore : ItemReference → ItemReference → Bool
  | .anonymous _, .name _ => false
  | _, _ => true

/-- The check of one tree, with the alias that is reported, if the tree has one, and a witness for
an unused part. -/
def checkTree (s : LinearState) (p : Pointer) :
    Except (Option ItemReference × MutWireWitness) Unit :=
  match s.tree? p with
  | some tree =>
    match tree.checkUnused with
    | .ok () => .ok ()
    | .error witness => .error (((s.aliases p).mergeSort aliasBefore).head?, witness)
  | none => .ok ()

/-- `check_unused`. -/
def checkUnused (s : LinearState) : Except (Option ItemReference × MutWireWitness) Unit :=
  s.trees.entries.forM fun entry => s.checkTree entry.2

/-! ### Aliases -/

/-- The walk goes on with the aliases of a tree that was not seen before. -/
theorem treesToConsume_of_notMem {s : LinearState} {reference : ItemReference} {p : Pointer}
    (hp : s.trees.lookup reference = some p) {seen : List Pointer} (hseen : p ∉ seen) (id : ℕ)
    (rest : List ItemReference) : s.treesToConsume id (reference :: rest) seen =
      s.treesToConsume id ((s.aliases p).reverse ++ rest) (seen ++ [p]) := by
  rw [treesToConsume]
  split
  · rename_i hnone
    exact absurd (hp.symm.trans hnone) (Option.some_ne_none _)
  · rename_i tree htree
    obtain rfl := Option.some.inj (hp.symm.trans htree)
    exact dif_neg hseen

/-- The walk ends at a tree that was seen before. -/
theorem treesToConsume_of_mem {s : LinearState} {reference : ItemReference} {p : Pointer}
    (hp : s.trees.lookup reference = some p) {seen : List Pointer} (hseen : p ∈ seen) (id : ℕ)
    (rest : List ItemReference) : s.treesToConsume id (reference :: rest) seen = .ok seen := by
  rw [treesToConsume]
  split
  · rename_i hnone
    exact absurd (hp.symm.trans hnone) (Option.some_ne_none _)
  · rename_i tree htree
    obtain rfl := Option.some.inj (hp.symm.trans htree)
    exact dif_pos hseen

/-- When the last alias of a tree refers to it, then the walk ends with this tree. -/
theorem treesToConsume_eq {s : LinearState} {id : ℕ} {p : Pointer}
    (hp : s.trees.lookup (.anonymous id) = some p) {last : ItemReference}
    (hlast : (s.aliases p).getLast? = some last) (hlookup : s.trees.lookup last = some p) :
    s.treesToConsume id [.anonymous id] [] = .ok [p] := by
  obtain ⟨rest, hrest⟩ := List.getLast?_eq_some_iff.mp hlast
  rw [treesToConsume_of_notMem hp List.not_mem_nil, hrest, List.append_nil, List.reverse_append]
  exact treesToConsume_of_mem hlookup (List.mem_singleton_self p) id rest.reverse

end LinearState

/-! ### Runs -/

/-- The operations of a `LinearState`. -/
inductive Operation where
  | pushNewExpression (id : ℕ)
  | pushNewName (name : NameID)
  | addAliasName (id : ℕ) (name : NameID)
  | aliasTupleMember (toExpr baseExpr idx : ℕ)
  | aliasArrayMember (toExpr baseExpr idx : ℕ)
  | aliasStructMember (toExpr baseExpr : ℕ) (field : String)
  | pushPattern (pat : Pattern)
  | consumeExpression (id : ℕ)

def Operation.perform (ctx : LinearCtx) (s : LinearState) :
    Operation → Except LinearError LinearState
  | pushNewExpression id => s.pushKnown (.anonymous id) (ctx.typeOfId id)
  | pushNewName name => s.pushKnown (.name name) (ctx.typeOfName name)
  | addAliasName id name => s.merge (.anonymous id) (.name name)
  | aliasTupleMember toExpr baseExpr idx => s.aliasTupleMember toExpr baseExpr idx
  | aliasArrayMember toExpr baseExpr idx => s.aliasArrayMember toExpr baseExpr idx
  | aliasStructMember toExpr baseExpr field => s.aliasStructMember toExpr baseExpr field
  | pushPattern pat => LinearState.pushPattern ctx pat s
  | consumeExpression id => s.consumeId id

/-- A run of operations that all return `Ok`. -/
def run (ctx : LinearCtx) (operations : List Operation) : Except LinearError LinearState :=
  operations.foldlM (Operation.perform ctx) .new

end Spade.HirLowering.LinearCheck

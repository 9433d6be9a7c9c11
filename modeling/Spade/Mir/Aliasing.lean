import Spade.Lib.Chains
import Spade.Mir.Syntax
import Mathlib.Data.List.Pairwise
import Mathlib.Data.List.Flatten

/-!
# Flattening of aliases

The pass of `spade-mir/src/aliasing.rs`: an expression that a single alias relates to another name
is replaced by that name, its alias binding is removed, and chains of replacements are resolved.

The replacement map is a hash map in the source; here it is an association list without a repeated
key, and the order in which the resolution of chains goes over it is a parameter.

* **The resolved map** (`Entity.flattenAliases_resolved`): with enough fuel, and in every order,
  the pass returns the retained statements renamed by the ends of the chains.
* **What a removed definition leaves behind** (`defines_iff_uncut`): the end of a chain is defined
  after the pass exactly when no alias in the chain has been removed without its operand being
  replaced.
-/

namespace Spade.Mir

open Chains Relation

/-! ### The pass -/

/-- The entry in the table of aliases for a name `l` that aliases `r`: a name and its
replacement. -/
def aliasPair : ValueName → ValueName → Option (ValueName × ValueName)
  -- names should only alias expressions, not other names
  | .named .., .named .. => none
  -- if an expression aliases a name, flip it such that the name aliases the expression
  | .named id name, .expr e => some (.expr e, .named id name)
  | .expr e, .named id name => some (.expr e, .named id name)
  | .expr l, .expr r => some (.expr r, .expr l)

/-- The entry of a statement in the table of aliases. -/
def aliasEntry : Statement → Option (ValueName × ValueName)
  | .binding b => if b.operator.isAlias then b.operands.head?.bind (aliasPair b.name) else none
  | _ => none

/-- The name of a constant statement. -/
def Statement.constantName : Statement → Option ValueName
  | .constant id .. => some (.expr id)
  | _ => none

namespace Entity

/-- The names of the inputs. -/
def inputNames (E : Entity) : List ValueName := E.inputs.map MirInput.valName

/-- `unaliasable`. -/
def unaliasable (E : Entity) : List ValueName :=
  E.inputNames ++ E.statements.filterMap Statement.constantName

/-- `aliased_by`, as the list of its entries. -/
def aliasedBy (E : Entity) : List (ValueName × ValueName) := E.statements.filterMap aliasEntry

/-- The name is aliased away: it has exactly one alias and may be aliased. -/
def aliasedAway (E : Entity) (x : ValueName) : Bool :=
  (E.aliasedBy.map Prod.fst).count x == 1 && !E.unaliasable.contains x

/-- `aliases`, before its chains are resolved. -/
def aliases (E : Entity) : List (ValueName × ValueName) :=
  E.aliasedBy.filter fun p => E.aliasedAway p.1

/-- The statements that are not removed as inlined aliases. -/
def retains (E : Entity) : Statement → Bool
  | .binding b =>
      !(b.operator.isAlias && b.operands.head?.any E.aliasedAway) &&
        !(b.operator.isAlias && E.aliasedAway b.name)
  | _ => true

end Entity

/-- The renaming of a binding. -/
def Binding.renamed (σ : ValueName → ValueName) (b : Binding Statement) : Binding Statement :=
  { b with name := σ b.name, operands := b.operands.map σ }

/-- The renaming of a register, which leaves the clock, the reset and the traced state alone. -/
def Register.renamed (σ : ValueName → ValueName) (r : Register Statement) : Register Statement :=
  { r with name := σ r.name, value := σ r.value }

/-- The renaming of a statement. Asserts and sets are left alone. -/
def Statement.renamed (σ : ValueName → ValueName) : Statement → Statement
  | .binding b => .binding (b.renamed σ)
  | .register r => .register (r.renamed σ)
  | .constant id ty value => .constant id ty value
  | .assert value => .assert value
  | .set target value => .set target value
  | .walTrace name val suffix ty => .walTrace (σ name) (σ val) suffix ty

/-- Whether the first operand of a statement is there when it is an alias. -/
def Statement.hasAliasOperand : Statement → Bool
  | .binding b => !b.operator.isAlias || b.operands.head?.isSome
  | _ => true

/-- `flatten_aliases`: `none` where the source panics, on an alias without operand, and when the
fuel does not suffice to resolve the chains. -/
def Entity.flattenAliases (order : ℕ → List (ValueName × ValueName) → List (ValueName × ValueName))
    (fuel : ℕ) (E : Entity) : Option Entity :=
  if E.statements.all Statement.hasAliasOperand then do
    let aliases ← resolve order fuel E.aliases
    some
      { E with
        statements := (E.statements.filter E.retains).map (Statement.renamed (rename aliases))
        output := rename aliases E.output }
  else none

/-! ### Well-formed entities -/

namespace Entity

/-- The names an entity defines. -/
def names (E : Entity) : List ValueName := E.inputNames ++ definedNames E.statements

/-- The name `l` is bound to an alias of `r`. -/
def AliasOf (E : Entity) (l r : ValueName) : Prop :=
  ∃ b, .binding b ∈ E.statements ∧ b.operator.isAlias = true ∧ b.name = l ∧
    b.operands.head? = some r

/-- Every name is defined once, every name that is used is defined, every alias has an operand, and
following aliases comes to an end. -/
structure WellFormed (E : Entity) : Prop where
  nodup : E.names.Nodup
  closed : ∀ s ∈ E.statements, ∀ x ∈ s.used, x ∈ E.names
  output : E.output ∈ E.names
  operand : ∀ s ∈ E.statements, s.hasAliasOperand = true
  acyclic : ∃ rank : ValueName → ℕ, ∀ l r, E.AliasOf l r → rank r < rank l

/-- A name is followed by the one that replaces it: the name that aliases it or, for an expression
that aliases a variable, the variable. -/
def Step (E : Entity) (x y : ValueName) : Prop :=
  E.aliasedAway x = true ∧ (E.AliasOf y x ∨ (E.AliasOf x y ∧ y.isExpr = false))

/-- The entity with the given renaming in place of the resolved aliases. -/
def flattened (E : Entity) (σ : ValueName → ValueName) : Entity :=
  { E with
    statements := (E.statements.filter E.retains).map (Statement.renamed σ)
    output := σ E.output }

section Structure

variable {E : Entity}

/-! ### The table of aliases -/

theorem mem_aliasedBy {p : ValueName × ValueName} :
    p ∈ E.aliasedBy ↔ ∃ l r, E.AliasOf l r ∧ aliasPair l r = some p := by
  rw [aliasedBy, List.mem_filterMap]
  constructor
  · rintro ⟨s, hs, hp⟩
    cases s with
    | binding b =>
        rw [aliasEntry] at hp
        split_ifs at hp with halias
        obtain ⟨r, hr, hp⟩ := Option.bind_eq_some_iff.mp hp
        exact ⟨b.name, r, ⟨b, hs, halias, rfl, hr⟩, hp⟩
    | _ => exact absurd hp (Option.some_ne_none _).symm
  · rintro ⟨l, r, ⟨b, hb, halias, rfl, hr⟩, hp⟩
    exact ⟨.binding b, hb, by rw [aliasEntry, if_pos halias, hr]; exact hp⟩

theorem isExpr_of_aliasPair {l r : ValueName} {p : ValueName × ValueName}
    (h : aliasPair l r = some p) : p.1.isExpr = true := by
  rcases l with _ | _ <;> rcases r with _ | _ <;> simp only [aliasPair, Option.some.injEq,
    reduceCtorEq] at h <;> subst h <;> rfl

theorem aliasedAway_iff {x : ValueName} :
    E.aliasedAway x = true ↔ (E.aliasedBy.map Prod.fst).count x = 1 ∧ x ∉ E.unaliasable := by
  simp [aliasedAway]

theorem exists_entry_of_aliasedAway {x : ValueName} (h : E.aliasedAway x = true) :
    ∃ y, (x, y) ∈ E.aliasedBy := by
  have hcount := (aliasedAway_iff.mp h).1
  have hmem : x ∈ E.aliasedBy.map Prod.fst := List.count_pos_iff.mp (by omega)
  obtain ⟨⟨x, y⟩, hp, rfl⟩ := List.mem_map.mp hmem
  exact ⟨y, hp⟩

theorem isExpr_of_aliasedAway {x : ValueName} (h : E.aliasedAway x = true) : x.isExpr = true := by
  obtain ⟨y, hy⟩ := exists_entry_of_aliasedAway h
  obtain ⟨l, r, -, hpair⟩ := mem_aliasedBy.mp hy
  exact isExpr_of_aliasPair hpair

/-- The table of aliases is the step relation. -/
theorem mem_aliases_iff {x y : ValueName} : (x, y) ∈ E.aliases ↔ E.Step x y := by
  rw [aliases, List.mem_filter, mem_aliasedBy]
  constructor
  · rintro ⟨⟨l, r, halias, hpair⟩, haway⟩
    refine ⟨haway, ?_⟩
    rcases l with _ | _ <;> rcases r with _ | _ <;>
      simp only [aliasPair, Option.some.injEq, Prod.mk.injEq, reduceCtorEq] at hpair <;>
      obtain ⟨rfl, rfl⟩ := hpair
    · exact Or.inl halias
    · exact Or.inr ⟨halias, rfl⟩
    · exact Or.inl halias
  · rintro ⟨haway, halias⟩
    obtain ⟨id, rfl⟩ := ValueName.isExpr_iff.mp (isExpr_of_aliasedAway haway)
    refine ⟨?_, haway⟩
    rcases halias with halias | ⟨halias, hy⟩
    · exact ⟨y, .expr id, halias, by cases y <;> rfl⟩
    · cases y with
      | named _ _ => exact ⟨_, _, halias, rfl⟩
      | expr _ => exact absurd hy (by simp [ValueName.isExpr])

theorem aliases_nodup : (E.aliases.map Prod.fst).Nodup := by
  rw [List.nodup_iff_count_le_one]
  intro x
  by_cases hx : E.aliasedAway x = true
  · calc (E.aliases.map Prod.fst).count x ≤ (E.aliasedBy.map Prod.fst).count x :=
          (List.filter_sublist.map _).count_le x
      _ ≤ 1 := (aliasedAway_iff.mp hx).1.le
  · rw [List.count_eq_zero_of_not_mem]
    · exact Nat.zero_le _
    · intro hmem
      obtain ⟨⟨x, y⟩, hp, rfl⟩ := List.mem_map.mp hmem
      exact hx (mem_aliases_iff.mp hp).1

theorem mem_keys_iff {x : ValueName} :
    x ∈ E.aliases.map Prod.fst ↔ E.aliasedAway x = true := by
  constructor
  · intro hmem
    obtain ⟨⟨x, y⟩, hp, rfl⟩ := List.mem_map.mp hmem
    exact (mem_aliases_iff.mp hp).1
  · intro hx
    obtain ⟨y, hy⟩ := exists_entry_of_aliasedAway hx
    exact List.mem_map.mpr ⟨(x, y), List.mem_filter.mpr ⟨hy, hx⟩, rfl⟩

theorem Step.unique {x y z : ValueName} (hy : E.Step x y) (hz : E.Step x z) : y = z :=
  (rename_eq_of_mem aliases_nodup (mem_aliases_iff.mpr hy)).symm.trans
    (rename_eq_of_mem aliases_nodup (mem_aliases_iff.mpr hz))

theorem exists_step {x : ValueName} (h : E.aliasedAway x = true) : ∃ y, E.Step x y := by
  obtain ⟨y, hy⟩ := exists_entry_of_aliasedAway h
  exact ⟨y, mem_aliases_iff.mp (List.mem_filter.mpr ⟨hy, h⟩)⟩

/-! ### Definitions -/

/-- A name is defined by one statement. -/
theorem WellFormed.statement_unique (hE : E.WellFormed) {s s' : Statement} {x : ValueName}
    (hs : s ∈ E.statements) (hs' : s' ∈ E.statements) (hx : x ∈ s.defined)
    (hx' : x ∈ s'.defined) : s = s' := by
  have hnodup := (List.nodup_append.mp hE.nodup).2.1
  by_contra hne
  have hsymm : Std.Symm (Function.onFun List.Disjoint Statement.defined) :=
    ⟨fun _ _ h _ hx hx' => h hx' hx⟩
  exact (List.nodup_flatMap.mp hnodup).2.forall hs hs' hne hx hx'

theorem WellFormed.aliasOf_unique (hE : E.WellFormed) {l r r' : ValueName} (h : E.AliasOf l r)
    (h' : E.AliasOf l r') : r = r' := by
  obtain ⟨b, hb, -, rfl, hr⟩ := h
  obtain ⟨b', hb', -, hl, hr'⟩ := h'
  have heq := hE.statement_unique hb hb' (x := b.name) (by simp [Statement.defined])
    (by simp [Statement.defined, hl])
  injection heq with heq
  subst heq
  exact Option.some.inj (hr.symm.trans hr')

theorem WellFormed.not_input (hE : E.WellFormed) {s : Statement} {x : ValueName}
    (hs : s ∈ E.statements) (hx : x ∈ s.defined) : x ∉ E.inputNames := fun hin =>
  (List.nodup_append.mp hE.nodup).2.2 x hin x (mem_definedNames.mpr ⟨s, hs, hx⟩) rfl

/-- An alias of a name that is aliased away, or with a name that is aliased away, is removed. -/
theorem not_retains_of_aliasOf {s : Statement} (hE : E.WellFormed) (hs : s ∈ E.statements)
    {l r : ValueName} (hl : l ∈ s.defined) (h : E.AliasOf l r)
    (haway : E.aliasedAway l = true ∨ E.aliasedAway r = true) : E.retains s = false := by
  obtain ⟨b, hb, halias, rfl, hr⟩ := h
  obtain rfl := hE.statement_unique hs hb hl (by simp [Statement.defined])
  rcases haway with haway | haway <;> simp [retains, halias, hr, haway]

/-- A removed statement is an alias. -/
theorem aliasOf_of_not_retains (hE : E.WellFormed) {s : Statement} {x : ValueName}
    (hs : s ∈ E.statements) (hx : x ∈ s.defined) (h : E.retains s = false) :
    ∃ r, E.AliasOf x r ∧ r ∈ s.used ∧ (E.aliasedAway x = true ∨ E.aliasedAway r = true) := by
  cases s with
  | binding b =>
      obtain rfl : x = b.name := by simpa [Statement.defined] using hx
      have hop := hE.operand _ hs
      simp only [retains, Bool.and_eq_false_iff, Bool.not_eq_false', Bool.and_eq_true,
        Option.any_eq_true] at h
      have halias : b.operator.isAlias = true := by
        rcases h with h | h <;> exact h.1
      rw [Statement.hasAliasOperand, halias, Bool.not_true, Bool.false_or] at hop
      obtain ⟨r, hr⟩ := Option.isSome_iff_exists.mp hop
      refine ⟨r, ⟨b, hs, halias, rfl, hr⟩, List.mem_of_head? hr, ?_⟩
      rcases h with ⟨-, r', hr', haway⟩ | ⟨-, haway⟩
      · exact Or.inr (Option.some.inj (hr'.symm.trans hr) ▸ haway)
      · exact Or.inl haway
  | _ => exact absurd h (by simp [retains])

/-! ### The ends of the chains -/

/-- The chains of replacements come to an end. -/
theorem WellFormed.exists_depth (hE : E.WellFormed) :
    ∃ depth : ValueName → ℕ, ∀ x y, E.Step x y → depth y < depth x := by
  obtain ⟨rank, hrank⟩ := hE.acyclic
  obtain ⟨top, htop⟩ : ∃ top, ∀ x, E.aliasedAway x = true → rank x ≤ top := by
    refine ⟨(E.aliases.map fun p => rank p.1).sum, fun x hx => ?_⟩
    obtain ⟨p, hp, rfl⟩ := List.mem_map.mp (mem_keys_iff.mpr hx)
    exact List.single_le_sum (fun _ _ => Nat.zero_le _) _ (List.mem_map.mpr ⟨p, hp, rfl⟩)
  refine ⟨fun x => if x.isExpr then top + 1 - rank x else 0, fun x y h => ?_⟩
  have hx := htop x h.1
  have hexpr := isExpr_of_aliasedAway h.1
  simp only [hexpr, if_true]
  rcases h.2 with halias | ⟨-, hy⟩
  · have := hrank _ _ halias
    split_ifs <;> omega
  · simp only [hy, Bool.false_eq_true, if_false]
    omega

/-- **Chains are resolved.** With enough fuel, in every order, the pass renames the retained
statements by a map to the ends of the chains. -/
theorem flattenAliases_resolved (hE : E.WellFormed)
    {order : ℕ → List (ValueName × ValueName) → List (ValueName × ValueName)}
    (horder : ∀ i l, (order i l).Perm l) :
    ∃ bound, ∀ fuel > bound, ∃ σ, E.flattenAliases order fuel = some (E.flattened σ) ∧
      Resolved E.aliases σ := by
  obtain ⟨depth, hdepth⟩ := hE.exists_depth
  have hdecreasing : ∀ p ∈ E.aliases, depth p.2 < depth p.1 :=
    fun p hp => hdepth p.1 p.2 (mem_aliases_iff.mp hp)
  obtain ⟨bound, hbound⟩ := resolve_resolved horder aliases_nodup hdecreasing
  refine ⟨bound, fun fuel hfuel => ?_⟩
  obtain ⟨R, hR, hres⟩ := hbound fuel hfuel
  refine ⟨rename R, ?_, hres⟩
  rw [flattenAliases, if_pos (List.all_eq_true.mpr hE.operand), hR]
  rfl

section Resolved

variable {σ : ValueName → ValueName}

theorem resolved_eq_self (hσ : Resolved E.aliases σ) {x : ValueName}
    (hx : ¬ E.aliasedAway x = true) : σ x = x :=
  hσ.eq_self x (mt mem_keys_iff.mp hx)

theorem resolved_step (hσ : Resolved E.aliases σ) {x y : ValueName} (h : E.Step x y) :
    σ x = σ y :=
  hσ.step (x, y) (mem_aliases_iff.mpr h)

theorem resolved_not_aliasedAway (hσ : Resolved E.aliases σ) (x : ValueName) :
    ¬ E.aliasedAway (σ x) = true :=
  mt mem_keys_iff.mpr (hσ.not_key x)

/-- An induction along the steps from a name to the end of its chain. -/
theorem chain_induction (hE : E.WellFormed) {P : ValueName → Prop}
    (last : ∀ x, ¬ E.aliasedAway x = true → P x) (step : ∀ x y, E.Step x y → P y → P x)
    (x : ValueName) : P x := by
  obtain ⟨depth, hdepth⟩ := hE.exists_depth
  induction hn : depth x using Nat.strong_induction_on generalizing x with
  | _ n ih =>
      by_cases hx : E.aliasedAway x = true
      · obtain ⟨y, hy⟩ := exists_step hx
        exact step x y hy (ih (depth y) (hn ▸ hdepth x y hy) y rfl)
      · exact last x hx

theorem resolved_leads (hE : E.WellFormed) (hσ : Resolved E.aliases σ) (x : ValueName) :
    ReflTransGen E.Step x (σ x) := by
  induction x using chain_induction hE with
  | last x hx => rw [resolved_eq_self hσ hx]
  | step x y h ih => exact .head h (resolved_step hσ h ▸ ih)

/-- Names lead to a common one exactly when their chains have one end. -/
theorem resolved_eq_iff (hE : E.WellFormed) (hσ : Resolved E.aliases σ) {x x' : ValueName} :
    σ x = σ x' ↔ ∃ y, ReflTransGen E.Step x y ∧ ReflTransGen E.Step x' y := by
  have hkeep : ∀ {x y}, ReflTransGen E.Step x y → σ x = σ y := by
    intro x y h
    induction h with
    | refl => rfl
    | tail _ h ih => exact ih.trans (resolved_step hσ h)
  constructor
  · exact fun h => ⟨σ x, resolved_leads hE hσ x, h ▸ resolved_leads hE hσ x'⟩
  · rintro ⟨y, hy, hy'⟩
    exact (hkeep hy).trans (hkeep hy').symm

/-! ### What is defined after the pass -/

/-- The definition of `e`, an alias of an expression, is removed although the expression is not
replaced. -/
def Cut (E : Entity) (e : ValueName) : Prop :=
  E.aliasedAway e = true ∧ ∃ r, E.AliasOf e r ∧ r.isExpr = true ∧ ¬ E.aliasedAway r = true

/-- `e` is replaced by the variable it aliases. -/
def Leaf (E : Entity) (e : ValueName) : Prop :=
  E.aliasedAway e = true ∧ ∃ n, E.AliasOf e n ∧ n.isExpr = false

/-- The steps from an operand to the name of its alias. -/
def Forward (E : Entity) (x y : ValueName) : Prop := E.Step x y ∧ E.AliasOf y x

theorem renamed_defined (hσ : Resolved E.aliases σ) {s : Statement} (hs : s ∈ E.statements) :
    (s.renamed σ).defined = s.defined.map σ := by
  cases s with
  | constant id ty value =>
      have hself : σ (.expr id) = .expr id := resolved_eq_self hσ fun haway =>
        (aliasedAway_iff.mp haway).2 <| List.mem_append_right _ <|
          List.mem_filterMap.mpr ⟨_, hs, rfl⟩
      simp [Statement.renamed, Statement.defined, hself]
  | _ => rfl

theorem mem_flattened_names (hσ : Resolved E.aliases σ) {y : ValueName} :
    y ∈ (E.flattened σ).names ↔ y ∈ E.inputNames ∨
      ∃ s ∈ E.statements, E.retains s = true ∧ ∃ x ∈ s.defined, σ x = y := by
  simp only [names, flattened, inputNames, List.mem_append, mem_definedNames, List.mem_map,
    List.mem_filter]
  refine or_congr_right ⟨?_, ?_⟩
  · rintro ⟨_, ⟨s, ⟨hs, hr⟩, rfl⟩, hy⟩
    rw [renamed_defined hσ hs] at hy
    exact ⟨s, hs, hr, List.mem_map.mp hy⟩
  · rintro ⟨s, hs, hr, hx⟩
    exact ⟨_, ⟨s, ⟨hs, hr⟩, rfl⟩, by rw [renamed_defined hσ hs]; exact List.mem_map.mpr hx⟩

theorem not_aliasedAway_of_input {x : ValueName} (hx : x ∈ E.inputNames) :
    ¬ E.aliasedAway x = true := fun haway =>
  (aliasedAway_iff.mp haway).2 (List.mem_append_left _ hx)

theorem WellFormed.step_mem_names (hE : E.WellFormed) {x y : ValueName} (h : E.Step x y) :
    y ∈ E.names := by
  rcases h.2 with ⟨b, hb, -, hname, -⟩ | ⟨⟨b, hb, -, -, hop⟩, -⟩
  · exact List.mem_append_right _
      (mem_definedNames.mpr ⟨_, hb, by simp [Statement.defined, hname]⟩)
  · exact hE.closed _ hb y (List.mem_of_head? hop)

theorem WellFormed.resolved_mem_names (hE : E.WellFormed) (hσ : Resolved E.aliases σ)
    {x : ValueName} (hx : x ∈ E.names) : σ x ∈ E.names := by
  have hleads := resolved_leads hE hσ x
  rcases ReflTransGen.cases_tail hleads with heq | ⟨y, -, hy⟩
  · exact heq.symm ▸ hx
  · exact hE.step_mem_names hy

/-- Going back from a name to the operand its removed definition aliases, a chain without a cut
arrives at a definition that is retained. -/
theorem defines_of_uncut (hE : E.WellFormed) (hσ : Resolved E.aliases σ) {x : ValueName}
    (hx : x ∈ E.names) (hleaf : ¬ E.Leaf x) (huncut : ∀ e, E.Cut e → σ e ≠ σ x) :
    σ x ∈ (E.flattened σ).names := by
  obtain ⟨rank, hrank⟩ := hE.acyclic
  rw [mem_flattened_names hσ]
  induction hn : rank x using Nat.strong_induction_on generalizing x with
  | _ n ih =>
      rcases List.mem_append.mp hx with hin | hdef
      · exact Or.inl (by rwa [resolved_eq_self hσ (not_aliasedAway_of_input hin)])
      · obtain ⟨s, hs, hxs⟩ := mem_definedNames.mp hdef
        rcases hretains : E.retains s with _ | _
        · obtain ⟨r, halias, hused, haway⟩ := aliasOf_of_not_retains hE hs hxs hretains
          by_cases hr : E.aliasedAway r = true
          · have hstep : E.Step r x := ⟨hr, Or.inl halias⟩
            have hrx := resolved_step hσ hstep
            rw [← hrx]
            refine ih (rank r) (hn ▸ hrank _ _ halias) (hE.closed s hs r hused) ?_
              (hrx ▸ huncut) rfl
            rintro ⟨-, n, hn', hnamed⟩
            obtain rfl := Step.unique hstep ⟨hr, Or.inr ⟨hn', hnamed⟩⟩
            exact absurd (hrank _ _ hn') (by have := hrank _ _ halias; omega)
          · have hx' := haway.resolve_right hr
            rcases hexpr : r.isExpr with _ | _
            · exact absurd ⟨hx', r, halias, hexpr⟩ hleaf
            · exact absurd rfl (huncut x ⟨hx', r, halias, hexpr, hr⟩)
        · exact Or.inr ⟨s, hs, hretains, x, hxs, rfl⟩

/-- A name that is not replaced by a variable reaches the end of its chain by forward steps. -/
theorem forward_leads (hE : E.WellFormed) (hσ : Resolved E.aliases σ) (x : ValueName)
    (hleaf : ¬ E.Leaf x) : ReflTransGen E.Forward x (σ x) := by
  induction x using chain_induction hE with
  | last x hx => rw [resolved_eq_self hσ hx]
  | step x y h ih =>
      rcases h.2 with halias | ⟨halias, hnamed⟩
      · refine .head ⟨h, halias⟩ (resolved_step hσ h ▸ ih ?_)
        rintro ⟨-, n, hn, hnamed⟩
        obtain rfl := hE.aliasOf_unique halias hn
        rw [isExpr_of_aliasedAway h.1] at hnamed
        exact Bool.noConfusion hnamed
      · exact absurd ⟨h.1, y, halias, hnamed⟩ hleaf

/-- A chain with a cut has no definition left. -/
theorem not_defines_of_cut (hE : E.WellFormed) (hσ : Resolved E.aliases σ) {e : ValueName}
    (hcut : E.Cut e) : σ e ∉ (E.flattened σ).names := by
  obtain ⟨haway, r, halias, hexpr, hr⟩ := hcut
  have hforward := forward_leads hE hσ e (by
    rintro ⟨-, n, hn, hnamed⟩
    obtain rfl := hE.aliasOf_unique halias hn
    rw [hexpr] at hnamed
    exact Bool.noConfusion hnamed)
  rw [mem_flattened_names hσ]
  rintro (hin | ⟨s, hs, hretains, z, hz, hze⟩)
  · rcases ReflTransGen.cases_tail hforward with heq | ⟨w, -, -, b, hb, -, hname, -⟩
    · exact resolved_not_aliasedAway hσ e (heq.symm ▸ haway)
    · exact hE.not_input hb (by simp [Statement.defined, hname]) hin
  · have hremoved : ∀ {l r}, l ∈ s.defined → E.AliasOf l r →
        E.aliasedAway l = true ∨ E.aliasedAway r = true → False := by
      intro l r hl h haway
      rw [not_retains_of_aliasOf hE hs hl h haway] at hretains
      exact Bool.noConfusion hretains
    have hforward' := forward_leads hE hσ z (by
      rintro ⟨hz', n, hn, -⟩
      exact hremoved hz hn (Or.inl hz'))
    rw [hze] at hforward'
    -- both definitions stand on the one way back from the end of the chain
    have hunique : Relator.RightUnique (Function.swap E.Forward) :=
      fun _ _ _ h h' => hE.aliasOf_unique h.2 h'.2
    rcases ReflTransGen.total_of_right_unique hunique (reflTransGen_swap.mpr hforward)
      (reflTransGen_swap.mpr hforward') with h | h
    · rcases ReflTransGen.cases_tail (reflTransGen_swap.mp h) with rfl | ⟨w, -, hw, hw'⟩
      · exact hremoved hz halias (Or.inl haway)
      · obtain rfl := hE.aliasOf_unique halias hw'
        exact hr hw.1
    · rcases ReflTransGen.cases_tail (reflTransGen_swap.mp h) with rfl | ⟨w, -, hw, hw'⟩
      · exact hremoved hz halias (Or.inl haway)
      · exact hremoved hz hw' (Or.inr hw.1)

/-- **What a removed definition leaves behind.** The end of the chain of a name is defined after
the pass exactly when no definition in the chain is cut. -/
theorem defines_iff_uncut (hE : E.WellFormed) (hσ : Resolved E.aliases σ) {x : ValueName}
    (hx : x ∈ E.names) : σ x ∈ (E.flattened σ).names ↔ ∀ e, E.Cut e → σ e ≠ σ x := by
  constructor
  · exact fun h e hcut heq => not_defines_of_cut hE hσ hcut (heq ▸ h)
  · intro h
    have hself := resolved_eq_self hσ (resolved_not_aliasedAway hσ x)
    have hdef := defines_of_uncut hE hσ (hE.resolved_mem_names hσ hx)
      (fun hleaf => resolved_not_aliasedAway hσ x hleaf.1) (hself.symm ▸ h)
    rwa [hself] at hdef

end Resolved

end Structure

end Entity

end Spade.Mir

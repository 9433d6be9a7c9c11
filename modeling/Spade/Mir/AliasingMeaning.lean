import Spade.Mir.Aliasing
import Spade.Mir.Semantics

/-!
# Flattening of aliases and the meaning of an entity

An entity with given inputs, register states and inner states computes an `Observation`: its
output, what its registers load with which clock and reset, what it asserts and what it sets. The
pass of `Spade.Mir.Aliasing` preserves an entity when every name used afterwards is defined and
the same observations are possible as before.

* **Every observation survives** (`Entity.Models.flattened`), but a name that lost its definition
  can take any value.
* **The pass preserves an entity exactly when** (`flattenAliases_preserves_iff`) no clock, reset,
  traced state, assertion or set names a value that is aliased away, and no retained use of a name
  has a cut in its chain.
-/

namespace Spade.Mir

open Chains Relation

variable {H : Type}

/-! ### Observations -/

namespace Entity

/-- The registers of an entity. -/
def registers (E : Entity) : List (Register Statement) :=
  E.statements.filterMap fun
    | .register r => some r
    | _ => none

/-- The bindings that compute something: all but the aliases. -/
def operations (E : Entity) : List (Binding Statement) :=
  E.statements.filterMap fun
    | .binding b => if b.operator.isAlias then none else some b
    | _ => none

/-- The asserted values. -/
def asserts (E : Entity) : List ValueName :=
  E.statements.filterMap fun
    | .assert value => some value
    | _ => none

/-- The targets that are set, and the values they are set to. -/
def sets (E : Entity) : List (ValueName × ValueName) :=
  E.statements.filterMap fun
    | .set target value => some (target, value)
    | _ => none

end Entity

/-- What an entity is given in a cycle: the values of its inputs, of its registers, and the inner
states of its operations, in the order of the statements. -/
structure Environment (H : Type) where
  input : ValueName → BitString
  registers : List BitString
  inner : List H

/-- What an entity computes in a cycle. -/
structure Observation where
  output : BitString
  /-- The next value, the clock, and the trigger and value of the reset of each register. -/
  registers : List (BitString × BitString × Option (BitString × BitString))
  asserts : List BitString
  sets : List (BitString × BitString)

/-- The observation of an entity whose names have the values `ρ`. -/
def Entity.observe (E : Entity) (ρ : ValueName → BitString) : Observation where
  output := ρ E.output
  registers := E.registers.map fun r =>
    (ρ r.value, ρ r.clock, r.reset.map fun p => (ρ p.1, ρ p.2))
  asserts := E.asserts.map ρ
  sets := E.sets.map fun p => (ρ p.1, ρ p.2)

/-- The values `ρ` are what the entity computes in an environment. -/
structure Entity.Models (I : Interp H) (env : Environment H) (E : Entity)
    (ρ : ValueName → BitString) : Prop where
  input : ∀ x ∈ E.inputNames, ρ x = env.input x
  register : E.registers.map (fun r => ρ r.name) = env.registers
  operation : List.Forall₂
    (fun b h => ρ b.name = I.denote h b.operator b.ty (b.operands.map ρ)) E.operations env.inner
  aliased : ∀ b, .binding b ∈ E.statements → b.operator.isAlias = true →
    ρ b.name = (b.operands.map ρ).headD []
  constant : ∀ id ty value, .constant id ty value ∈ E.statements →
    ρ (.expr id) = constantBits I.highImp ty value

/-- The name is used by a statement or is the output. -/
def Entity.Uses (E : Entity) (x : ValueName) : Prop :=
  x = E.output ∨ ∃ s ∈ E.statements, x ∈ s.used

/-- `E'` defines every name it uses, and has the same observations as `E` in every environment. -/
structure Preserves (E E' : Entity) : Prop where
  closed : ∀ x, E'.Uses x → x ∈ E'.names
  observations : ∀ (H : Type) (I : Interp H) (env : Environment H) (o : Observation),
    (∃ ρ, E.Models I env ρ ∧ E.observe ρ = o) ↔ ∃ ρ, E'.Models I env ρ ∧ E'.observe ρ = o

/-! ### The condition -/

/-- The names of a statement that the pass does not rename. -/
def Statement.notRenamed : Statement → List ValueName
  | .register r => r.clock :: ((r.reset.toList.flatMap fun p => [p.1, p.2]) ++ r.traced.toList)
  | .assert value => [value]
  | .set target value => [target, value]
  | .binding _ | .constant .. | .walTrace .. => []

/-- The condition under which the pass preserves an entity. -/
structure Entity.AliasSafe (E : Entity) : Prop where
  /-- No clock, reset, traced state, assertion or set uses a name that is aliased away. -/
  renamed : ∀ s ∈ E.statements, ∀ x ∈ s.notRenamed, ¬ E.aliasedAway x = true
  /-- The chain of a name that is used by a retained statement or is the output has no cut. -/
  uncut : ∀ x, (x = E.output ∨ ∃ s ∈ E.statements, E.retains s = true ∧ x ∈ s.used) →
    ∀ e, E.Cut e → ¬ ∃ y, ReflTransGen E.Step e y ∧ ReflTransGen E.Step x y

section Flattened

variable {E : Entity} {σ : ValueName → ValueName}

/-! ### Definedness -/

theorem Entity.mem_flattened {s : Statement} (hs : s ∈ E.statements) (hr : E.retains s = true) :
    s.renamed σ ∈ (E.flattened σ).statements :=
  List.mem_map_of_mem (List.mem_filter.mpr ⟨hs, hr⟩)

theorem Statement.used_renamed {s : Statement} {y : ValueName} :
    y ∈ (s.renamed σ).used → (∃ x ∈ s.used, y = σ x) ∨ (y ∈ s.notRenamed ∧ y ∈ s.used) := by
  intro hy
  cases s with
  | binding b =>
      obtain ⟨x, hx, rfl⟩ := List.mem_map.mp hy
      exact Or.inl ⟨x, hx, rfl⟩
  | register r =>
      simp only [renamed, Register.renamed, used, Register.used, notRenamed, List.mem_cons] at hy ⊢
      rcases hy with rfl | rfl | hy
      · exact Or.inr ⟨Or.inl rfl, Or.inl rfl⟩
      · exact Or.inl ⟨_, Or.inr (Or.inl rfl), rfl⟩
      · exact Or.inr ⟨Or.inr hy, Or.inr (Or.inr hy)⟩
  | constant => exact absurd hy List.not_mem_nil
  | assert value => exact Or.inr ⟨hy, hy⟩
  | set target value => exact Or.inr ⟨hy, hy⟩
  | walTrace name val suffix ty =>
      simp only [renamed, used, List.mem_cons, List.not_mem_nil, or_false] at hy ⊢
      rcases hy with rfl | rfl
      · exact Or.inl ⟨_, Or.inl rfl, rfl⟩
      · exact Or.inl ⟨_, Or.inr rfl, rfl⟩

theorem Statement.renamed_used {s : Statement} {x : ValueName} (hx : x ∈ s.used) :
    σ x ∈ (s.renamed σ).used ∨ (x ∈ s.notRenamed ∧ x ∈ (s.renamed σ).used) := by
  cases s with
  | binding b => exact Or.inl (List.mem_map_of_mem hx)
  | register r =>
      simp only [renamed, Register.renamed, used, Register.used, notRenamed, List.mem_cons] at hx ⊢
      rcases hx with rfl | rfl | hx
      · exact Or.inr ⟨Or.inl rfl, Or.inl rfl⟩
      · exact Or.inl (Or.inr (Or.inl rfl))
      · exact Or.inr ⟨Or.inr hx, Or.inr (Or.inr hx)⟩
  | constant => exact absurd hx List.not_mem_nil
  | assert value => exact Or.inr ⟨hx, hx⟩
  | set target value => exact Or.inr ⟨hx, hx⟩
  | walTrace name val suffix ty =>
      simp only [renamed, used, List.mem_cons, List.not_mem_nil, or_false] at hx ⊢
      rcases hx with rfl | rfl
      · exact Or.inl (Or.inl rfl)
      · exact Or.inl (Or.inr rfl)

theorem Statement.notRenamed_used {s : Statement} {x : ValueName} (hx : x ∈ s.notRenamed) :
    x ∈ (s.renamed σ).used ∧ x ∈ s.used := by
  cases s with
  | register r =>
      simp only [renamed, Register.renamed, used, Register.used, notRenamed, List.mem_cons] at hx ⊢
      rcases hx with rfl | hx
      · exact ⟨Or.inl rfl, Or.inl rfl⟩
      · exact ⟨Or.inr (Or.inr hx), Or.inr (Or.inr hx)⟩
  | assert value => exact ⟨hx, hx⟩
  | set target value => exact ⟨hx, hx⟩
  | binding | constant | walTrace => exact absurd hx List.not_mem_nil

theorem Entity.retains_of_notRenamed {s : Statement} {x : ValueName} (hx : x ∈ s.notRenamed) :
    E.retains s = true := by
  cases s with
  | binding b => exact absurd hx List.not_mem_nil
  | _ => rfl

/-- A name that is defined after the pass is not aliased away. -/
theorem Entity.not_aliasedAway_of_flattened (hσ : Resolved E.aliases σ) {x : ValueName}
    (hx : x ∈ (E.flattened σ).names) : ¬ E.aliasedAway x = true := by
  rcases (mem_flattened_names hσ).mp hx with hin | ⟨-, -, -, z, -, rfl⟩
  · exact not_aliasedAway_of_input hin
  · exact resolved_not_aliasedAway hσ z

theorem Entity.uncut_iff (hE : E.WellFormed) (hσ : Resolved E.aliases σ) {x : ValueName} :
    (∀ e, E.Cut e → σ e ≠ σ x) ↔
      ∀ e, E.Cut e → ¬ ∃ y, ReflTransGen E.Step e y ∧ ReflTransGen E.Step x y :=
  forall₂_congr fun _ _ => not_congr (resolved_eq_iff hE hσ)

/-- After the pass every used name is defined exactly under the condition. -/
theorem Entity.flattened_closed_iff (hE : E.WellFormed) (hσ : Resolved E.aliases σ) :
    (∀ x, (E.flattened σ).Uses x → x ∈ (E.flattened σ).names) ↔ E.AliasSafe := by
  constructor
  · intro hclosed
    have hrenamed : ∀ s ∈ E.statements, ∀ x ∈ s.notRenamed, ¬ E.aliasedAway x = true := by
      intro s hs x hx
      exact not_aliasedAway_of_flattened hσ (hclosed x (Or.inr
        ⟨_, mem_flattened hs (retains_of_notRenamed hx), (Statement.notRenamed_used hx).1⟩))
    refine ⟨hrenamed, fun x hx => (uncut_iff hE hσ).mp ?_⟩
    rcases hx with rfl | ⟨s, hs, hr, hx⟩
    · exact (defines_iff_uncut hE hσ hE.output).mp (hclosed _ (Or.inl rfl))
    · have hnames := hE.closed s hs x hx
      rcases Statement.renamed_used (σ := σ) hx with hused | ⟨hnot, hused⟩
      · exact (defines_iff_uncut hE hσ hnames).mp (hclosed _ (Or.inr ⟨_, mem_flattened hs hr, hused⟩))
      · have hself := resolved_eq_self hσ (hrenamed s hs x hnot)
        have hdef := hclosed _ (Or.inr ⟨_, mem_flattened hs hr, hused⟩)
        rw [← hself] at hdef
        exact (defines_iff_uncut hE hσ hnames).mp hdef
  · rintro hsafe y (rfl | ⟨s', hs', hy⟩)
    · exact (defines_iff_uncut hE hσ hE.output).mpr
        ((uncut_iff hE hσ).mpr (hsafe.uncut _ (Or.inl rfl)))
    · obtain ⟨s, hs, rfl⟩ := List.mem_map.mp hs'
      obtain ⟨hs, hr⟩ := List.mem_filter.mp hs
      have hdefined : ∀ x ∈ s.used, σ x ∈ (E.flattened σ).names := fun x hx =>
        (defines_iff_uncut hE hσ (hE.closed s hs x hx)).mpr
          ((uncut_iff hE hσ).mpr (hsafe.uncut _ (Or.inr ⟨s, hs, hr, hx⟩)))
      rcases Statement.used_renamed hy with ⟨x, hx, rfl⟩ | ⟨hnot, hused⟩
      · exact hdefined x hx
      · rw [← resolved_eq_self hσ (hsafe.renamed s hs y hnot)]
        exact hdefined y hused

/-! ### Values before and after -/

theorem Entity.filterMap_flattened {β : Type} {f : Statement → Option β} {g : β → β}
    (hf : ∀ s, f (s.renamed σ) = (f s).map g)
    (halias : ∀ b, b.operator.isAlias = true → f (.binding b) = none) :
    (E.flattened σ).statements.filterMap f = (E.statements.filterMap f).map g := by
  rw [flattened]
  induction E.statements with
  | nil => rfl
  | cons s stmts ih =>
      rcases hr : E.retains s with _ | _
      · have hnone : f s = none := by
          cases s with
          | binding b =>
              refine halias b ?_
              by_contra hb
              simp [retains, hb] at hr
          | _ => simp [retains] at hr
        rw [List.filter_cons_of_neg (by simp [hr]), List.filterMap_cons_none hnone, ih]
      · rw [List.filter_cons_of_pos hr, List.map_cons, List.filterMap_cons, hf,
          List.filterMap_cons, ih]
        cases f s <;> rfl

theorem Entity.registers_flattened :
    (E.flattened σ).registers = E.registers.map (Register.renamed σ) :=
  filterMap_flattened (fun s => by cases s <;> rfl) fun _ _ => rfl

theorem Entity.operations_flattened :
    (E.flattened σ).operations = E.operations.map (Binding.renamed σ) := by
  refine filterMap_flattened (fun s => ?_) fun b hb => if_pos hb
  cases s with
  | binding b =>
      simp only [Statement.renamed, Binding.renamed]
      split_ifs <;> rfl
  | _ => rfl

theorem Entity.asserts_flattened : (E.flattened σ).asserts = E.asserts :=
  (filterMap_flattened (g := id) (fun s => by cases s <;> rfl) fun _ _ => rfl).trans
    (List.map_id _)

theorem Entity.sets_flattened : (E.flattened σ).sets = E.sets :=
  (filterMap_flattened (g := id) (fun s => by cases s <;> rfl) fun _ _ => rfl).trans
    (List.map_id _)

theorem Entity.mem_registers {r : Register Statement} :
    r ∈ E.registers ↔ .register r ∈ E.statements := by
  rw [registers, List.mem_filterMap]
  constructor
  · rintro ⟨s, hs, h⟩
    cases s <;> simp_all
  · exact fun h => ⟨_, h, rfl⟩

theorem Entity.mem_operations {b : Binding Statement} :
    b ∈ E.operations ↔ .binding b ∈ E.statements ∧ b.operator.isAlias = false := by
  rw [operations, List.mem_filterMap]
  constructor
  · rintro ⟨s, hs, h⟩
    cases s with
    | binding b' =>
        rcases hb : b'.operator.isAlias with _ | _ <;> simp_all
    | _ => simp at h
  · exact fun h => ⟨_, h.1, by simp [h.2]⟩

theorem Entity.mem_asserts {x : ValueName} : x ∈ E.asserts ↔ .assert x ∈ E.statements := by
  rw [asserts, List.mem_filterMap]
  constructor
  · rintro ⟨s, hs, h⟩
    cases s <;> simp_all
  · exact fun h => ⟨_, h, rfl⟩

theorem Entity.mem_sets {p : ValueName × ValueName} :
    p ∈ E.sets ↔ .set p.1 p.2 ∈ E.statements := by
  rw [sets, List.mem_filterMap]
  constructor
  · rintro ⟨s, hs, h⟩
    cases s <;> simp_all
    subst h
    exact hs
  · exact fun h => ⟨_, h, rfl⟩

theorem headD_map_of_head? {α : Type} {l : List α} {a : α} {f : α → BitString}
    (h : l.head? = some a) : (l.map f).headD [] = f a := by
  cases l with
  | nil => exact absurd h (Option.some_ne_none _).symm
  | cons b l => simpa using congrArg f (Option.some.inj h)

theorem forall₂_congr_left {α β : Type} {R S : α → β → Prop} {l : List α} {u : List β}
    (h : ∀ a ∈ l, ∀ b, R a b ↔ S a b) : List.Forall₂ R l u ↔ List.Forall₂ S l u := by
  induction l generalizing u with
  | nil => simp
  | cons a l ih =>
      rw [List.forall_mem_cons] at h
      simp only [List.forall₂_cons_left_iff, h.1, ih h.2]

/-- The name is an input, the output, or stands in a retained statement. -/
def Entity.Kept (E : Entity) (x : ValueName) : Prop :=
  x ∈ E.inputNames ∨ x = E.output ∨
    ∃ s ∈ E.statements, E.retains s = true ∧ x ∈ s.defined ++ s.used

/-- The values `ρ` before and `ρ'` after the pass agree on the names that are kept. -/
structure Entity.Agrees (E : Entity) (σ : ValueName → ValueName)
    (ρ ρ' : ValueName → BitString) : Prop where
  kept : ∀ x, E.Kept x → ρ' (σ x) = ρ x
  notRenamed : ∀ s ∈ E.statements, ∀ x ∈ s.notRenamed, ρ' x = ρ x

namespace Entity.Agrees

variable {ρ ρ' : ValueName → BitString}

theorem observe_eq (h : E.Agrees σ ρ ρ') : (E.flattened σ).observe ρ' = E.observe ρ := by
  simp only [observe, registers_flattened, asserts_flattened, sets_flattened, List.map_map]
  congr 1
  · exact h.kept _ (Or.inr (Or.inl rfl))
  · refine List.map_congr_left fun r hr => ?_
    have hr := mem_registers.mp hr
    have hvalue : ρ' (σ r.value) = ρ r.value := h.kept _ (Or.inr (Or.inr ⟨_, hr, rfl,
      List.mem_append_right _ (by simp [Statement.used, Register.used])⟩))
    have hclock : ρ' r.clock = ρ r.clock :=
      h.notRenamed _ hr _ (by simp [Statement.notRenamed])
    have hreset : ∀ p, r.reset = some p → ρ' p.1 = ρ p.1 ∧ ρ' p.2 = ρ p.2 := fun p hp =>
      ⟨h.notRenamed _ hr _ (by simp [Statement.notRenamed, hp]),
        h.notRenamed _ hr _ (by simp [Statement.notRenamed, hp])⟩
    rcases hp : r.reset with _ | p
    · simp [Register.renamed, hvalue, hclock, hp]
    · simp [Register.renamed, hvalue, hclock, hp, hreset p hp]
  · exact List.map_congr_left fun x hx =>
      h.notRenamed _ (mem_asserts.mp hx) x (by simp [Statement.notRenamed])
  · refine List.map_congr_left fun p hp => ?_
    have hset := mem_sets.mp hp
    rw [h.notRenamed _ hset p.1 (by simp [Statement.notRenamed]),
      h.notRenamed _ hset p.2 (by simp [Statement.notRenamed])]

theorem binding (h : E.Agrees σ ρ ρ') {b : Binding Statement} (hb : .binding b ∈ E.statements)
    (hr : E.retains (.binding b) = true) :
    ρ' (σ b.name) = ρ b.name ∧ (b.operands.map σ).map ρ' = b.operands.map ρ := by
  refine ⟨h.kept _ (Or.inr (Or.inr ⟨_, hb, hr, by simp [Statement.defined]⟩)), ?_⟩
  rw [List.map_map]
  exact List.map_congr_left fun x hx =>
    h.kept x (Or.inr (Or.inr ⟨_, hb, hr, List.mem_append_right _ hx⟩))

/-- When the removed aliases hold, the values before the pass are a model exactly when the values
after it are. -/
theorem models_iff (h : E.Agrees σ ρ ρ') (hσ : Resolved E.aliases σ)
    (hremoved : ∀ b, .binding b ∈ E.statements → E.retains (.binding b) = false →
      ρ b.name = (b.operands.map ρ).headD []) (I : Interp H) (env : Environment H) :
    (E.flattened σ).Models I env ρ' ↔ E.Models I env ρ := by
  have hinput : ∀ x ∈ E.inputNames, ρ' x = ρ x := fun x hx => by
    rw [← h.kept x (Or.inl hx), resolved_eq_self hσ (not_aliasedAway_of_input hx)]
  have hconstant : ∀ id ty value, .constant id ty value ∈ E.statements →
      ρ' (.expr id) = ρ (.expr id) := fun id ty value hc => by
    have hself := renamed_defined hσ hc
    simp only [Statement.renamed, Statement.defined, List.map_cons, List.map_nil,
      List.cons.injEq, and_true] at hself
    exact (congrArg ρ' hself).trans
      (h.kept _ (Or.inr (Or.inr ⟨_, hc, rfl, by simp [Statement.defined]⟩)))
  have hregister : (E.flattened σ).registers.map (fun r => ρ' r.name) =
      E.registers.map fun r => ρ r.name := by
    rw [registers_flattened, List.map_map]
    exact List.map_congr_left fun r hr =>
      h.kept _ (Or.inr (Or.inr ⟨_, mem_registers.mp hr, rfl, by simp [Statement.defined]⟩))
  have hoperation : List.Forall₂
      (fun b h => ρ' b.name = I.denote h b.operator b.ty (b.operands.map ρ'))
      (E.flattened σ).operations env.inner ↔ List.Forall₂
      (fun b h => ρ b.name = I.denote h b.operator b.ty (b.operands.map ρ))
      E.operations env.inner := by
    rw [operations_flattened, List.forall₂_map_left_iff]
    refine forall₂_congr_left fun b hb i => ?_
    obtain ⟨hb, hop⟩ := mem_operations.mp hb
    obtain ⟨hname, hoperands⟩ := h.binding hb (by simp [retains, hop])
    simp only [Binding.renamed, hname, hoperands]
  constructor
  · intro hM
    refine ⟨fun x hx => (hinput x hx).symm.trans (hM.input x hx), hregister ▸ hM.register,
      hoperation.mp hM.operation, fun b hb halias => ?_, fun id ty value hc => ?_⟩
    · rcases hr : E.retains (.binding b) with _ | _
      · exact hremoved b hb hr
      · obtain ⟨hname, hoperands⟩ := h.binding hb hr
        rw [← hname, ← hoperands]
        exact hM.aliased (b.renamed σ) (mem_flattened hb hr) halias
    · rw [← hconstant id ty value hc]
      exact hM.constant id ty value (mem_flattened hc rfl)
  · intro hM
    refine ⟨fun x hx => (hinput x hx).trans (hM.input x hx), hregister.symm ▸ hM.register,
      hoperation.mpr hM.operation, fun b' hb' halias => ?_, fun id ty value hc => ?_⟩
    · obtain ⟨s, hs, heq⟩ := List.mem_map.mp hb'
      obtain ⟨hs, hr⟩ := List.mem_filter.mp hs
      cases s with
      | binding b =>
          injection heq with heq
          subst heq
          obtain ⟨hname, hoperands⟩ := h.binding hs hr
          exact hname.trans ((hM.aliased b hs halias).trans (by rw [← hoperands]; rfl))
      | _ => exact absurd heq (by simp [Statement.renamed])
    · obtain ⟨s, hs, heq⟩ := List.mem_map.mp hc
      obtain ⟨hs, -⟩ := List.mem_filter.mp hs
      cases s with
      | constant =>
          rw [Statement.renamed] at heq
          rw [heq] at hs
          rw [hconstant id ty value hs]
          exact hM.constant id ty value hs
      | _ => exact absurd heq (by simp [Statement.renamed])

end Entity.Agrees

/-! ### From a model to a model -/

namespace Entity.Models

variable {I : Interp H} {env : Environment H} {ρ : ValueName → BitString}

theorem aliasOf (h : E.Models I env ρ) {l r : ValueName} (hlr : E.AliasOf l r) : ρ l = ρ r := by
  obtain ⟨b, hb, halias, rfl, hr⟩ := hlr
  rw [h.aliased b hb halias, headD_map_of_head? hr]

theorem resolved (h : E.Models I env ρ) (hE : E.WellFormed) (hσ : Resolved E.aliases σ)
    (x : ValueName) : ρ (σ x) = ρ x := by
  induction x using chain_induction hE with
  | last x hx => rw [resolved_eq_self hσ hx]
  | step x y hstep ih =>
      rw [resolved_step hσ hstep, ih]
      rcases hstep.2 with halias | ⟨halias, -⟩
      · exact h.aliasOf halias
      · exact (h.aliasOf halias).symm

/-- Every model survives the pass. -/
theorem flattened (h : E.Models I env ρ) (hE : E.WellFormed) (hσ : Resolved E.aliases σ) :
    (E.flattened σ).Models I env ρ ∧ (E.flattened σ).observe ρ = E.observe ρ := by
  have hagrees : E.Agrees σ ρ ρ := ⟨fun x _ => h.resolved hE hσ x, fun _ _ _ _ => rfl⟩
  refine ⟨(hagrees.models_iff hσ (fun b hb hr => h.aliased b hb ?_) I env).mpr h,
    hagrees.observe_eq⟩
  by_contra halias
  simp [retains, halias] at hr

end Entity.Models

/-- The alias binding of `x` is removed. -/
def Entity.Removed (E : Entity) (x r : ValueName) : Prop :=
  E.AliasOf x r ∧ (E.aliasedAway x = true ∨ E.aliasedAway r = true)

/-- Going back through removed aliases ends at one name. -/
theorem Entity.WellFormed.exists_origin (hE : E.WellFormed) :
    ∃ origin : ValueName → ValueName, (∀ x, ReflTransGen E.Removed x (origin x)) ∧
      (∀ x r, E.Removed x r → origin x = origin r) ∧
      ∀ x, (∀ r, ¬ E.Removed x r) → origin x = x := by
  obtain ⟨rank, hrank⟩ := hE.acyclic
  have hexists : ∀ x, ∃ o, ReflTransGen E.Removed x o ∧ ∀ r, ¬ E.Removed o r := by
    intro x
    induction hn : rank x using Nat.strong_induction_on generalizing x with
    | _ n ih =>
        by_cases hx : ∃ r, E.Removed x r
        · obtain ⟨r, hr⟩ := hx
          obtain ⟨o, ho, hend⟩ := ih (rank r) (hn ▸ hrank x r hr.1) r rfl
          exact ⟨o, .head hr ho, hend⟩
        · exact ⟨x, .refl, not_exists.mp hx⟩
  choose origin hlead hend using hexists
  have hunique : Relator.RightUnique E.Removed := fun _ _ _ h h' => hE.aliasOf_unique h.1 h'.1
  have hstop : ∀ {x o}, ReflTransGen E.Removed x o → (∀ r, ¬ E.Removed x r) → x = o := by
    intro x o h hx
    rcases ReflTransGen.cases_head h with rfl | ⟨r, hr, -⟩
    · rfl
    · exact absurd hr (hx r)
  refine ⟨origin, hlead, fun x r hr => ?_, fun x hx => (hstop (hlead x) hx).symm⟩
  rcases ReflTransGen.total_of_right_unique hunique (hlead x) (.head hr (hlead r)) with h | h
  · exact hstop h (hend x)
  · exact (hstop h (hend r)).symm

/-- Without a cut the way back stays in the chain. -/
theorem Entity.resolved_removed (hσ : Resolved E.aliases σ) {x o : ValueName}
    (h : ReflTransGen E.Removed x o) (huncut : ∀ e, E.Cut e → σ e ≠ σ x) : σ o = σ x := by
  induction h with
  | refl => rfl
  | @tail y r _ hr ih =>
      rw [← ih]
      by_cases haway : E.aliasedAway r = true
      · exact resolved_step hσ ⟨haway, Or.inl hr.1⟩
      · have hy := hr.2.resolve_right haway
        rcases hexpr : r.isExpr with _ | _
        · exact (resolved_step hσ ⟨hy, Or.inr ⟨hr.1, hexpr⟩⟩).symm
        · exact absurd ih (huncut y ⟨hy, r, hr.1, hexpr, haway⟩)

/-- Under the condition every model after the pass comes from one before it. -/
theorem Entity.AliasSafe.exists_model (hsafe : E.AliasSafe) (hE : E.WellFormed)
    (hσ : Resolved E.aliases σ) {I : Interp H} {env : Environment H}
    {ρ' : ValueName → BitString} (h : (E.flattened σ).Models I env ρ') :
    ∃ ρ, E.Models I env ρ ∧ E.observe ρ = (E.flattened σ).observe ρ' := by
  obtain ⟨origin, hlead, hstep, hself⟩ := hE.exists_origin
  have hagrees : E.Agrees σ (fun x => ρ' (σ (origin x))) ρ' := by
    have huncut : ∀ x, (x = E.output ∨ ∃ s ∈ E.statements, E.retains s = true ∧ x ∈ s.used) →
        σ (origin x) = σ x := fun x hx =>
      resolved_removed hσ (hlead x) ((uncut_iff hE hσ).mpr (hsafe.uncut x hx))
    have hdefined : ∀ s ∈ E.statements, E.retains s = true → ∀ x ∈ s.defined, origin x = x := by
      intro s hs hr x hx
      refine hself x fun r hremoved => ?_
      rw [not_retains_of_aliasOf hE hs hx hremoved.1 hremoved.2] at hr
      exact Bool.noConfusion hr
    constructor
    · rintro x (hin | hout | ⟨s, hs, hr, hx⟩)
      · rw [hself x]
        rintro r ⟨⟨b, hb, -, hname, -⟩, -⟩
        exact hE.not_input hb (by simp [Statement.defined, hname]) hin
      · rw [huncut x (Or.inl hout)]
      · rcases List.mem_append.mp hx with hx | hx
        · rw [hdefined s hs hr x hx]
        · rw [huncut x (Or.inr ⟨s, hs, hr, hx⟩)]
    · intro s hs x hx
      have hused := (Statement.notRenamed_used (σ := σ) hx).2
      rw [huncut x (Or.inr ⟨s, hs, retains_of_notRenamed hx, hused⟩),
        resolved_eq_self hσ (hsafe.renamed s hs x hx)]
  refine ⟨_, (hagrees.models_iff hσ (fun b hb hr => ?_) I env).mp h, hagrees.observe_eq.symm⟩
  obtain ⟨r, halias, -, haway⟩ :=
    aliasOf_of_not_retains hE hb (x := b.name) (by simp [Statement.defined]) hr
  obtain ⟨b', hb', -, hname, hop⟩ := id halias
  have heq := hE.statement_unique hb' hb (x := b.name) (by simp [Statement.defined, hname])
    (by simp [Statement.defined])
  injection heq with heq
  subst heq
  rw [headD_map_of_head? hop]
  exact congrArg (fun o => ρ' (σ o)) (hstep _ r ⟨halias, haway⟩)

theorem Entity.flattened_preserves_iff (hE : E.WellFormed) (hσ : Resolved E.aliases σ) :
    Preserves E (E.flattened σ) ↔ E.AliasSafe := by
  refine ⟨fun h => (flattened_closed_iff hE hσ).mp h.closed, fun hsafe =>
    ⟨(flattened_closed_iff hE hσ).mpr hsafe, fun H I env o => ?_⟩⟩
  constructor
  · rintro ⟨ρ, hρ, rfl⟩
    obtain ⟨hM, hobs⟩ := hρ.flattened hE hσ
    exact ⟨ρ, hM, hobs⟩
  · rintro ⟨ρ', hρ', rfl⟩
    exact hsafe.exists_model hE hσ hρ'

end Flattened

/-- **Flattening of aliases.** With enough fuel, and in every order of the resolution of chains,
the pass returns an entity, which preserves the given one exactly when no clock, reset, traced
state, assertion or set uses a name that is aliased away, and no chain with a cut is used. -/
theorem flattenAliases_preserves_iff (E : Entity) (hE : E.WellFormed)
    (order : ℕ → List (ValueName × ValueName) → List (ValueName × ValueName))
    (horder : ∀ i l, (order i l).Perm l) :
    ∃ bound, ∀ fuel > bound, ∃ E', E.flattenAliases order fuel = some E' ∧
      (Preserves E E' ↔ E.AliasSafe) := by
  obtain ⟨bound, hbound⟩ := Entity.flattenAliases_resolved hE horder
  refine ⟨bound, fun fuel hfuel => ?_⟩
  obtain ⟨σ, hflat, hσ⟩ := hbound fuel hfuel
  exact ⟨_, hflat, Entity.flattened_preserves_iff hE hσ⟩

/-! ### Two entities -/

section Examples

/-- A value that a block and a variable alias in turn, loaded by a register. -/
def chained : Entity where
  name := "chained"
  inputs := [⟨"clk", .named 0 "clk", .bool, false⟩, ⟨"a", .named 1 "a", .bool, false⟩]
  output := .named 2 "x"
  outputType := .bool
  statements :=
    [.binding ⟨.expr 0, .logicalNot, [.named 1 "a"], .bool⟩,
     .binding ⟨.expr 1, .alias, [.expr 0], .bool⟩,
     .binding ⟨.named 2 "x", .alias, [.expr 1], .bool⟩,
     .register ⟨.named 3 "r", .bool, .named 0 "clk", none, none, .expr 0, none⟩]

/-- A register whose clock is a block that only names the clock. -/
def blockClock : Entity where
  name := "block_clock"
  inputs := [⟨"clk", .named 0 "clk", .bool, false⟩, ⟨"a", .named 1 "a", .bool, false⟩]
  output := .named 2 "r"
  outputType := .bool
  statements :=
    [.binding ⟨.expr 0, .alias, [.named 0 "clk"], .bool⟩,
     .register ⟨.named 2 "r", .bool, .expr 0, none, none, .named 1 "a", none⟩]

/-- A rank of the names of both entities along which aliases are followed. -/
def exampleRank : ValueName → ℕ
  | .named 2 _ => 3
  | .named _ _ => 0
  | .expr id => id + 1

theorem chained_wellFormed : chained.WellFormed where
  nodup := by decide
  closed := by
    simp [chained, Statement.used, Register.used, Entity.names, Entity.inputNames, definedNames,
      Statement.defined]
  output := by decide
  operand := by simp [chained, Statement.hasAliasOperand, Operator.isAlias]
  acyclic := by
    refine ⟨exampleRank, ?_⟩
    rintro l r ⟨b, hb, halias, rfl, hr⟩
    simp only [chained, List.mem_cons, Statement.binding.injEq, List.not_mem_nil, or_false,
      reduceCtorEq] at hb
    rcases hb with rfl | rfl | rfl
    · exact absurd halias (by simp [Operator.isAlias])
    · obtain rfl : _ = r := Option.some.inj hr
      decide
    · obtain rfl : _ = r := Option.some.inj hr
      decide

theorem blockClock_wellFormed : blockClock.WellFormed where
  nodup := by decide
  closed := by
    simp [blockClock, Statement.used, Register.used, Entity.names, Entity.inputNames,
      definedNames, Statement.defined]
  output := by decide
  operand := by simp [blockClock, Statement.hasAliasOperand, Operator.isAlias]
  acyclic := by
    refine ⟨exampleRank, ?_⟩
    rintro l r ⟨b, hb, -, rfl, hr⟩
    simp only [blockClock, List.mem_cons, Statement.binding.injEq, List.not_mem_nil, or_false,
      reduceCtorEq] at hb
    subst hb
    obtain rfl : _ = r := Option.some.inj hr
    decide

theorem chained_aliasSafe : chained.AliasSafe where
  renamed := by
    simp only [chained, List.forall_mem_cons, List.not_mem_nil, IsEmpty.forall_iff, implies_true,
      Statement.notRenamed, Option.toList_none, List.flatMap_nil, List.append_nil, and_true,
      true_and]
    decide
  uncut := by
    rintro - - e ⟨haway, r, ⟨b, hb, halias, rfl, hr⟩, -, hr'⟩
    simp only [chained, List.mem_cons, Statement.binding.injEq, List.not_mem_nil, or_false,
      reduceCtorEq] at hb
    rcases hb with rfl | rfl | rfl
    · exact absurd halias (by simp [Operator.isAlias])
    · obtain rfl : _ = r := Option.some.inj hr
      exact absurd (by decide) hr'
    · exact absurd haway (by decide)

/-- The aliases of `chained` are flattened without a change of its meaning. -/
theorem chained_preserved : ∃ bound, ∀ fuel > bound, ∃ E',
    chained.flattenAliases (fun _ l => l) fuel = some E' ∧ Preserves chained E' := by
  obtain ⟨bound, hbound⟩ := flattenAliases_preserves_iff chained chained_wellFormed
    (fun _ l => l) fun _ l => .refl l
  refine ⟨bound, fun fuel hfuel => ?_⟩
  obtain ⟨E', hE', hiff⟩ := hbound fuel hfuel
  exact ⟨E', hE', hiff.mpr chained_aliasSafe⟩

/-- The clock of the register of `blockClock` is not renamed and loses its definition. -/
theorem not_flattenAliases_preserves :
    ¬ ∀ (E : Entity), E.WellFormed →
      ∀ order : ℕ → List (ValueName × ValueName) → List (ValueName × ValueName),
        (∀ i l, (order i l).Perm l) →
        ∃ bound, ∀ fuel > bound, ∃ E', E.flattenAliases order fuel = some E' ∧
          Preserves E E' := by
  intro h
  obtain ⟨bound, hbound⟩ := h blockClock blockClock_wellFormed (fun _ l => l) fun _ l => .refl l
  obtain ⟨bound', hbound'⟩ :=
    @Entity.flattenAliases_resolved _ blockClock_wellFormed (fun _ l => l) fun _ l => .refl l
  obtain ⟨E', hE', hpreserves⟩ := hbound (max bound bound' + 1) (by omega)
  obtain ⟨σ, hflat, hσ⟩ := hbound' (max bound bound' + 1) (by omega)
  obtain rfl := Option.some.inj (hE'.symm.trans hflat)
  have hsafe := (Entity.flattened_preserves_iff blockClock_wellFormed hσ).mp hpreserves
  exact hsafe.renamed _ (List.mem_cons_of_mem _ List.mem_cons_self) (.expr 0)
    List.mem_cons_self (by decide)

end Examples

end Spade.Mir

import Spade.Mir.Renaming
import Spade.Mir.VerilogNames

/-!
# Signals for the waveform analysis

The pass of `spade-mir/src/wal.rs`: it replaces every `WalTrace` statement by an alias with the name
that the analysis looks for, and adds such aliases for the state, the clock and the reset of every
register that is traced as a state machine.

* **The meaning stays** (`insertWalSignals_preserves`): if no variable is called like a signal, the
  signals have different names and the ids of new expressions are fresh, the entity computes the
  same observations, defines every name once and has no `WalTrace` statement left.
-/

namespace Spade.Mir

/-! ### The pass -/

/-- The trackers of the ids that the pass takes. The one for names is there only in tests. -/
structure Trackers where
  exprIds : ℕ
  nameIds : Option ℕ

/-- `wal_alias`. -/
def walAlias (source : ValueName) (stem suffix : String) (ty : Ty) (ids : Trackers) :
    Statement × Trackers :=
  (.binding ⟨.named (ids.nameIds.getD 0) (stem ++ suffix), .alias, [source], ty⟩,
    { ids with nameIds := ids.nameIds.map (· + 1) })

/-- What a statement becomes in `insert_wal_signals`. -/
def Statement.withSignals (s : Statement) (ids : Trackers) : List Statement × Trackers :=
  match s with
  | .register r =>
      match r.traced with
      | some tracedName =>
          let stem := tracedName.unescapedVarName
          let (state, ids) := walAlias tracedName stem "__wal_fsm_state" r.ty ids
          let (clk, ids) := walAlias r.clock stem "__wal_fsm_clk" .bool ids
          match r.reset with
          | some (trigger, _) =>
              let (rst, ids) := walAlias trigger stem "__wal_fsm_rst" .bool ids
              ([.register r, state, clk, rst], ids)
          | none =>
              let id := ids.exprIds
              let ids := { ids with exprIds := id + 1 }
              let (rst, ids) := walAlias (.expr id) stem "__wal_fsm_rst" .bool ids
              ([.register r, state, clk, .constant id .bool (.bool false), rst], ids)
      | none => ([.register r], ids)
  | .walTrace name val suffix ty =>
      let (signal, ids) := walAlias val name.unescapedVarName suffix ty ids
      ([signal], ids)
  | other => ([other], ids)

/-- The statements of an entity in `insert_wal_signals`. -/
def insertSignals : List Statement → Trackers → List Statement × Trackers
  | [], ids => ([], ids)
  | s :: stmts, ids =>
      let (signals, ids) := s.withSignals ids
      let (rest, ids) := insertSignals stmts ids
      (signals ++ rest, ids)

/-- The entity with other statements. -/
def Entity.withStatements (E : Entity) (stmts : List Statement) : Entity :=
  { E with statements := stmts }

/-- `insert_wal_signals`. -/
def Entity.insertWalSignals (E : Entity) (ids : Trackers) : Entity :=
  E.withStatements (insertSignals E.statements ids).1

/-! ### Statements that only define a name -/

section Insert

variable {H : Type} {I : Interp H} {env : Environment H} {E : Entity} {pre post : List Statement}
  {d : Statement} {ρ : ValueName → BitString}

/-- What an alias or a constant says about the values of the names. -/
def Statement.Clause (I : Interp H) (ρ : ValueName → BitString) : Statement → Prop
  | .binding b => b.operator.isAlias = true → ρ b.name = (b.operands.map ρ).headD []
  | .constant id ty value => ρ (.expr id) = constantBits I.highImp ty value
  | _ => True

/-- The statement is an alias of a name in `names`, a constant, or a trace. -/
inductive Statement.IsSilent (names : List ValueName) : Statement → Prop
  | alias {name source : ValueName} {ty : Ty} (h : source ∈ names) :
      IsSilent names (.binding ⟨name, .alias, [source], ty⟩)
  | constant {id : ℕ} {ty : Ty} {value : ConstantValue} : IsSilent names (.constant id ty value)
  | trace {name val : ValueName} {suffix : String} {ty : Ty} (hname : name ∈ names)
      (hval : val ∈ names) : IsSilent names (.walTrace name val suffix ty)

/-- The values of an entity obey the clauses of its statements, in whatever order these stand. -/
theorem Entity.models_iff_clauses : E.Models I env ρ ↔
    (∀ x ∈ E.inputNames, ρ x = env.input x) ∧
      E.registers.map (fun r => ρ r.name) = env.registers ∧
      List.Forall₂ (fun b h => ρ b.name = I.denote h b.operator b.ty (b.operands.map ρ))
        E.operations env.inner ∧ ∀ s ∈ E.statements, s.Clause I ρ := by
  constructor
  · intro h
    refine ⟨h.input, h.register, h.operation, ?_⟩
    rintro (b | r | ⟨id, ty, value⟩ | _ | _ | _) hs
    · exact h.aliased b hs
    · trivial
    · exact h.constant id ty value hs
    all_goals trivial
  · rintro ⟨hinput, hregister, hoperation, hclauses⟩
    exact ⟨hinput, hregister, hoperation, fun b hb => hclauses _ hb,
      fun id ty value hc => hclauses _ hc⟩

theorem Entity.names_insert : (E.withStatements (pre ++ d :: post)).names.Perm
    (d.defined ++ (E.withStatements (pre ++ post)).names) := by
  simp only [names, inputNames, withStatements, definedNames_append, definedNames_cons]
  rw [← List.append_assoc, ← List.append_assoc, ← List.append_assoc, ← List.append_assoc]
  exact List.Perm.append_right _ (List.perm_append_comm.trans (by rw [List.append_assoc]))

/-- A silent statement adds its clause to what the values obey, and nothing to what is observed. -/
theorem Entity.models_insert {names : List ValueName} (hd : d.IsSilent names) :
    (E.withStatements (pre ++ d :: post)).Models I env ρ ↔
      (E.withStatements (pre ++ post)).Models I env ρ ∧ d.Clause I ρ := by
  have hregisters : (E.withStatements (pre ++ d :: post)).registers =
      (E.withStatements (pre ++ post)).registers := by
    rcases hd with _ | _ | _ <;> simp [registers, withStatements]
  have hoperations : (E.withStatements (pre ++ d :: post)).operations =
      (E.withStatements (pre ++ post)).operations := by
    rcases hd with _ | _ | _ <;> simp [operations, withStatements, Operator.isAlias]
  have hclauses : (∀ s ∈ pre ++ d :: post, s.Clause I ρ) ↔
      (∀ s ∈ pre ++ post, s.Clause I ρ) ∧ d.Clause I ρ := by
    simp only [List.forall_mem_append, List.forall_mem_cons]
    exact ⟨fun h => ⟨⟨h.1, h.2.2⟩, h.2.1⟩, fun h => ⟨h.1.1, h.2, h.1.2⟩⟩
  rw [models_iff_clauses, models_iff_clauses, hregisters, hoperations]
  exact ⟨fun h => ⟨⟨h.1, h.2.1, h.2.2.1, (hclauses.mp h.2.2.2).1⟩, (hclauses.mp h.2.2.2).2⟩,
    fun h => ⟨h.1.1, h.1.2.1, h.1.2.2.1, hclauses.mpr ⟨h.1.2.2.2, h.2⟩⟩⟩

theorem Entity.observe_insert {names : List ValueName} (hd : d.IsSilent names) :
    (E.withStatements (pre ++ d :: post)).observe ρ =
      (E.withStatements (pre ++ post)).observe ρ := by
  rcases hd with _ | _ | _ <;>
    simp [observe, withStatements, registers, asserts, sets]

theorem Entity.uses_insert {names : List ValueName} (hd : d.IsSilent names) {x : ValueName}
    (h : (E.withStatements (pre ++ d :: post)).Uses x) :
    (E.withStatements (pre ++ post)).Uses x ∨ x ∈ names := by
  rcases h with rfl | ⟨s, hs, hx⟩
  · exact Or.inl (Or.inl rfl)
  · have hmem : s ∈ pre ++ d :: post := hs
    rw [List.mem_append, List.mem_cons] at hmem
    rcases hmem with hpre | rfl | hpost
    · exact Or.inl (Or.inr ⟨s, List.mem_append_left _ hpre, hx⟩)
    · rcases hd with hsource | _ | ⟨hname, hval⟩
      · obtain rfl := List.mem_singleton.mp hx
        exact Or.inr hsource
      · exact absurd hx List.not_mem_nil
      · simp only [Statement.used, List.mem_cons, List.not_mem_nil, or_false] at hx
        rcases hx with rfl | rfl
        · exact Or.inr hname
        · exact Or.inr hval
    · exact Or.inl (Or.inr ⟨s, List.mem_append_right _ hpost, hx⟩)

theorem update_eq_of_mem {names : List ValueName} {name : ValueName} {bits : BitString}
    (hname : name ∉ names) : ∀ x ∈ names, Function.update ρ name bits x = ρ x := by
  intro x hx
  have hne : x ≠ name := fun h => hname (h ▸ hx)
  exact Function.update_of_ne hne _ _

/-- The value of a name that is not there yet can be chosen to obey a silent statement. -/
theorem Statement.IsSilent.exists_clause {names : List ValueName} (hd : d.IsSilent names)
    (hfresh : ∀ x ∈ d.defined, x ∉ names) (I : Interp H) (ρ : ValueName → BitString) :
    ∃ ρ', d.Clause I ρ' ∧ ∀ x ∈ names, ρ' x = ρ x := by
  rcases hd with @⟨name, source, ty, hsource⟩ | @⟨id, ty, value⟩ | _
  · have hkept : ∀ x ∈ names, Function.update ρ name (ρ source) x = ρ x :=
      update_eq_of_mem (hfresh name List.mem_cons_self)
    refine ⟨Function.update ρ name (ρ source), fun _ => ?_, hkept⟩
    rw [Function.update_self]
    exact (hkept source hsource).symm
  · exact ⟨Function.update ρ (.expr id) (constantBits I.highImp ty value), Function.update_self ..,
      update_eq_of_mem (hfresh _ List.mem_cons_self)⟩
  · exact ⟨ρ, trivial, fun _ _ => rfl⟩

/-- `F'` has the meaning of `F`, all its names, and defines none twice that `F` does not. -/
structure Grows (F F' : Entity) : Prop where
  preserves : Preserves F F'
  subset : F.names ⊆ F'.names
  nodup : F.names.Nodup → F'.names.Nodup

theorem Grows.refl {F : Entity} (hclosed : F.Closed) : Grows F F :=
  ⟨⟨hclosed, fun _ _ _ _ => Iff.rfl⟩, List.Subset.refl _, id⟩

theorem Grows.trans {F F' F'' : Entity} (h : Grows F F') (h' : Grows F' F'') : Grows F F'' where
  preserves := ⟨h'.preserves.closed, fun H I env o =>
    (h.preserves.observations H I env o).trans (h'.preserves.observations H I env o)⟩
  subset := List.Subset.trans h.subset h'.subset
  nodup := h'.nodup ∘ h.nodup

/-- **One signal.** An alias or a constant with a name that is not there yet changes nothing. -/
theorem Entity.Closed.insert (hclosed : (E.withStatements (pre ++ post)).Closed)
    (hd : d.IsSilent (E.withStatements (pre ++ post)).names)
    (hfresh : ∀ x ∈ d.defined, x ∉ (E.withStatements (pre ++ post)).names) :
    Grows (E.withStatements (pre ++ post)) (E.withStatements (pre ++ d :: post)) where
  preserves := by
    refine ⟨fun x hx => ?_, fun H I env o => ?_⟩
    · refine names_insert.mem_iff.mpr (List.mem_append_right _ ?_)
      exact (uses_insert hd hx).elim (hclosed x) id
    · constructor
      · rintro ⟨ρ, hmodels, rfl⟩
        obtain ⟨ρ', hclause, hkept⟩ := hd.exists_clause hfresh I ρ
        refine ⟨ρ', (models_insert hd).mpr ⟨hmodels.congr hclosed hkept, hclause⟩, ?_⟩
        rw [observe_insert hd, hclosed.observe_congr hkept]
      · rintro ⟨ρ, hmodels, rfl⟩
        exact ⟨ρ, ((models_insert hd).mp hmodels).1, (observe_insert hd).symm⟩
  subset := fun x hx => names_insert.mem_iff.mpr (List.mem_append_right _ hx)
  nodup hnodup := by
    rw [names_insert.nodup_iff, List.nodup_append]
    have hdefined : d.defined.Nodup := by
      rcases hd with _ | _ | _ <;> simp [Statement.defined]
    exact ⟨hdefined, hnodup, fun x hx y hy h => hfresh x hx (h ▸ hy)⟩

/-- A trace is no part of the meaning. -/
theorem Entity.Closed.dropTrace {name val : ValueName} {suffix : String} {ty : Ty}
    (hclosed : (E.withStatements (pre ++ .walTrace name val suffix ty :: post)).Closed) :
    Grows (E.withStatements (pre ++ .walTrace name val suffix ty :: post))
      (E.withStatements (pre ++ post)) := by
  have hnames : (E.withStatements (pre ++ .walTrace name val suffix ty :: post)).names.Perm
      (E.withStatements (pre ++ post)).names := names_insert
  have hclosed' : (E.withStatements (pre ++ post)).Closed := by
    rintro x (rfl | ⟨s, hs, hx⟩)
    · exact hnames.mem_iff.mp (hclosed _ (Or.inl rfl))
    · have hmem : s ∈ pre ++ .walTrace name val suffix ty :: post :=
        (List.mem_append.mp hs).elim (List.mem_append_left _) fun h =>
          List.mem_append_right _ (List.mem_cons_of_mem _ h)
      exact hnames.mem_iff.mp (hclosed x (Or.inr ⟨s, hmem, hx⟩))
  have hused : ∀ x ∈ [name, val], x ∈ (E.withStatements (pre ++ post)).names := fun x hx =>
    hnames.mem_iff.mp (hclosed x (Or.inr ⟨_, List.mem_append_right _ List.mem_cons_self, hx⟩))
  have hsilent : (Statement.walTrace name val suffix ty).IsSilent
      (E.withStatements (pre ++ post)).names :=
    .trace (hused name (by simp)) (hused val (by simp))
  have hinsert := hclosed'.insert hsilent fun _ h => absurd h List.not_mem_nil
  exact ⟨⟨hclosed', fun H I env o => (hinsert.preserves.observations H I env o).symm⟩,
    hnames.subset, hnames.nodup_iff.mp⟩

end Insert

/-! ### One statement -/

/-- The names of the signals for a statement. -/
def Statement.signalNames : Statement → List String
  | .register r => r.traced.toList.flatMap fun tracedName =>
      [tracedName.unescapedVarName ++ "__wal_fsm_state",
        tracedName.unescapedVarName ++ "__wal_fsm_clk",
        tracedName.unescapedVarName ++ "__wal_fsm_rst"]
  | .walTrace name _ suffix _ => [name.unescapedVarName ++ suffix]
  | _ => []

/-- The signals to come have different names, no name of the entity is among them, and the next
expression id is fresh. -/
structure SignalsFresh (F : Entity) (names : List String) (ids : Trackers) : Prop where
  nameIds : ids.nameIds = none
  exprs : ∀ id, .expr id ∈ F.names → id < ids.exprIds
  distinct : names.Nodup
  unused : ∀ name ∈ names, .named 0 name ∉ F.names

section Steps

variable {E : Entity} {l l' pre post : List Statement} {name : String} {names : List String}
  {ids : Trackers}

/-- One alias for a signal. -/
theorem SignalsFresh.alias (h : SignalsFresh (E.withStatements l) (name :: names) ids)
    (pre post : List Statement) (ty : Ty) (hclosed : (E.withStatements l).Closed)
    {source : ValueName} (hl : l = pre ++ post)
    (hl' : l' = pre ++ .binding ⟨.named 0 name, .alias, [source], ty⟩ :: post)
    (hsource : source ∈ (E.withStatements l).names) :
    Grows (E.withStatements l) (E.withStatements l') ∧
      SignalsFresh (E.withStatements l') names ids := by
  subst hl hl'
  have hdistinct := List.nodup_cons.mp h.distinct
  have hfresh : .named 0 name ∉ (E.withStatements (pre ++ post)).names :=
    h.unused name List.mem_cons_self
  have hsilent : (Statement.binding ⟨.named 0 name, .alias, [source], ty⟩).IsSilent
      (E.withStatements (pre ++ post)).names := .alias hsource
  have hgrows := hclosed.insert hsilent fun x hx => List.mem_singleton.mp hx ▸ hfresh
  refine ⟨hgrows, h.nameIds, fun id hid => ?_, hdistinct.2, fun name' hname' hmem => ?_⟩
  · have hid := Entity.names_insert.mem_iff.mp hid
    exact h.exprs id ((List.mem_append.mp hid).resolve_left (by simp [Statement.defined]))
  · have hne : name' ≠ name := fun heq => hdistinct.1 (heq ▸ hname')
    have hmem := Entity.names_insert.mem_iff.mp hmem
    exact h.unused name' (List.mem_cons_of_mem _ hname')
      ((List.mem_append.mp hmem).resolve_left (by simp [Statement.defined, hne]))

/-- A constant for the reset of a register that has none. -/
theorem SignalsFresh.constant (h : SignalsFresh (E.withStatements l) names ids)
    (pre post : List Statement) (ty : Ty) (value : ConstantValue)
    (hclosed : (E.withStatements l).Closed) (hl : l = pre ++ post)
    (hl' : l' = pre ++ .constant ids.exprIds ty value :: post) :
    Grows (E.withStatements l) (E.withStatements l') ∧
      SignalsFresh (E.withStatements l') names { ids with exprIds := ids.exprIds + 1 } ∧
      .expr ids.exprIds ∈ (E.withStatements l').names := by
  subst hl hl'
  have hfresh : .expr ids.exprIds ∉ (E.withStatements (pre ++ post)).names := fun hmem =>
    Nat.lt_irrefl _ (h.exprs _ hmem)
  have hsilent : (Statement.constant ids.exprIds ty value).IsSilent
      (E.withStatements (pre ++ post)).names := .constant
  have hgrows := hclosed.insert hsilent fun x hx => List.mem_singleton.mp hx ▸ hfresh
  refine ⟨hgrows, ⟨h.nameIds, fun id hid => ?_, h.distinct, fun name' hname' hmem => ?_⟩, ?_⟩
  · have hid := Entity.names_insert.mem_iff.mp hid
    rcases List.mem_append.mp hid with hnew | hold
    · obtain rfl : id = ids.exprIds := by simpa [Statement.defined] using hnew
      exact Nat.lt_succ_self _
    · exact (h.exprs id hold).trans (Nat.lt_succ_self _)
  · have hmem := Entity.names_insert.mem_iff.mp hmem
    exact h.unused name' hname'
      ((List.mem_append.mp hmem).resolve_left (by simp [Statement.defined]))
  · exact Entity.names_insert.mem_iff.mpr (List.mem_append_left _ List.mem_cons_self)

theorem SignalsFresh.mono {F F' : Entity} (h : SignalsFresh F names ids)
    (hnames : F'.names ⊆ F.names) : SignalsFresh F' names ids :=
  ⟨h.nameIds, fun id hid => h.exprs id (hnames hid), h.distinct,
    fun name hname hmem => h.unused name hname (hnames hmem)⟩

theorem walAlias_of_none (hids : ids.nameIds = none) (source : ValueName) (stem suffix : String)
    (ty : Ty) : walAlias source stem suffix ty ids =
      (.binding ⟨.named 0 (stem ++ suffix), .alias, [source], ty⟩, ids) := by
  obtain ⟨exprIds, nameIds⟩ := ids
  obtain rfl : nameIds = none := hids
  rfl

/-- **One statement.** What a statement becomes has its meaning. -/
theorem SignalsFresh.step {s : Statement}
    (h : SignalsFresh (E.withStatements (pre ++ s :: post)) (s.signalNames ++ names) ids)
    (hclosed : (E.withStatements (pre ++ s :: post)).Closed) :
    Grows (E.withStatements (pre ++ s :: post))
        (E.withStatements (pre ++ ((s.withSignals ids).1 ++ post))) ∧
      SignalsFresh (E.withStatements (pre ++ ((s.withSignals ids).1 ++ post))) names
        (s.withSignals ids).2 ∧
      ∀ name val suffix ty, .walTrace name val suffix ty ∉ (s.withSignals ids).1 := by
  have hused : ∀ x ∈ s.used, x ∈ (E.withStatements (pre ++ s :: post)).names := fun x hx =>
    hclosed x (Or.inr ⟨s, List.mem_append_right _ List.mem_cons_self, hx⟩)
  rcases s with b | r | ⟨id, ty, value⟩ | value | ⟨target, value⟩ | ⟨name, val, suffix, ty⟩
  · exact ⟨.refl hclosed, h, by simp [Statement.withSignals]⟩
  · rcases htraced : r.traced with _ | tracedName
    · simp only [Statement.withSignals, htraced]
      simp only [Statement.signalNames, htraced] at h
      exact ⟨.refl hclosed, h, by simp⟩
    · simp only [Statement.signalNames, htraced, Option.toList_some, List.flatMap_singleton,
        List.cons_append, List.nil_append] at h
      have hstate := hused tracedName (by simp [Statement.used, Register.used, htraced])
      have hclk := hused r.clock (by simp [Statement.used, Register.used])
      obtain ⟨hgrows₁, hfresh₁⟩ := h.alias (pre ++ [.register r]) post r.ty hclosed
        (List.append_cons ..) rfl hstate
      obtain ⟨hgrows₂, hfresh₂⟩ := hfresh₁.alias _ post .bool hgrows₁.preserves.closed
        (List.append_cons ..) rfl (hgrows₁.subset hclk)
      have hgrows := hgrows₁.trans hgrows₂
      rcases hreset : r.reset with _ | ⟨trigger, value⟩
      · obtain ⟨hgrows₃, hfresh₃, hconstant⟩ := hfresh₂.constant _ post .bool (.bool false)
          hgrows₂.preserves.closed (List.append_cons ..) rfl
        obtain ⟨hgrows₄, hfresh₄⟩ := hfresh₃.alias _ post .bool hgrows₃.preserves.closed
          (List.append_cons ..) rfl hconstant
        simp only [Statement.withSignals, htraced, hreset, walAlias_of_none h.nameIds,
          walAlias_of_none hfresh₃.nameIds]
        have hlist : ∀ a b c d e : Statement,
            pre ++ ([a, b, c, d, e] ++ post) = pre ++ [a] ++ [b] ++ [c] ++ [d] ++ e :: post := by
          simp
        rw [hlist]
        exact ⟨hgrows.trans (hgrows₃.trans hgrows₄), hfresh₄, by simp⟩
      · have hrst := hused trigger (by simp [Statement.used, Register.used, hreset])
        obtain ⟨hgrows₃, hfresh₃⟩ := hfresh₂.alias _ post .bool hgrows₂.preserves.closed
          (List.append_cons ..) rfl (hgrows.subset hrst)
        simp only [Statement.withSignals, htraced, hreset, walAlias_of_none h.nameIds]
        have hlist : ∀ a b c d : Statement,
            pre ++ ([a, b, c, d] ++ post) = pre ++ [a] ++ [b] ++ [c] ++ d :: post := by
          simp
        rw [hlist]
        exact ⟨hgrows.trans hgrows₃, hfresh₃, by simp⟩
  · exact ⟨.refl hclosed, h, by simp [Statement.withSignals]⟩
  · exact ⟨.refl hclosed, h, by simp [Statement.withSignals]⟩
  · exact ⟨.refl hclosed, h, by simp [Statement.withSignals]⟩
  · have hdrop := hclosed.dropTrace
    have hval : val ∈ (E.withStatements (pre ++ post)).names :=
      Entity.names_insert.mem_iff.mp (hused val (by simp [Statement.used]))
    have hfresh : SignalsFresh (E.withStatements (pre ++ post))
        ((name.unescapedVarName ++ suffix) :: names) ids :=
      h.mono fun x hx => Entity.names_insert.mem_iff.mpr hx
    obtain ⟨hgrows, hfresh'⟩ := hfresh.alias pre post ty hdrop.preserves.closed rfl rfl hval
    rw [Statement.withSignals, walAlias_of_none h.nameIds]
    exact ⟨hdrop.trans hgrows, hfresh', by simp⟩

/-- **All statements.** -/
theorem SignalsFresh.run (pre : List Statement) {stmts : List Statement}
    (h : SignalsFresh (E.withStatements (pre ++ stmts)) (stmts.flatMap Statement.signalNames) ids)
    (hclosed : (E.withStatements (pre ++ stmts)).Closed) :
    Grows (E.withStatements (pre ++ stmts))
        (E.withStatements (pre ++ (insertSignals stmts ids).1)) ∧
      ∀ name val suffix ty, .walTrace name val suffix ty ∉ (insertSignals stmts ids).1 := by
  induction stmts generalizing pre ids with
  | nil => exact ⟨.refl hclosed, by simp [insertSignals]⟩
  | cons s stmts ih =>
      rw [List.flatMap_cons] at h
      obtain ⟨hgrows, hfresh, htrace⟩ := h.step hclosed
      rw [← List.append_assoc] at hgrows hfresh
      obtain ⟨hgrows', htrace'⟩ := ih _ hfresh hgrows.preserves.closed
      rw [insertSignals, ← List.append_assoc]
      refine ⟨hgrows.trans hgrows', fun name val suffix ty hmem => ?_⟩
      exact (List.mem_append.mp hmem).elim (htrace name val suffix ty) (htrace' name val suffix ty)

end Steps

/-- **Preservation.** If the signals have names of their own, the pass preserves a closed entity,
defines no name twice that has not been so before, and leaves no trace statement. -/
theorem insertWalSignals_preserves (E : Entity) (ids : Trackers) (hclosed : E.Closed)
    (hfresh : SignalsFresh E (E.statements.flatMap Statement.signalNames) ids) :
    Grows E (E.insertWalSignals ids) ∧
      ∀ name val suffix ty, .walTrace name val suffix ty ∉ (E.insertWalSignals ids).statements :=
  SignalsFresh.run [] hfresh hclosed

/-! ### Names that are defined twice -/

section Twice

variable {ids : Trackers}

/-- The names of the signals are defined besides those of the statement. -/
theorem Statement.signals_sublist (hids : ids.nameIds = none) (s : Statement) :
    (s.defined ++ s.signalNames.map (ValueName.named 0)).Sublist
      (definedNames (s.withSignals ids).1) := by
  rcases s with b | r | ⟨id, ty, value⟩ | value | ⟨target, value⟩ | ⟨name, val, suffix, ty⟩
  · exact .refl _
  · rcases htraced : r.traced with _ | tracedName
    · simp [withSignals, signalNames, htraced]
    · rcases hreset : r.reset with _ | ⟨trigger, value⟩ <;>
        simp [withSignals, signalNames, htraced, hreset, walAlias, hids, defined]
  · exact .refl _
  · exact .refl _
  · exact .refl _
  · simp [withSignals, signalNames, walAlias, hids, defined]

theorem nameIds_withSignals (hids : ids.nameIds = none) (s : Statement) :
    (s.withSignals ids).2.nameIds = none := by
  rcases s with b | r | ⟨id, ty, value⟩ | value | ⟨target, value⟩ | ⟨name, val, suffix, ty⟩
  · exact hids
  · rcases htraced : r.traced with _ | tracedName
    · simpa [Statement.withSignals, htraced] using hids
    · rcases hreset : r.reset with _ | ⟨trigger, value⟩ <;>
        simp [Statement.withSignals, htraced, hreset, walAlias, hids]
  · exact hids
  · exact hids
  · exact hids
  · simp [Statement.withSignals, walAlias, hids]

theorem signals_sublist (hids : ids.nameIds = none) (stmts : List Statement) :
    (stmts.flatMap fun s => s.defined ++ s.signalNames.map (ValueName.named 0)).Sublist
      (definedNames (insertSignals stmts ids).1) := by
  induction stmts generalizing ids with
  | nil => exact .refl _
  | cons s stmts ih =>
      rw [List.flatMap_cons, insertSignals, definedNames_append]
      exact (Statement.signals_sublist hids s).append (ih (nameIds_withSignals hids s))

theorem signalsFresh_of_nodup {E : Entity} (hids : ids.nameIds = none)
    (hexprs : ∀ id, .expr id ∈ E.names → id < ids.exprIds)
    (h : (E.insertWalSignals ids).names.Nodup) :
    E.names.Nodup ∧ SignalsFresh E (E.statements.flatMap Statement.signalNames) ids := by
  have hperm : ((definedNames E.statements ++
      (E.statements.flatMap Statement.signalNames).map (ValueName.named 0))).Perm
        (E.statements.flatMap fun s => s.defined ++ s.signalNames.map (ValueName.named 0)) := by
    rw [List.map_flatMap]
    exact List.flatMap_append_perm _ _ _
  have hnodup : (E.inputNames ++ (definedNames E.statements ++
      (E.statements.flatMap Statement.signalNames).map (ValueName.named 0))).Nodup :=
    (hperm.append_left _).nodup_iff.mpr
      (h.sublist ((signals_sublist hids E.statements).append_left _))
  rw [← List.append_assoc, List.nodup_append] at hnodup
  exact ⟨hnodup.1, hids, hexprs, hnodup.2.1.of_map, fun name hname hmem =>
    hnodup.2.2 _ hmem _ (List.mem_map_of_mem hname) rfl⟩

/-- **Names that are defined twice.** After the pass a closed entity defines every name once exactly
when it has done so before and the signals have names of their own. -/
theorem insertWalSignals_nodup_iff (E : Entity) (ids : Trackers) (hclosed : E.Closed)
    (hids : ids.nameIds = none) (hexprs : ∀ id, .expr id ∈ E.names → id < ids.exprIds) :
    (E.insertWalSignals ids).names.Nodup ↔
      E.names.Nodup ∧ (E.statements.flatMap Statement.signalNames).Nodup ∧
        ∀ name ∈ E.statements.flatMap Statement.signalNames, .named 0 name ∉ E.names := by
  constructor
  · intro h
    obtain ⟨hnodup, hfresh⟩ := signalsFresh_of_nodup hids hexprs h
    exact ⟨hnodup, hfresh.distinct, hfresh.unused⟩
  · rintro ⟨hnodup, hdistinct, hunused⟩
    have hfresh : SignalsFresh E (E.statements.flatMap Statement.signalNames) ids :=
      ⟨hids, hexprs, hdistinct, hunused⟩
    exact (insertWalSignals_preserves E ids hclosed hfresh).1.nodup hnodup

/-- A traced register next to a variable that is called like the signal for its clock. -/
def clockSignal : Entity where
  name := "clock_signal"
  inputs := [⟨"clk", .named 0 "clk", .bool, false⟩]
  output := .named 0 "state"
  outputType := .bool
  statements :=
    [.binding ⟨.named 0 "state__wal_fsm_clk", .not, [.named 0 "state"], .bool⟩,
     .register ⟨.named 0 "state", .bool, .named 0 "clk", none, none,
       .named 0 "state__wal_fsm_clk", some (.named 0 "state")⟩]

theorem clockSignal_closed : clockSignal.Closed := by
  rintro x (rfl | ⟨s, hs, hx⟩)
  · decide
  · simp only [clockSignal, List.mem_cons, List.not_mem_nil, or_false] at hs
    rcases hs with rfl | rfl <;>
      simp only [Statement.used, Register.used, Option.toList_none, Option.toList_some,
        List.flatMap_nil, List.nil_append, List.mem_cons, List.not_mem_nil, or_false] at hx
    · exact hx ▸ by decide
    · rcases hx with rfl | rfl | rfl <;> decide

theorem clockSignal_twice : ¬ (clockSignal.insertWalSignals ⟨0, none⟩).names.Nodup := by
  have hexprs : ∀ id, .expr id ∈ clockSignal.names → id < 0 := by
    simp [clockSignal, Entity.names, Entity.inputNames, definedNames, Statement.defined]
  rw [insertWalSignals_nodup_iff clockSignal ⟨0, none⟩ clockSignal_closed rfl hexprs]
  rintro ⟨-, -, h⟩
  exact h "state__wal_fsm_clk" (by decide) (by decide)

end Twice

end Spade.Mir

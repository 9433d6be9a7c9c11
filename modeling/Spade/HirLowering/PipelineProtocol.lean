import Spade.HirLowering.PipelineSignals
import Spade.Lib.ElasticPipeline
import Mathlib.Data.List.TakeWhile

/-!
# The stall protocol of lowered pipelines

The registers of a variable together with the enable and valid signals of the stages are a
pipeline that stalls, as `Spade.Lib.ElasticPipeline` describes it.

* **The registers of a variable** (`handleStatements_carried`): a variable that is available in
  the first stage has one register for every stage, fed by the register of the stage before.
* **The protocol** (`pipeline_protocol`): the data taken in the first stage, in the cycles in
  which it is ready, is the data that arrived in the last stage, in the cycles in which it is
  valid, followed by the data that is in flight.
-/

namespace Spade.HirLowering

open Spade.Mir

/-! ### The registers of a variable -/

/-- The statements have a register for the variable named `previous` in one stage and `new` in the
next one, with a mux when the stage has an enable signal. -/
def DataRegister (stmts : List Statement) (clock : ValueName) (enable : Option ValueName)
    (ty : Ty) (previous new : NameID) : Prop :=
  ∃ value, .register
      { name := new.valueName
        ty := ty
        clock := clock
        reset := none
        initial := none
        value := value
        traced := none } ∈ stmts ∧
    match enable with
    | none => value = previous.valueName
    | some enable => .binding
        { name := value
          operator := .select
          operands := [enable, previous.valueName, new.valueName]
          ty := ty } ∈ stmts

theorem DataRegister.mono {stmts stmts' : List Statement} {clock : ValueName}
    {enable : Option ValueName} {ty : Ty} {previous new : NameID}
    (h : DataRegister stmts clock enable ty previous new) (hsub : ∀ s ∈ stmts, s ∈ stmts') :
    DataRegister stmts' clock enable ty previous new := by
  obtain ⟨value, hreg, hvalue⟩ := h
  refine ⟨value, hsub _ hreg, ?_⟩
  cases enable with
  | none => exact hvalue
  | some enable => exact hsub _ hvalue

variable {types : NameID → VariableType} {clock : ValueName} {H : Type}

theorem pipelineRegisters_dataRegister {enable : Option ValueName} {regs : List SubRegister}
    {reg : SubRegister} (hreg : reg ∈ regs) (next : ℕ) :
    DataRegister (pipelineRegisters types clock enable regs next).1 clock enable
      (types reg.original).mirType reg.previous reg.new := by
  induction regs generalizing next with
  | nil => exact absurd hreg List.not_mem_nil
  | cons reg' regs ih =>
      rw [pipelineRegisters]
      rcases List.mem_cons.mp hreg with rfl | hreg
      · refine DataRegister.mono ?_ fun s hs => List.mem_append_left _ hs
        cases enable with
        | none => exact ⟨_, List.mem_singleton_self _, rfl⟩
        | some enable =>
            exact ⟨_, List.mem_cons_of_mem _ (List.mem_singleton_self _), List.mem_cons_self⟩
      · exact (ih hreg _).mono fun s hs => List.mem_append_right _ hs

/-- The loop over the live variables keeps what it has collected. -/
theorem nextScope_result {stage : ℕ} {last : Scope} {vars : List NameID} {newSubs scope : Scope}
    {result regs : List SubRegister} {next next' : ℕ}
    (h : nextScope stage last vars newSubs result next = some (scope, regs, next')) :
    ∀ reg ∈ result, reg ∈ regs := by
  induction vars generalizing newSubs result next with
  | nil =>
      obtain ⟨-, rfl, -⟩ : newSubs = scope ∧ result = regs ∧ next = next' := by
        simpa [nextScope] using h
      exact fun _ h => h
  | cons var vars ih =>
      simp only [nextScope, Option.bind_eq_bind, Option.bind_eq_some_iff] at h
      obtain ⟨sub, -, h⟩ := h
      exact fun reg hreg => ih h reg (List.mem_append_left _ hreg)

/-- A variable that is available in one stage is available in the next one under the name of a
new register. -/
theorem nextScope_available {stage : ℕ} {last : Scope} {x n : NameID}
    (hx : last x = some (.available n)) {vars : List NameID} {newSubs scope : Scope}
    {result regs : List SubRegister} {next next' : ℕ}
    (h : nextScope stage last vars newSubs result next = some (scope, regs, next'))
    (hmem : x ∈ vars ∨ ∃ new, newSubs x = some (.available new) ∧ ⟨x, n, new⟩ ∈ result) :
    ∃ new, scope x = some (.available new) ∧ ⟨x, n, new⟩ ∈ regs := by
  induction vars generalizing newSubs result next with
  | nil =>
      obtain ⟨rfl, rfl, -⟩ : newSubs = scope ∧ result = regs ∧ next = next' := by
        simpa [nextScope] using h
      exact hmem.resolve_left List.not_mem_nil
  | cons var vars ih =>
      simp only [nextScope, Option.bind_eq_bind, Option.bind_eq_some_iff] at h
      obtain ⟨sub, hsub, h⟩ := h
      by_cases hvar : x = var
      · subst hvar
        obtain rfl := Option.some.inj (hsub.symm.trans hx)
        exact ih h (Or.inr ⟨_, Function.update_self .., by simp [nextSub]⟩)
      · refine ih h ?_
        rcases hmem with hmem | ⟨new, hnew, hreg⟩
        · exact Or.inl ((List.mem_cons.mp hmem).resolve_left hvar)
        · exact Or.inr ⟨new, by rw [Function.update_of_ne hvar]; exact hnew,
            List.mem_append_left _ hreg⟩

/-- The variable `x` is carried through the stages up to the current one. -/
structure Carried (types : NameID → VariableType) (clock : ValueName)
    (enableNames : List (Option ValueName)) (x : NameID) (st : StageState) : Prop where
  stage : st.currentStage = st.subs.past.length
  live : x ∈ st.subs.liveVars
  first : st.subs.lookupReferenced 0 x = some (.available x)
  available : ∀ k ≤ st.subs.past.length, ∃ n, st.subs.lookupReferenced k x = some (.available n)
  register : ∀ k < st.subs.past.length, ∀ n n',
    st.subs.lookupReferenced k x = some (.available n) →
    st.subs.lookupReferenced (k + 1) x = some (.available n') →
    DataRegister st.statements clock (enableNames[k]?.join) (types x).mirType n n'

/-- Making other variables available does not touch `x`. -/
theorem setAvailable_lookup {subs : Substitutions} {x : NameID} {names : List NameID} {time : ℕ}
    (hx : x ∉ names) (k : ℕ) :
    (names.foldl (fun subs name => subs.setAvailable name time (types name)) subs).past =
        subs.past ∧
      (names.foldl (fun subs name => subs.setAvailable name time (types name))
        subs).lookupReferenced k x = subs.lookupReferenced k x ∧
      (x ∈ subs.liveVars →
        x ∈ (names.foldl (fun subs name => subs.setAvailable name time (types name))
          subs).liveVars) := by
  induction names generalizing subs with
  | nil => exact ⟨rfl, rfl, id⟩
  | cons name names ih =>
      rw [List.mem_cons, not_or] at hx
      obtain ⟨hpast, hlookup, hlive⟩ := @ih (subs.setAvailable name time (types name)) hx.2
      rw [List.foldl_cons]
      refine ⟨hpast, hlookup.trans ?_, fun h => hlive (List.mem_append_left _ h)⟩
      simp only [Substitutions.lookupReferenced, Substitutions.setAvailable]
      rcases Nat.lt_trichotomy k subs.past.length with hk | rfl | hk
      · rw [List.getElem?_append_left hk, List.getElem?_append_left hk]
      · simp [Function.update_of_ne hx.1]
      · rw [List.getElem?_eq_none (by simp; omega), List.getElem?_eq_none (by simp; omega)]

/-- One statement after the first stage. -/
theorem handleStatement_carried {enableNames : List (Option ValueName)} {x : NameID}
    {s : BodyStatement} {st st' : StageState}
    (h : handleStatement types clock enableNames s st = some st')
    (hbind : ∀ time names, s = .bind time names → x ∉ names)
    (hst : Carried types clock enableNames x st) : Carried types clock enableNames x st' := by
  cases s with
  | bind time names =>
      obtain rfl := Option.some.inj h
      have hset := @setAvailable_lookup types st.subs _ names time (hbind time names rfl)
      have hpast := (hset 0).1
      refine ⟨by rw [hpast]; exact hst.stage, (hset 0).2.2 hst.live,
        (hset 0).2.1.trans hst.first, fun k hk => ?_, fun k hk n n' hn hn' => ?_⟩
      · rw [hpast] at hk
        rw [(hset k).2.1]
        exact hst.available k hk
      · rw [hpast] at hk
        rw [(hset k).2.1] at hn
        rw [(hset (k + 1)).2.1] at hn'
        exact hst.register k hk n n' hn hn'
  | regMarker cond =>
      simp only [handleStatement, Substitutions.nextStage, Option.bind_eq_bind,
        Option.bind_eq_some_iff, Option.some.injEq] at h
      obtain ⟨_, ⟨⟨newSubs, regs, nextName⟩, hscope, rfl⟩, enable, henable, rfl⟩ := h
      have hlast : ∀ k ≤ st.subs.past.length,
          Substitutions.lookupReferenced ⟨st.subs.past ++ [st.subs.last], newSubs,
            st.subs.liveVars⟩ k x = st.subs.lookupReferenced k x := by
        intro k hk
        simp only [Substitutions.lookupReferenced]
        rw [List.getElem?_append_left (by simp; omega)]
      have hnew : Substitutions.lookupReferenced ⟨st.subs.past ++ [st.subs.last], newSubs,
          st.subs.liveVars⟩ (st.subs.past.length + 1) x = newSubs x := by
        simp [Substitutions.lookupReferenced]
      obtain ⟨n, hn⟩ := hst.available _ (le_refl _)
      have hn' : st.subs.last x = some (.available n) := by
        simpa [Substitutions.lookupReferenced] using hn
      obtain ⟨new, hscopex, hreg⟩ := nextScope_available hn' hscope (Or.inl hst.live)
      refine ⟨by simp [hst.stage], hst.live, (hlast 0 (Nat.zero_le _)).trans hst.first,
        fun k hk => ?_, fun k hk m m' hm hm' => ?_⟩
      · simp only [List.length_append, List.length_cons, List.length_nil] at hk
        rcases Nat.lt_or_ge k (st.subs.past.length + 1) with hlt | hge
        · rw [hlast k (by omega)]
          exact hst.available k (by omega)
        · obtain rfl : k = st.subs.past.length + 1 := by omega
          exact ⟨new, hnew.trans hscopex⟩
      · simp only [List.length_append, List.length_cons, List.length_nil] at hk
        rw [hlast k (by omega)] at hm
        rcases Nat.lt_or_ge k st.subs.past.length with hlt | hge
        · rw [hlast (k + 1) (by omega)] at hm'
          exact (hst.register k hlt m m' hm hm').mono fun s hs =>
            List.mem_append_left _ (List.mem_append_left _ hs)
        · obtain rfl : k = st.subs.past.length := by omega
          obtain rfl : n = m := by simpa [hn] using hm
          obtain rfl : new = m' := by simpa [hnew, hscopex] using hm'
          rw [← hst.stage, henable]
          exact (pipelineRegisters_dataRegister hreg _).mono fun s hs =>
            List.mem_append_right _ hs
  | other =>
      obtain rfl := Option.some.inj h
      exact hst
  | regMarkerCount => exact absurd h (Option.some_ne_none _).symm
  | declaration => exact absurd h (Option.some_ne_none _).symm

/-- The statements after the first stage. -/
theorem handleStatements_carried {enableNames : List (Option ValueName)} {x : NameID}
    {body : List BodyStatement} {st st' : StageState}
    (h : handleStatements types clock enableNames body st = some st')
    (hbind : ∀ time names, .bind time names ∈ body → x ∉ names)
    (hst : Carried types clock enableNames x st) : Carried types clock enableNames x st' := by
  induction body generalizing st with
  | nil =>
      obtain rfl := Option.some.inj h
      exact hst
  | cons s body ih =>
      simp only [handleStatements, Option.bind_eq_bind, Option.bind_eq_some_iff] at h
      obtain ⟨st₁, hs, h⟩ := h
      refine ih h (fun time names hb => hbind time names (List.mem_cons_of_mem _ hb)) ?_
      refine handleStatement_carried hs (fun time names hb => ?_) hst
      exact hbind time names (hb ▸ List.mem_cons_self)

/-! ### The first stage -/

/-- Whether a statement is a `reg` statement. -/
def BodyStatement.isRegMarker : BodyStatement → Bool
  | .regMarker _ => true
  | _ => false

/-- The statements before the first `reg` statement. -/
def firstStage (body : List BodyStatement) : List BodyStatement :=
  body.takeWhile fun s => !s.isRegMarker

/-- The statements from the first `reg` statement on. -/
def laterStages (body : List BodyStatement) : List BodyStatement :=
  body.dropWhile fun s => !s.isRegMarker

/-- The variable `x` carries data through the whole pipeline: it is an input or is bound in the
first stage, where its value is available at once, it is bound nowhere else, and it is neither a
port nor without bits. -/
structure PipelineData (types : NameID → VariableType) (inputs : List NameID)
    (body : List BodyStatement) (x : NameID) : Prop where
  not_port : (types x).isPort = false
  size_ne_zero : (types x).mirType.size ≠ 0
  bound : x ∈ inputs ∨ ∃ time names, .bind time names ∈ firstStage body ∧ x ∈ names
  available : ∀ time names, .bind time names ∈ firstStage body → x ∈ names → time = 0
  once : ∀ time names, .bind time names ∈ laterStages body → x ∉ names

/-- The variable `x` is available under its own name. -/
def AvailableNow (x : NameID) (subs : Substitutions) : Prop :=
  subs.last x = some (.available x) ∧ x ∈ subs.liveVars

theorem setAvailable_now {x : NameID} (hport : (types x).isPort = false)
    (hsize : (types x).mirType.size ≠ 0) {names : List NameID} {time : ℕ} {subs : Substitutions}
    (htime : x ∈ names → time = 0) (h : x ∈ names ∨ AvailableNow x subs) :
    AvailableNow x
      (names.foldl (fun subs name => subs.setAvailable name time (types name)) subs) := by
  induction names generalizing subs with
  | nil => exact h.resolve_left List.not_mem_nil
  | cons name names ih =>
      rw [List.foldl_cons]
      refine ih (fun hx => htime (List.mem_cons_of_mem _ hx)) ?_
      by_cases hname : x = name
      · subst hname
        right
        have htime := htime List.mem_cons_self
        exact ⟨by simp [Substitutions.setAvailable, hport, hsize, htime],
          List.mem_append_right _ (List.mem_singleton_self _)⟩
      · rcases h with hx | h
        · exact Or.inl ((List.mem_cons.mp hx).resolve_left hname)
        · exact Or.inr ⟨by
            simp only [Substitutions.setAvailable, Function.update_of_ne hname]
            exact h.1, List.mem_append_left _ h.2⟩

theorem setAvailable_past {names : List NameID} {time : ℕ} {subs : Substitutions} :
    (names.foldl (fun subs name => subs.setAvailable name time (types name)) subs).past =
      subs.past := by
  induction names generalizing subs with
  | nil => rfl
  | cons name names ih => exact ih

/-- After the statements of the first stage the variable is available. -/
theorem handleStatements_first {enableNames : List (Option ValueName)} {x : NameID}
    (hport : (types x).isPort = false) (hsize : (types x).mirType.size ≠ 0)
    {body : List BodyStatement} {st st' : StageState}
    (h : handleStatements types clock enableNames body st = some st')
    (hreg : ∀ s ∈ body, s.isRegMarker = false)
    (htime : ∀ time names, .bind time names ∈ body → x ∈ names → time = 0)
    (hx : (∃ time names, .bind time names ∈ body ∧ x ∈ names) ∨ AvailableNow x st.subs) :
    AvailableNow x st'.subs ∧ st'.subs.past = st.subs.past ∧
      st'.currentStage = st.currentStage := by
  induction body generalizing st with
  | nil =>
      obtain rfl := Option.some.inj h
      exact ⟨hx.resolve_left (by simp), rfl, rfl⟩
  | cons s body ih =>
      simp only [handleStatements, Option.bind_eq_bind, Option.bind_eq_some_iff] at h
      obtain ⟨st₁, hs, h⟩ := h
      rw [List.forall_mem_cons] at hreg
      have htail := fun hx => ih h hreg.2
        (fun time names hb => htime time names (List.mem_cons_of_mem _ hb)) hx
      cases s with
      | bind time names =>
          obtain rfl := Option.some.inj hs
          have hnow := @setAvailable_now types _ hport hsize names time st.subs
            (htime time names List.mem_cons_self)
          obtain ⟨havail, hpast, hstage⟩ := htail (by
            rcases hx with ⟨time', names', hb, hx⟩ | hx
            · rcases List.mem_cons.mp hb with hb | hb
              · injection hb with _ hnames
                exact Or.inr (hnow (Or.inl (hnames ▸ hx)))
              · exact Or.inl ⟨time', names', hb, hx⟩
            · exact Or.inr (hnow (Or.inr hx)))
          exact ⟨havail, hpast.trans setAvailable_past, hstage⟩
      | other =>
          obtain rfl := Option.some.inj hs
          refine htail (hx.imp_left ?_)
          rintro ⟨time, names, hb, hx⟩
          exact ⟨time, names, (List.mem_cons.mp hb).resolve_left (by simp), hx⟩
      | regMarker cond => exact absurd hreg.1 (by simp [BodyStatement.isRegMarker])
      | regMarkerCount => exact absurd hs (Option.some_ne_none _).symm
      | declaration => exact absurd hs (Option.some_ne_none _).symm

/-! ### The whole body -/

theorem handleStatements_append {enableNames : List (Option ValueName)}
    {b₁ b₂ : List BodyStatement} {st st' : StageState}
    (h : handleStatements types clock enableNames (b₁ ++ b₂) st = some st') :
    ∃ st₁, handleStatements types clock enableNames b₁ st = some st₁ ∧
      handleStatements types clock enableNames b₂ st₁ = some st' := by
  induction b₁ generalizing st with
  | nil => exact ⟨st, rfl, h⟩
  | cons s b₁ ih =>
      rw [List.cons_append] at h
      simp only [handleStatements, Option.bind_eq_bind, Option.bind_eq_some_iff] at h ⊢
      obtain ⟨st₀, hs, h⟩ := h
      obtain ⟨st₁, h₁, h₂⟩ := ih h
      exact ⟨st₁, ⟨st₀, hs, h₁⟩, h₂⟩

theorem regMarkers_regMarker (cond : Option (List Statement × ValueName))
    (body : List BodyStatement) :
    regMarkers (.regMarker cond :: body) = cond.map Prod.snd :: regMarkers body := rfl

/-- The conditions are collected in order, and every one starts a new stage. -/
theorem handleStatements_conds {enableNames : List (Option ValueName)}
    {body : List BodyStatement} {st st' : StageState}
    (h : handleStatements types clock enableNames body st = some st') :
    st'.localConds = st.localConds ++ regMarkers body ∧
      st'.currentStage = st.currentStage + (regMarkers body).length := by
  induction body generalizing st with
  | nil =>
      obtain rfl := Option.some.inj h
      exact ⟨(List.append_nil _).symm, rfl⟩
  | cons s body ih =>
      simp only [handleStatements, Option.bind_eq_bind, Option.bind_eq_some_iff] at h
      obtain ⟨st₁, hs, h⟩ := h
      obtain ⟨hconds, hstage⟩ := ih h
      cases s with
      | bind time names =>
          obtain rfl := Option.some.inj hs
          exact ⟨hconds, hstage⟩
      | regMarker cond =>
          simp only [handleStatement, Option.bind_eq_bind, Option.bind_eq_some_iff,
            Option.some.injEq] at hs
          obtain ⟨_, -, enable, -, rfl⟩ := hs
          rw [regMarkers_regMarker, List.length_cons, hconds, hstage, List.append_assoc]
          exact ⟨rfl, Nat.add_right_comm ..⟩
      | other =>
          obtain rfl := Option.some.inj hs
          exact ⟨hconds, hstage⟩
      | regMarkerCount => exact absurd hs (Option.some_ne_none _).symm
      | declaration => exact absurd hs (Option.some_ne_none _).symm

theorem firstStage_isRegMarker {body : List BodyStatement} :
    ∀ s ∈ firstStage body, s.isRegMarker = false := by
  intro s hs
  simpa using List.mem_takeWhile_imp hs

theorem regMarkers_firstStage (body : List BodyStatement) : regMarkers (firstStage body) = [] := by
  rw [regMarkers, List.filterMap_eq_nil_iff]
  intro s hs
  have hreg := firstStage_isRegMarker s hs
  cases s with
  | regMarker cond => exact absurd hreg (by simp [BodyStatement.isRegMarker])
  | _ => rfl

theorem foldl_setAvailable_now {x : NameID} (hport : (types x).isPort = false)
    (hsize : (types x).mirType.size ≠ 0) {inputs : List NameID} (h : x ∈ inputs) :
    AvailableNow x (inputs.foldl (fun subs name => subs.setAvailable name 0 (types name))
      Substitutions.new) :=
  setAvailable_now hport hsize (fun _ => rfl) (Or.inl h)

/-- The whole body carries the variable through all stages. -/
theorem handleStatements_body {enableNames : List (Option ValueName)} {x : NameID}
    {inputs : List NameID} {body : List BodyStatement} (hx : PipelineData types inputs body x)
    {ids : Ids} {st' : StageState}
    (h : handleStatements types clock enableNames body
      ⟨inputs.foldl (fun subs name => subs.setAvailable name 0 (types name)) Substitutions.new,
        ids, [], [], 0⟩ = some st') :
    Carried types clock enableNames x st' ∧ st'.localConds = regMarkers body ∧
      st'.subs.past.length = (regMarkers body).length := by
  obtain ⟨hconds, hstage⟩ := handleStatements_conds h
  rw [List.nil_append] at hconds
  rw [Nat.zero_add] at hstage
  have hsplit : body = firstStage body ++ laterStages body := by
    rw [firstStage, laterStages, List.takeWhile_append_dropWhile]
  rw [hsplit] at h
  obtain ⟨st₁, hfirst, hlater⟩ := handleStatements_append h
  obtain ⟨⟨havail, hlive⟩, hpast, hcurrent⟩ :=
    handleStatements_first hx.not_port hx.size_ne_zero hfirst firstStage_isRegMarker hx.available
      (hx.bound.symm.imp_right fun hin =>
        foldl_setAvailable_now hx.not_port hx.size_ne_zero hin)
  rw [setAvailable_past] at hpast
  have hpast : st₁.subs.past = [] := hpast
  have hlookup : st₁.subs.lookupReferenced 0 x = some (.available x) := by
    simp [Substitutions.lookupReferenced, hpast, havail]
  have hcarried : Carried types clock enableNames x st' :=
    handleStatements_carried hlater hx.once
      { stage := by rw [hcurrent, hpast]; rfl
        live := hlive
        first := hlookup
        available := fun k hk => by
          rw [hpast] at hk
          obtain rfl : k = 0 := Nat.le_zero.mp hk
          exact ⟨x, hlookup⟩
        register := fun k hk => by
          rw [hpast] at hk
          exact absurd hk (Nat.not_lt_zero k) }
  exact ⟨hcarried, hconds, hcarried.stage.symm.trans hstage⟩

/-! ### The generated hardware -/

/-- Every stage has a valid register, or without any condition none has one and no stage waits. -/
def ValidHardware (stmts : List Statement) (clock : ValueName)
    (ready valid conds : List (Option ValueName)) : Prop :=
  (∀ i : ℕ, ready[i]?.join = none ∧ valid[i]?.join = none) ∨
  ∀ i (hi : i < conds.length), ∃ name, valid[i + 1]?.join = some name ∧
    ValidRegister stmts clock (valid[i]?.join) (ready[i]?.join) (ready[i + 1]?.join) conds[i] name

/-- What the statements of a lowered pipeline contain for its stages and for the variable `x`. -/
structure StageHardware (I : Interp H) (types : NameID → VariableType) (clock : ValueName)
    (conds : List (Option ValueName)) (x : NameID) (out : LoweredPipeline) : Prop where
  ready : ∀ hid ρ, AllSatisfied I hid ρ out.statements → ∀ i ≤ conds.length,
    optTruth ρ (out.readySignals[i]?.join) = (conds.drop i).all (optTruth ρ)
  valid_first : out.validSignals[0]?.join = none
  valid : ValidHardware out.statements clock out.readySignals out.validSignals conds
  data_first : out.subs.lookupReferenced 0 x = some (.available x)
  data : ∀ i < conds.length, ∃ n n', out.subs.lookupReferenced i x = some (.available n) ∧
    out.subs.lookupReferenced (i + 1) x = some (.available n') ∧
    DataRegister out.statements clock (out.readySignals[i]?.join) (types x).mirType n n'

theorem getElem?_append_none (names : List (Option ValueName)) (i : ℕ) :
    (names ++ [none])[i]?.join = names[i]?.join := by
  rcases Nat.lt_trichotomy i names.length with h | rfl | h
  · rw [List.getElem?_append_left h]
  · simp
  · rw [List.getElem?_eq_none (by rw [List.length_append, List.length_singleton]; omega),
      List.getElem?_eq_none (le_of_lt h)]

theorem join_getElem?_of_forall_none {names : List (Option ValueName)}
    (h : ∀ r ∈ names, r = none) (i : ℕ) : names[i]?.join = none := by
  rcases hr : names[i]? with _ | r
  · rfl
  · rw [h r (List.mem_of_getElem? hr)]
    rfl

theorem validSignals_hardware {clock : ValueName} {conds names : List (Option ValueName)}
    (hfirst : (names[0]?.join).isSome = conds.any Option.isSome)
    (hnone : (∀ c ∈ conds, c = none) → ∀ r ∈ names, r = none) {ids ids' : Ids}
    {valids : List (Option ValueName)} {stmts : List Statement}
    (h : validSignals clock (names ++ [none]) conds 0 none ids = some (valids, stmts, ids')) :
    ValidHardware stmts clock (names ++ [none]) (none :: valids) conds := by
  by_cases hcond : ∀ cond ∈ conds, cond = none
  · left
    have hready : ∀ r ∈ names ++ [none], r = none :=
      List.forall_mem_append.mpr ⟨hnone hcond, by simp⟩
    obtain ⟨_, hvalids⟩ := @validSignals_none clock _ hready _ hcond 0 ids
    obtain ⟨rfl, -⟩ : valids = List.replicate conds.length none ∧ _ := by
      simpa [hvalids] using h.symm
    exact fun i => ⟨join_getElem?_of_forall_none hready i,
      join_getElem?_of_forall_none (by simp) i⟩
  · right
    have hsome : ((names ++ [none])[0]?.join).isSome := by
      rw [getElem?_append_none, hfirst, List.any_eq_true]
      simpa [Option.ne_none_iff_isSome] using hcond
    obtain ⟨valids', stmts', _, hvalids, -, hregs⟩ :=
      @validSignals_some clock _ conds 0 none ids (Or.inr hsome)
    obtain ⟨rfl, rfl, -⟩ : valids = valids'.map some ∧ stmts = stmts' ∧ _ := by
      simpa [hvalids] using h.symm
    intro i hi
    obtain ⟨name, hname, hreg⟩ := hregs i hi
    rw [Nat.zero_add] at hreg
    exact ⟨name, by simp [hname], hreg⟩

theorem lowerPipeline_hardware (I : Interp H) {x : NameID} {inputs : List NameID}
    {body : List BodyStatement} {ids : Ids} {out : LoweredPipeline}
    (hx : PipelineData types inputs body x) (h : lowerPipeline types inputs body ids = some out) :
    ∃ clock, inputs.head? = some clock ∧
      StageHardware I types clock.valueName (regMarkers body) x out ∧
      out.subs.past.length = (regMarkers body).length := by
  simp only [lowerPipeline, Option.bind_eq_bind, Option.bind_eq_some_iff, Option.some.injEq] at h
  obtain ⟨clock, hclock, st, hst, ⟨current, enables⟩, henables, ⟨valids, validStmts, ids'⟩,
    hvalids, rfl⟩ := h
  obtain ⟨hcarried, hconds, hlen⟩ := handleStatements_body hx hst
  obtain ⟨stmts, hstmts, htruth⟩ := enableSignals_spec I (regMarkers body).length
    (regMarkers body) ids.name
  obtain ⟨hany, hfirst⟩ := stageEnableNames_isSome (regMarkers body).length
    (regMarkers body) ids.name
  have hnone := fun h => @stageEnableNames_none (regMarkers body) h
    (regMarkers body).length ids.name
  have hnames := stageEnableNames_length (regMarkers body).length (regMarkers body) ids.name
  generalize (stageEnableNames (regMarkers body).length (regMarkers body) ids.name).1 = names at *
  rw [hconds] at henables hvalids
  obtain ⟨rfl, rfl⟩ : current = names[0]?.join ∧ enables = stmts := by
    simpa [hstmts, eq_comm] using henables
  refine ⟨clock, hclock, ?_, hlen⟩
  refine
    { ready := fun hid ρ hs i hi => ?_
      valid_first := rfl
      valid := ?_
      data_first := hcarried.first
      data := fun i hi => ?_ }
  · rw [getElem?_append_none]
    exact htruth hid ρ
      (fun s hs' => hs s (List.mem_append_left _ (List.mem_append_right _ hs'))) i hi
  · exact (validSignals_hardware hfirst hnone hvalids).imp_right fun h i hi =>
      (h i hi).imp fun name => And.imp_right fun hreg =>
        hreg.mono fun s hs => List.mem_append_right _ hs
  · rw [← hlen] at hi
    obtain ⟨n, hn⟩ := hcarried.available i (le_of_lt hi)
    obtain ⟨n', hn'⟩ := hcarried.available (i + 1) hi
    refine ⟨n, n', hn, hn', ?_⟩
    rw [getElem?_append_none]
    exact (hcarried.register i hi n n' hn hn').mono fun s hs =>
      List.mem_append_left _ (List.mem_append_left _ hs)

/-! ### The protocol -/

/-- The value of a register in the next cycle, when its clock ticks. -/
theorem register_next {I : Interp H} {edges : ℕ → Edges} {stmts : List Statement}
    {ρ : ℕ → ValueName → BitString} {hid : ℕ → ValueName → H} (run : Run I edges stmts ρ hid)
    (htick : ∀ t, edges t clock none = true) {name value : ValueName} {ty : Ty}
    (h : .register
      { name := name
        ty := ty
        clock := clock
        reset := none
        initial := none
        value := value
        traced := none } ∈ stmts) (t : ℕ) : ρ (t + 1) name = ρ t value := by
  rw [run.register t _ h, Register.next]
  exact if_pos (htick t)

/-- Whether the stage is ready: its ready signal. -/
def LoweredPipeline.isReady (out : LoweredPipeline) (ρ : ValueName → BitString) (stage : ℕ) :
    Bool :=
  optTruth ρ (out.readySignals[stage]?.join)

/-- Whether the stage holds data in cycle `t`. Without a valid register it does as soon as data
has had the time to reach it. -/
def LoweredPipeline.isValid (out : LoweredPipeline) (ρ : ValueName → BitString) (t stage : ℕ) :
    Bool :=
  match out.validSignals[stage]?.join with
  | some name => truth ρ name
  | none => decide (stage ≤ t)

/-- The value of a variable in a stage. -/
def LoweredPipeline.dataOf (out : LoweredPipeline) (x : NameID) (ρ : ValueName → BitString)
    (stage : ℕ) : BitString :=
  match out.subs.lookupReferenced stage x with
  | some (.available name) => ρ name.valueName
  | _ => []

/-- The run of a lowered pipeline that the protocol is about: the statements of the pipeline are
part of a larger design, the clock ticks in every cycle, and the valid registers start at false. -/
structure PipelineRun (I : Interp H) (edges : ℕ → Edges) (clock : ValueName)
    (out : LoweredPipeline) (stmts : List Statement) (ρ : ℕ → ValueName → BitString)
    (hid : ℕ → ValueName → H) : Prop where
  run : Run I edges stmts ρ hid
  contains : ∀ s ∈ out.statements, s ∈ stmts
  tick : ∀ t, edges t clock none = true
  valid_initial : ∀ (stage : ℕ) (name : ValueName), out.validSignals[stage]?.join = some name →
    truth (ρ 0) name = false

section Protocol

variable {I : Interp H} {edges : ℕ → Edges} {out : LoweredPipeline} {stmts : List Statement}
  {ρ : ℕ → ValueName → BitString} {hid : ℕ → ValueName → H} {conds : List (Option ValueName)}
  {x : NameID}

theorem PipelineRun.satisfied (run : PipelineRun I edges clock out stmts ρ hid) (t : ℕ) :
    AllSatisfied I (hid t) (ρ t) out.statements :=
  fun s hs => run.run.satisfied t s (run.contains s hs)

theorem StageHardware.ready_last (hw : StageHardware I types clock conds x out)
    (run : PipelineRun I edges clock out stmts ρ hid) (t : ℕ) :
    out.isReady (ρ t) conds.length = true := by
  rw [LoweredPipeline.isReady, hw.ready _ _ (run.satisfied t) _ (le_refl _), List.drop_length]
  rfl

/-- A stage is ready when its condition holds and the next stage is ready. -/
theorem StageHardware.ready_eq (hw : StageHardware I types clock conds x out)
    (run : PipelineRun I edges clock out stmts ρ hid) (t : ℕ) {i : ℕ} (hi : i < conds.length) :
    out.isReady (ρ t) i = (optTruth (ρ t) conds[i] && out.isReady (ρ t) (i + 1)) := by
  rw [LoweredPipeline.isReady, LoweredPipeline.isReady, hw.ready _ _ (run.satisfied t) i hi.le,
    hw.ready _ _ (run.satisfied t) (i + 1) hi, List.drop_eq_getElem_cons hi, List.all_cons]

theorem StageHardware.valid_zero (hw : StageHardware I types clock conds x out) (t : ℕ) :
    out.isValid (ρ t) t 0 = true := by
  rw [LoweredPipeline.isValid, hw.valid_first]
  exact decide_eq_true (Nat.zero_le t)

theorem StageHardware.valid_initial (hw : StageHardware I types clock conds x out)
    (run : PipelineRun I edges clock out stmts ρ hid) {i : ℕ} (hi : i < conds.length) :
    out.isValid (ρ 0) 0 (i + 1) = false := by
  rw [LoweredPipeline.isValid]
  rcases hw.valid with hnone | hregs
  · rw [(hnone (i + 1)).2]
    exact decide_eq_false (Nat.not_succ_le_zero i)
  · obtain ⟨name, hname, -⟩ := hregs i hi
    rw [hname]
    exact run.valid_initial _ _ hname

/-- The valid signal of the stage before, as the next value of a valid register reads it. -/
theorem StageHardware.isValid_eq_optTruth (hw : StageHardware I types clock conds x out)
    (hregs : ∀ i (_ : i < conds.length), ∃ name, out.validSignals[i + 1]?.join = some name)
    {i : ℕ} (hi : i ≤ conds.length) (t : ℕ) :
    out.isValid (ρ t) t i = optTruth (ρ t) (out.validSignals[i]?.join) := by
  cases i with
  | zero => rw [hw.valid_zero, hw.valid_first, optTruth_none]
  | succ i =>
      obtain ⟨name, hname⟩ := hregs i hi
      rw [LoweredPipeline.isValid, hname, optTruth_some]

/-- A ready stage hands its valid signal on, and a stage that moves on while the stage before it
stalls becomes invalid. -/
theorem StageHardware.valid_next (hw : StageHardware I types clock conds x out)
    (run : PipelineRun I edges clock out stmts ρ hid) (t : ℕ) {i : ℕ} (hi : i < conds.length) :
    out.isValid (ρ (t + 1)) (t + 1) (i + 1) =
      if out.isReady (ρ t) i then out.isValid (ρ t) t i
      else out.isValid (ρ t) t (i + 1) && !out.isReady (ρ t) (i + 1) := by
  rcases hw.valid with hnone | hregs
  · have hready : out.isReady (ρ t) i = true := by
      rw [LoweredPipeline.isReady, (hnone i).1, optTruth_none]
    rw [if_pos hready, LoweredPipeline.isValid, LoweredPipeline.isValid, (hnone i).2,
      (hnone (i + 1)).2]
    simp
  · have hnames : ∀ i (_ : i < conds.length), ∃ name,
        out.validSignals[i + 1]?.join = some name :=
      fun i hi => (hregs i hi).imp fun _ h => h.1
    have hsized : ∀ j ≤ conds.length, ∀ name, out.validSignals[j]?.join = some name →
        (ρ t name).length = 1 := by
      intro j hj name hname
      cases j with
      | zero => exact absurd (hname.symm.trans hw.valid_first) (Option.some_ne_none _)
      | succ j =>
          obtain ⟨name', hname', _, _, _, _, hreg⟩ := hregs j hj
          obtain rfl : name' = name := Option.some.inj (hname'.symm.trans hname)
          exact run.run.sized t _ (run.contains _ hreg)
    obtain ⟨name, hname, next, value, hvalue, hs, hreg⟩ := hregs i hi
    have hnext := validNext_truth (fun s h => run.satisfied t s (hs s h)) (hsized i hi.le) (hsized (i + 1) hi name hname)
    rw [hvalue] at hnext
    have hvalid : out.isValid (ρ (t + 1)) (t + 1) (i + 1) = truth (ρ t) value := by
      rw [LoweredPipeline.isValid, hname]
      simp only [truth, register_next run.run run.tick (run.contains _ hreg)]
    rw [hvalid, hw.isValid_eq_optTruth hnames hi.le, hw.isValid_eq_optTruth hnames hi,
      hname, optTruth_some]
    refine hnext.trans ?_
    rw [← LoweredPipeline.isReady, ← LoweredPipeline.isReady, hw.ready_eq run t hi]
    rcases optTruth (ρ t) conds[i] <;> rcases out.isReady (ρ t) (i + 1) <;> simp

/-- The values of the variable have the size of its type in every stage. -/
theorem StageHardware.data_length (hw : StageHardware I types clock conds x out)
    (run : PipelineRun I edges clock out stmts ρ hid)
    (hlen : ∀ t, (ρ t x.valueName).length = (types x).mirType.size) (t : ℕ) {i : ℕ}
    (hi : i ≤ conds.length) {n : NameID}
    (hn : out.subs.lookupReferenced i x = some (.available n)) :
    (ρ t n.valueName).length = (types x).mirType.size := by
  cases i with
  | zero =>
      obtain rfl : n = x := by simpa [hw.data_first, eq_comm] using hn
      exact hlen t
  | succ i =>
      obtain ⟨_, n', -, hn', _, hreg, -⟩ := hw.data i hi
      obtain rfl : n' = n := by simpa [hn'] using hn
      exact run.run.sized t _ (run.contains _ hreg)

/-- A ready stage hands its data on, and a stage that is not ready keeps it. -/
theorem StageHardware.data_next (hw : StageHardware I types clock conds x out)
    (run : PipelineRun I edges clock out stmts ρ hid)
    (hlen : ∀ t, (ρ t x.valueName).length = (types x).mirType.size) (t : ℕ) {i : ℕ}
    (hi : i < conds.length) :
    out.dataOf x (ρ (t + 1)) (i + 1) =
      if out.isReady (ρ t) i then out.dataOf x (ρ t) i else out.dataOf x (ρ t) (i + 1) := by
  obtain ⟨n, n', hn, hn', value, hreg, hvalue⟩ := hw.data i hi
  simp only [LoweredPipeline.dataOf, hn, hn', LoweredPipeline.isReady]
  rw [register_next run.run run.tick (run.contains _ hreg)]
  rcases hready : out.readySignals[i]?.join with _ | enable
  · rw [hready] at hvalue
    rw [optTruth_none, if_pos rfl, show value = n.valueName from hvalue]
  · rw [hready] at hvalue
    have hmux := run.satisfied t _ hvalue
    rw [show ρ t value = _ from hmux]
    simp only [List.map_cons, List.map_nil]
    rw [I.denote_select _ (hw.data_length run hlen t hi.le hn)
      (hw.data_length run hlen t hi hn'), optTruth_some, truth]
    simp [bne]

/-- The stages of a lowered pipeline are a pipeline that stalls. -/
def StageHardware.pipeline (hw : StageHardware I types clock conds x out)
    (run : PipelineRun I edges clock out stmts ρ hid)
    (hlen : ∀ t, (ρ t x.valueName).length = (types x).mirType.size) :
    Pipeline BitString conds.length where
  enable t := out.isReady (ρ t)
  valid t := out.isValid (ρ t) t
  data t := out.dataOf x (ρ t)
  enable_last := hw.ready_last run
  enable_next t i hi h := by
    rw [hw.ready_eq run t hi, Bool.and_eq_true] at h
    exact h.2
  valid_first := hw.valid_zero
  valid_initial _ hi := hw.valid_initial run hi
  valid_next t _ hi := hw.valid_next run t hi
  data_next t _ hi := hw.data_next run hlen t hi

end Protocol

/-- **The stall protocol.** In every run of a lowered pipeline, with arbitrary conditions and data:
the ready signal of a stage is the conjunction of the conditions from this stage on, the data
that arrived in the last stage is a prefix of the data that was taken in the first stage, and the
rest of what was taken is what the stages in between hold, in order. -/
theorem pipeline_protocol (I : Interp H) (edges : ℕ → Edges) (types : NameID → VariableType)
    (inputs : List NameID) (body : List BodyStatement) (ids : Ids) (out : LoweredPipeline)
    (hout : lowerPipeline types inputs body ids = some out) (x : NameID)
    (hx : PipelineData types inputs body x) (clock : NameID) (hclock : inputs.head? = some clock)
    (stmts : List Statement) (ρ : ℕ → ValueName → BitString) (hid : ℕ → ValueName → H)
    (run : PipelineRun I edges clock.valueName out stmts ρ hid)
    (hlen : ∀ t, (ρ t x.valueName).length = (types x).mirType.size) :
    (∀ t, ∀ i ≤ (regMarkers body).length, out.isReady (ρ t) i =
      ((regMarkers body).drop i).all (optTruth (ρ t))) ∧
    (∀ t, out.dataOf x (ρ t) 0 = ρ t x.valueName) ∧
    (∀ t, sampled (fun t => out.isValid (ρ t) t (regMarkers body).length)
        (fun t => out.dataOf x (ρ t) (regMarkers body).length) t <+:
      sampled (fun t => out.isReady (ρ t) 0) (fun t => out.dataOf x (ρ t) 0) t) ∧
    ∀ t, sampled (fun t => out.isReady (ρ t) 0) (fun t => out.dataOf x (ρ t) 0) t =
      sampled (fun t => out.isValid (ρ t) t (regMarkers body).length)
        (fun t => out.dataOf x (ρ t) (regMarkers body).length) t ++
      sampled (fun j => out.isValid (ρ t) t ((regMarkers body).length - j))
        (fun j => out.dataOf x (ρ t) ((regMarkers body).length - j))
        (regMarkers body).length := by
  obtain ⟨clock', hclock', hw, -⟩ := lowerPipeline_hardware I hx hout
  obtain rfl : clock' = clock := Option.some.inj (hclock'.symm.trans hclock)
  refine ⟨fun t i hi => hw.ready _ _ (run.satisfied t) i hi, fun t => ?_, fun t => ?_, fun t => ?_⟩
  · rw [LoweredPipeline.dataOf, hw.data_first]
  · exact (hw.pipeline run hlen).emitted_prefix_accepted t
  · exact (hw.pipeline run hlen).conservation t

/-! ### A pipeline that waits for one cycle -/

/-- One stage that waits for the condition `c`. -/
def waiting : LoweredPipeline :=
  (lowerPipeline (fun _ => ⟨false, .bool⟩) [⟨0, "clk"⟩, ⟨1, "x"⟩]
    [.regMarker (some ([], .named 2 "c"))] ⟨3, 0⟩).get rfl

/-- A cycle of `waiting` by its condition and whether the stage holds data. The registers have
the ids from 4 to 6. -/
def waitingCycle (cond full : Bool) : ValueName → BitString
  | .named 0 _ | .named 1 _ => [true]
  | .named 2 _ | .named 3 _ => [cond]
  | .named _ _ => [full]
  | .expr 3 => [true]
  | .expr 4 => [!cond]
  | .expr 5 => [cond]
  | .expr 6 => [cond && (cond || full)]
  | .expr _ => [cond || full]

/-- The first two cycles of `waiting`, and all later ones. -/
def waitingState : Fin 3 → ValueName → BitString
  | 0 => waitingCycle false false
  | 1 => waitingCycle true false
  | 2 => waitingCycle true true

theorem waiting_cycle : ∀ t : Fin 3,
    (∀ s ∈ waiting.statements, Satisfied plainInterp (fun _ => ()) (waitingState t) s) ∧
      ∀ s ∈ waiting.statements, Advances plainInterp (fun _ _ => true) (waitingState t)
        (waitingState (if t = 0 then 1 else 2)) (fun _ => ()) (fun _ => ()) s := by
  decide

/-- The run that consists of these cycles. -/
def waitingRun : ℕ → ValueName → BitString
  | 0 => waitingState 0
  | 1 => waitingState 1
  | _ + 2 => waitingState 2

theorem waiting_run : PipelineRun plainInterp (fun _ _ _ => true) (.named 0 "clk") waiting
    waiting.statements waitingRun fun _ _ => () where
  run := run_iff_statements.mpr fun
    | 0 => waiting_cycle 0
    | 1 => waiting_cycle 1
    | _ + 2 => waiting_cycle 2
  contains _ hs := hs
  tick _ := rfl
  valid_initial
    | 0, _, h => absurd h.symm (Option.some_ne_none _)
    | 1, _, h => by
        obtain rfl := Option.some.inj h
        rfl
    | _ + 2, _, h => absurd h.symm (Option.some_ne_none _)

/-- The stage takes data in three of the first four cycles, and two of it have left. -/
theorem pipeline_protocol_waiting :
    sampled (fun t => waiting.isReady (waitingRun t) 0) (fun _ => true) 4 = [true, true, true] ∧
      sampled (fun t => waiting.isValid (waitingRun t) t 1)
          (fun t => waiting.dataOf ⟨1, "x"⟩ (waitingRun t) 1) 4 <+:
        sampled (fun t => waiting.isReady (waitingRun t) 0)
          (fun t => waiting.dataOf ⟨1, "x"⟩ (waitingRun t) 0) 4 :=
  ⟨by decide,
    (pipeline_protocol plainInterp (fun _ _ _ => true) (fun _ => ⟨false, .bool⟩)
      [⟨0, "clk"⟩, ⟨1, "x"⟩] [.regMarker (some ([], .named 2 "c"))] ⟨3, 0⟩ waiting
      (Option.some_get _).symm ⟨1, "x"⟩
      { not_port := rfl
        size_ne_zero := by decide
        bound := Or.inl (by simp)
        available := fun _ _ h => absurd h (by simp [firstStage, BodyStatement.isRegMarker])
        once := fun _ _ h => absurd h (by simp [laterStages, BodyStatement.isRegMarker]) }
      ⟨0, "clk"⟩ rfl waiting.statements waitingRun (fun _ _ => ()) waiting_run fun
        | 0 | 1 | _ + 2 => rfl).2.2.1 4⟩

end Spade.HirLowering

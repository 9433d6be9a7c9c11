import Spade.HirLowering.Lookups
import Spade.HirLowering.PipelineProtocol
import Mathlib.Data.List.Nodup

/-!
# The versions of a variable in the stages of a pipeline

A variable that is bound in one stage of a pipeline and used in a later one has a register for
every stage in between. Which of them an identifier stands for is looked up in the table of
substitutions.

* **The table** (`firstPass_tabled`): in every stage the finished table has the version of a
  variable for this stage.
* **Lookups** (`own_stage_versions`): every identifier stands for the version of its own stage, and
  every stage that is looked into exists, exactly when the conditions of the `reg` statements are
  such that it does not matter that they are lowered in the first stage, with an unfinished table.
* **Conditions** (`not_own_stage_versions`): the condition of the second `reg` statement of a
  pipeline uses the value of its input from the first stage.
-/

namespace Spade.HirLowering

open Hir

/-! ### Versions -/

/-- The variables that the statements bind, each with the stage it is bound in and the time until
its value is available. -/
def declarations (ctx : PipelineTypes) : List Statement → ℕ → List (NameID × ℕ × ℕ)
  | [], _ => []
  | s :: statements, stage =>
      (match s.bound with
        | some (names, value) =>
            (availableIn ctx.typeOfId value).toList.flatMap fun time =>
              names.map fun name => (name, stage, time)
        | none => []) ++
      declarations ctx statements (if s.isRegMarker then stage + 1 else stage)

/-- The variables of a pipeline, with its inputs. -/
def pipelineVariables (ctx : PipelineTypes) (inputs : List NameID) (body : List Statement) :
    List (NameID × ℕ × ℕ) :=
  inputs.map (fun name => (name, 0, 0)) ++ declarations ctx body 0

/-- The copies of a variable: itself in the stage `first`, in which its value is available, and
the register that is fed by the copy of one stage in the next one. -/
inductive Copy (registers : List (List SubRegister)) (x : NameID) (first : ℕ) :
    ℕ → NameID → Prop where
  | original : Copy registers x first first x
  | register {k : ℕ} {l : List SubRegister} {r : SubRegister}
      (h : Copy registers x first k r.previous) (hl : registers[k]? = some l) (hr : r ∈ l)
      (hx : r.original = x) : Copy registers x first (k + 1) r.new

/-- Ports and values without bits are not registered. -/
def Unregistered (ctx : PipelineTypes) (x : NameID) : Prop :=
  (ctx.nameType x).isPort = true ∨ (ctx.nameType x).mirType.size = 0

/-- What a variable that is bound in stage `s`, with a value that is available after `t` cycles,
stands for in a stage: itself when it is not registered, nothing when its value is not available
yet, and otherwise the copy of this stage. -/
def VersionAt (ctx : PipelineTypes) (registers : List (List SubRegister)) (x : NameID)
    (s t stage : ℕ) (r : Option Mir.ValueName) : Prop :=
  (Unregistered ctx x ∧ r = some x.valueName) ∨
  (¬ Unregistered ctx x ∧ stage < s + t ∧ r = none) ∨
  (¬ Unregistered ctx x ∧ s + t ≤ stage ∧
    ∃ n, r = some n.valueName ∧ Copy registers x (s + t) stage n)

/-- What an identifier has to stand for in a stage: the version of a variable that has been bound
in this stage or before, and itself otherwise. -/
def OwnVersion (ctx : PipelineTypes) (vars : List (NameID × ℕ × ℕ))
    (registers : List (List SubRegister)) (x : NameID) (stage : ℕ) (r : Option Mir.ValueName) :
    Prop :=
  (∀ s t, (x, s, t) ∈ vars → s ≤ stage → VersionAt ctx registers x s t stage r) ∧
    ((∀ s t, (x, s, t) ∈ vars → stage < s) → r = some x.valueName)

/-- The number of stages that a table of substitutions has so far. -/
def Substitutions.stages (subs : Substitutions) : ℕ := subs.past.length + 1

/-- A variable is looked up in a stage that exists, and an identifier stands for the version of its
own stage. -/
def Site.Right (ctx : PipelineTypes) (vars : List (NameID × ℕ × ℕ))
    (registers : List (List SubRegister)) (site : Site) : Prop :=
  match site.lookup with
  | .identifier x => ∃ sub, site.subs.lookup site.currentStage x = some sub ∧
      OwnVersion ctx vars registers x site.stage (sub.variable x)
  | .reference _ _ depthTypeexprId =>
      ∃ depth, inferredUsize (ctx.typeOfId depthTypeexprId) = some depth ∧
        depth < site.subs.stages

/-! ### The table of substitutions -/

/-- The substitution of a variable in the stage it is bound in. -/
def initialSub (ctx : PipelineTypes) (x : NameID) (time : ℕ) : Substitution :=
  if (ctx.nameType x).isPort then .port
  else if (ctx.nameType x).mirType.size = 0 then .zeroSized
  else if time = 0 then .available x
  else .waiting time x

/-- The substitution of a variable in a stage, for the version it stands for. -/
def SubAt (ctx : PipelineTypes) (registers : List (List SubRegister)) (x : NameID)
    (s t stage : ℕ) (sub : Substitution) : Prop :=
  if (ctx.nameType x).isPort then sub = .port
  else if (ctx.nameType x).mirType.size = 0 then sub = .zeroSized
  else if stage < s + t then sub = .waiting (s + t - stage) x
  else ∃ n, sub = .available n ∧ Copy registers x (s + t) stage n

/-- The table has the substitutions of the given variables in all stages so far. -/
structure Tabled (ctx : PipelineTypes) (vars : List (NameID × ℕ × ℕ))
    (registers : List (List SubRegister)) (subs : Substitutions) : Prop where
  live : ∀ x, x ∈ subs.liveVars ↔ ∃ v ∈ vars, v.1 = x
  stage_le : ∀ v ∈ vars, v.2.1 ≤ subs.past.length
  version : ∀ x s t, (x, s, t) ∈ vars → ∀ k, s ≤ k → k ≤ subs.past.length →
    ∃ sub, subs.lookupReferenced k x = some sub ∧ SubAt ctx registers x s t k sub
  before : ∀ x k, (∀ s t, (x, s, t) ∈ vars → k < s) → subs.lookupReferenced k x = none

section

variable {ctx : PipelineTypes} {registers : List (List SubRegister)}

theorem Copy.mono {x n : NameID} {first k : ℕ} (h : Copy registers x first k n)
    (more : List (List SubRegister)) : Copy (registers ++ more) x first k n := by
  induction h with
  | original => exact .original
  | register _ hl hr hx ih =>
      refine .register ih ?_ hr hx
      rw [List.getElem?_append_left (List.getElem?_eq_some_iff.mp hl).1, hl]

theorem SubAt.mono {x : NameID} {s t k : ℕ} {sub : Substitution}
    (h : SubAt ctx registers x s t k sub) (more : List (List SubRegister)) :
    SubAt ctx (registers ++ more) x s t k sub := by
  unfold SubAt at h ⊢
  split_ifs at h ⊢
  · exact h
  · exact h
  · exact h
  · obtain ⟨n, hn, hcopy⟩ := h
    exact ⟨n, hn, hcopy.mono more⟩

/-- The variable that the substitution of a stage stands for is the version of this stage. -/
theorem SubAt.versionAt {x : NameID} {s t k : ℕ} {sub : Substitution}
    (h : SubAt ctx registers x s t k sub) : VersionAt ctx registers x s t k (sub.variable x) := by
  unfold SubAt at h
  split_ifs at h with hport hsize hwait
  · subst h
    exact Or.inl ⟨Or.inl hport, rfl⟩
  · subst h
    exact Or.inl ⟨Or.inr hsize, rfl⟩
  · subst h
    exact Or.inr (Or.inl ⟨not_or.mpr ⟨hport, hsize⟩, hwait, rfl⟩)
  · obtain ⟨n, rfl, hcopy⟩ := h
    exact Or.inr (Or.inr ⟨not_or.mpr ⟨hport, hsize⟩, by omega, n, rfl, hcopy⟩)

theorem subAt_initialSub (x : NameID) (s t : ℕ) :
    SubAt ctx registers x s t s (initialSub ctx x t) := by
  unfold SubAt initialSub
  split_ifs with hport hsize hwait hzero hzero
  · rfl
  · rfl
  · omega
  · rw [Nat.add_sub_cancel_left]
  · subst hzero
    exact ⟨x, rfl, .original⟩
  · omega

/-- The substitutions of one stage become the substitutions of the next one. -/
theorem SubAt.next {x : NameID} {s t k m stageNum : ℕ} {sub : Substitution}
    (h : SubAt ctx registers x s t k sub) {l : List SubRegister} (hl : registers[k]? = some l)
    (hreg : ∀ r ∈ (nextSub stageNum x m sub).2.1, r ∈ l) :
    SubAt ctx registers x s t (k + 1) (nextSub stageNum x m sub).1 := by
  unfold SubAt at h ⊢
  split_ifs at h ⊢ with hport hsize hwait hnow hnext
  · subst h
    rfl
  · subst h
    rfl
  · obtain ⟨d, hd⟩ : ∃ d, s + t - k = d + 2 := ⟨s + t - k - 2, by omega⟩
    rw [h, hd, show s + t - (k + 1) = d + 1 by omega]
    rfl
  · omega
  · rw [h, show s + t - k = 1 by omega, show s + t = k + 1 by omega]
    exact ⟨x, rfl, .original⟩
  · obtain ⟨n, rfl, hcopy⟩ := h
    exact ⟨_, rfl, .register hcopy hl (hreg _ rfl) rfl⟩

/-! ### Statements that bind variables -/

theorem foldl_setAvailable_last {x : NameID} {names : List NameID} {time : ℕ}
    {subs : Substitutions} (h : x ∈ names ∨ subs.last x = some (initialSub ctx x time)) :
    (names.foldl (fun subs name => subs.setAvailable name time (ctx.nameType name)) subs).last x =
      some (initialSub ctx x time) := by
  induction names generalizing subs with
  | nil => exact h.resolve_left List.not_mem_nil
  | cons name names ih =>
      apply ih
      by_cases hname : x = name
      · subst hname
        exact Or.inr (Function.update_self ..)
      · rcases h with h | h
        · exact Or.inl ((List.mem_cons.mp h).resolve_left hname)
        · exact Or.inr ((Function.update_of_ne hname ..).trans h)

theorem foldl_setAvailable_live (names : List NameID) (time : ℕ) (subs : Substitutions) :
    (names.foldl (fun subs name => subs.setAvailable name time (ctx.nameType name))
      subs).liveVars = subs.liveVars ++ names := by
  induction names generalizing subs with
  | nil => rw [List.foldl_nil, List.append_nil]
  | cons name names ih =>
      rw [List.foldl_cons, ih, Substitutions.setAvailable, List.append_assoc, List.singleton_append]

theorem lookupReferenced_past {subs subs' : Substitutions} (h : subs'.past = subs.past) {k : ℕ}
    (hk : k < subs.past.length) (x : NameID) :
    subs'.lookupReferenced k x = subs.lookupReferenced k x := by
  unfold Substitutions.lookupReferenced
  rw [h, List.getElem?_append_left hk, List.getElem?_append_left hk]

theorem lookupReferenced_last (subs : Substitutions) (x : NameID) :
    subs.lookupReferenced subs.past.length x = subs.last x := by
  unfold Substitutions.lookupReferenced
  rw [List.getElem?_concat_length, Option.bind_some]

/-- The variables of a pattern are entered into the table. -/
theorem Tabled.bind {vars : List (NameID × ℕ × ℕ)} {subs : Substitutions}
    (h : Tabled ctx vars registers subs) {names : List NameID} {time : ℕ}
    (honce : ∀ x ∈ names, ∀ v ∈ vars, v.1 ≠ x) :
    Tabled ctx (vars ++ names.map fun name => (name, subs.past.length, time)) registers
      (names.foldl (fun subs name => subs.setAvailable name time (ctx.nameType name)) subs) := by
  have hold : ∀ v ∈ vars, v.1 ∉ names := fun v hv hx => honce v.1 hx v hv rfl
  have hpast := @setAvailable_past ctx.nameType names time subs
  have hnew : ∀ x s t, (x, s, t) ∈ names.map (fun name => (name, subs.past.length, time)) →
      x ∈ names ∧ s = subs.past.length ∧ t = time := by
    intro x s t hx
    obtain ⟨name, hname, heq⟩ := List.mem_map.mp hx
    cases heq
    exact ⟨hname, rfl, rfl⟩
  constructor
  · intro x
    rw [foldl_setAvailable_live, List.mem_append, h.live]
    constructor
    · rintro (⟨v, hv, rfl⟩ | hx)
      · exact ⟨v, List.mem_append_left _ hv, rfl⟩
      · exact ⟨_, List.mem_append_right _ (List.mem_map_of_mem hx), rfl⟩
    · rintro ⟨v, hv, rfl⟩
      rcases List.mem_append.mp hv with hv | hv
      · exact Or.inl ⟨v, hv, rfl⟩
      · exact Or.inr (hnew _ _ _ hv).1
  · intro v hv
    rw [hpast]
    rcases List.mem_append.mp hv with hv | hv
    · exact h.stage_le v hv
    · exact (hnew _ _ _ hv).2.1.le
  · intro x s t hx k hs hk
    rw [hpast] at hk
    rcases List.mem_append.mp hx with hx | hx
    · rw [(setAvailable_lookup (hold _ hx) k).2.1]
      exact h.version x s t hx k hs hk
    · obtain ⟨hmem, rfl, rfl⟩ := hnew _ _ _ hx
      obtain rfl : k = subs.past.length := by omega
      refine ⟨initialSub ctx x t, ?_, subAt_initialSub x _ t⟩
      rw [← hpast, lookupReferenced_last]
      exact foldl_setAvailable_last (Or.inl hmem)
  · intro x k hx
    by_cases hmem : x ∈ names
    · have hk : k < subs.past.length :=
        hx _ time (List.mem_append_right _ (List.mem_map_of_mem hmem))
      rw [lookupReferenced_past hpast hk]
      exact h.before x k fun s t hv => hx s t (List.mem_append_left _ hv)
    · rw [(setAvailable_lookup hmem k).2.1]
      exact h.before x k fun s t hv => hx s t (List.mem_append_left _ hv)

/-! ### The next stage -/

theorem nextScope_sub {stage : ℕ} {last : Scope} {x : NameID} {sub : Substitution}
    (hx : last x = some sub) {live : List NameID} {newSubs scope : Scope}
    {result regs : List SubRegister} {next next' : ℕ}
    (h : nextScope stage last live newSubs result next = some (scope, regs, next'))
    (hmem : x ∈ live ∨ ∃ m, newSubs x = some (nextSub stage x m sub).1 ∧
      ∀ r ∈ (nextSub stage x m sub).2.1, r ∈ result) :
    ∃ m, scope x = some (nextSub stage x m sub).1 ∧
      ∀ r ∈ (nextSub stage x m sub).2.1, r ∈ regs := by
  induction live generalizing newSubs result next with
  | nil =>
      obtain ⟨rfl, rfl, -⟩ : newSubs = scope ∧ result = regs ∧ next = next' := by
        simpa [nextScope] using h
      exact hmem.resolve_left List.not_mem_nil
  | cons var live ih =>
      simp only [nextScope, Option.bind_eq_bind, Option.bind_eq_some_iff] at h
      obtain ⟨sub', hsub, h⟩ := h
      apply ih h
      by_cases hvar : x = var
      · subst hvar
        obtain rfl := Option.some.inj (hsub.symm.trans hx)
        refine Or.inr ⟨next, Function.update_self .., fun r hr => ?_⟩
        exact List.mem_append_right _ (Option.mem_toList.mpr hr)
      · rcases hmem with hmem | ⟨m, hnew, hreg⟩
        · exact Or.inl ((List.mem_cons.mp hmem).resolve_left hvar)
        · refine Or.inr ⟨m, ?_, fun r hr => List.mem_append_left _ (hreg r hr)⟩
          rw [Function.update_of_ne hvar]
          exact hnew

theorem nextScope_not_live {stage : ℕ} {last : Scope} {x : NameID} {live : List NameID}
    (hx : x ∉ live) {newSubs scope : Scope} {result regs : List SubRegister} {next next' : ℕ}
    (h : nextScope stage last live newSubs result next = some (scope, regs, next')) :
    scope x = newSubs x := by
  induction live generalizing newSubs result next with
  | nil =>
      obtain ⟨rfl, -, -⟩ : newSubs = scope ∧ result = regs ∧ next = next' := by
        simpa [nextScope] using h
      rfl
  | cons var live ih =>
      rw [List.mem_cons, not_or] at hx
      simp only [nextScope, Option.bind_eq_bind, Option.bind_eq_some_iff] at h
      obtain ⟨sub, -, h⟩ := h
      rw [ih hx.2 h, Function.update_of_ne hx.1]

/-- The new registers have new names. -/
theorem nextScope_fresh {stage : ℕ} {last : Scope} {live : List NameID} {newSubs scope : Scope}
    {result regs : List SubRegister} {next next' : ℕ}
    (h : nextScope stage last live newSubs result next = some (scope, regs, next')) :
    next ≤ next' ∧ ∀ r ∈ regs, r ∈ result ∨ next ≤ r.new.id := by
  induction live generalizing newSubs result next with
  | nil =>
      obtain ⟨-, rfl, rfl⟩ : newSubs = scope ∧ result = regs ∧ next = next' := by
        simpa [nextScope] using h
      exact ⟨le_refl _, fun r hr => Or.inl hr⟩
  | cons var live ih =>
      simp only [nextScope, Option.bind_eq_bind, Option.bind_eq_some_iff] at h
      obtain ⟨sub, -, h⟩ := h
      have hnext : next ≤ (nextSub stage var next sub).2.2 ∧
          ∀ r ∈ (nextSub stage var next sub).2.1, next ≤ r.new.id := by
        unfold nextSub
        split
        · exact ⟨le_refl _, fun r hr => by cases hr⟩
        · exact ⟨le_refl _, fun r hr => by cases hr⟩
        · exact ⟨Nat.le_succ _, fun r hr => by cases hr; exact le_refl _⟩
        · exact ⟨le_refl _, fun r hr => by cases hr⟩
        · exact ⟨le_refl _, fun r hr => by cases hr⟩
      obtain ⟨hle, hregs⟩ := ih h
      refine ⟨hnext.1.trans hle, fun r hr => ?_⟩
      rcases hregs r hr with hr | hr
      · rcases List.mem_append.mp hr with hr | hr
        · exact Or.inl hr
        · exact Or.inr (hnext.2 r (Option.mem_toList.mp hr))
      · exact Or.inr (hnext.1.trans hr)

theorem nextStage_eq_some {subs subs' : Substitutions} {l : List SubRegister} {next next' : ℕ}
    (h : subs.nextStage next = some (subs', l, next')) :
    nextScope (subs.past.length + 1) subs.last subs.liveVars (fun _ => none) [] next =
        some (subs'.last, l, next') ∧
      subs'.past = subs.past ++ [subs.last] ∧ subs'.liveVars = subs.liveVars := by
  simp only [Substitutions.nextStage, Option.bind_eq_bind, Option.bind_eq_some_iff,
    Option.some.injEq, Prod.mk.injEq] at h
  obtain ⟨⟨scope, regs, next''⟩, hscope, rfl, rfl, rfl⟩ := h
  exact ⟨hscope, rfl, rfl⟩

/-- The table of the next stage keeps the stages before. -/
theorem nextStage_lookup {subs subs' : Substitutions} {l : List SubRegister} {next next' : ℕ}
    (h : subs.nextStage next = some (subs', l, next')) {k : ℕ} (hk : k ≤ subs.past.length)
    (x : NameID) : subs'.lookupReferenced k x = subs.lookupReferenced k x := by
  unfold Substitutions.lookupReferenced
  rw [(nextStage_eq_some h).2.1, List.getElem?_append_left (by simp; omega)]

/-- The table has the variables of the next stage. -/
theorem Tabled.next {vars : List (NameID × ℕ × ℕ)} {subs subs' : Substitutions}
    (h : Tabled ctx vars registers subs) (hlen : registers.length = subs.past.length)
    {l : List SubRegister} {next next' : ℕ} (hn : subs.nextStage next = some (subs', l, next')) :
    Tabled ctx vars (registers ++ [l]) subs' := by
  obtain ⟨hscope, hpast, hlive⟩ := nextStage_eq_some hn
  have hpastLen : subs'.past.length = subs.past.length + 1 := by rw [hpast, List.length_append]; rfl
  have hlast : ∀ x, subs'.lookupReferenced (subs.past.length + 1) x = subs'.last x := by
    intro x
    rw [← hpastLen, lookupReferenced_last]
  constructor
  · intro x
    rw [hlive, h.live]
  · intro v hv
    rw [hpastLen]
    exact Nat.le_succ_of_le (h.stage_le v hv)
  · intro x s t hx k hs hk
    rw [hpastLen] at hk
    rcases Nat.lt_or_ge k (subs.past.length + 1) with hlt | hge
    · obtain ⟨sub, hsub, hat⟩ := h.version x s t hx k hs (by omega)
      exact ⟨sub, (nextStage_lookup hn (by omega) x).trans hsub, hat.mono _⟩
    · obtain rfl : k = subs.past.length + 1 := by omega
      obtain ⟨sub, hsub, hat⟩ := h.version x s t hx _ (h.stage_le _ hx) (le_refl _)
      rw [lookupReferenced_last] at hsub
      obtain ⟨m, hnew, hreg⟩ :=
        nextScope_sub hsub hscope (Or.inl ((h.live x).mpr ⟨_, hx, rfl⟩))
      refine ⟨_, (hlast x).trans hnew, (hat.mono [l]).next ?_ hreg⟩
      rw [← hlen, List.getElem?_concat_length]
  · intro x k hx
    rcases Nat.lt_or_ge subs.past.length k with hgt | hle
    · have hdead : x ∉ subs.liveVars := by
        rw [h.live]
        rintro ⟨⟨y, s, t⟩, hv, rfl⟩
        have hlt := hx s t hv
        have hle := h.stage_le _ hv
        dsimp only at hle
        omega
      rcases Nat.lt_or_ge (subs.past.length + 1) k with hgt' | hle
      · unfold Substitutions.lookupReferenced
        rw [List.getElem?_eq_none (by rw [List.length_append, hpastLen]; exact hgt'),
          Option.bind_none]
      · obtain rfl : k = subs.past.length + 1 := by omega
        rw [hlast x, nextScope_not_live hdead hscope]
    · rw [nextStage_lookup hn hle]
      exact h.before x k hx

/-! ### The first pass -/

/-- What one statement can do to the table: a `reg` statement starts the next stage, a binding or a
register enters its variables, and the other statements do nothing. -/
theorem handleSubs_cases {s : Statement} {subs subs' : Substitutions} {l : List SubRegister}
    {next next' : ℕ} (h : handleSubs ctx s subs next = some (subs', l, next')) :
    (s.isRegMarker = true ∧ s.bound = none ∧ subs.nextStage next = some (subs', l, next')) ∨
    (s.isRegMarker = false ∧ s.conditionLookups = [] ∧ next' = next ∧
      ((∃ names value time, s.bound = some (names, value) ∧
          availableIn ctx.typeOfId value = some time ∧
          subs' = names.foldl
            (fun subs name => subs.setAvailable name time (ctx.nameType name)) subs) ∨
        (s.bound = none ∧ subs' = subs))) := by
  cases s with
  | binding pattern value walTrace =>
      simp only [handleSubs, Option.bind_eq_bind, Option.bind_eq_some_iff, Option.some.injEq,
        Prod.mk.injEq] at h
      obtain ⟨time, htime, rfl, -, rfl⟩ := h
      exact Or.inr ⟨rfl, rfl, rfl, Or.inl ⟨_, _, time, rfl, htime, rfl⟩⟩
  | register pattern clock reset initial value =>
      simp only [handleSubs, Option.bind_eq_bind, Option.bind_eq_some_iff, Option.some.injEq,
        Prod.mk.injEq] at h
      obtain ⟨time, htime, rfl, -, rfl⟩ := h
      exact Or.inr ⟨rfl, rfl, rfl, Or.inl ⟨_, _, time, rfl, htime, rfl⟩⟩
  | declaration names => cases h
  | pipelineRegMarker extra =>
      rcases extra with _ | ⟨cond⟩ | ⟨count, id⟩
      · exact Or.inl ⟨rfl, rfl, h⟩
      · exact Or.inl ⟨rfl, rfl, h⟩
      · cases h
  | _ =>
      cases h
      exact Or.inr ⟨rfl, rfl, rfl, Or.inr ⟨rfl, rfl⟩⟩

theorem firstPass_cons {s : Statement} {statements : List Statement} {stage next : ℕ}
    {subs : Substitutions} {run : FirstPass}
    (h : firstPass ctx (s :: statements) stage subs next = some run) :
    ∃ subs' l next' rest, handleSubs ctx s subs next = some (subs', l, next') ∧
      firstPass ctx statements (if s.isRegMarker then stage + 1 else stage) subs' next' =
        some rest ∧
      run.sites = s.conditionLookups.map (⟨subs, 0, stage, ·⟩) ++ rest.sites ∧
      run.registers = (if s.isRegMarker then [l] else []) ++ rest.registers ∧
      run.subs = rest.subs := by
  simp only [firstPass, Option.bind_eq_bind, Option.bind_eq_some_iff, Option.some.injEq] at h
  obtain ⟨⟨subs', l, next'⟩, hs, rest, hrest, rfl⟩ := h
  exact ⟨subs', l, next', rest, hs, hrest, rfl, rfl, rfl⟩

/-- The first pass enters all variables into the table. -/
theorem firstPass_tabled {statements : List Statement} {stage next : ℕ} {subs : Substitutions}
    {run : FirstPass} (h : firstPass ctx statements stage subs next = some run)
    {vars : List (NameID × ℕ × ℕ)} (hstage : subs.past.length = stage)
    (hlen : registers.length = stage) (htab : Tabled ctx vars registers subs)
    (honce : ((vars ++ declarations ctx statements stage).map Prod.fst).Nodup) :
    Tabled ctx (vars ++ declarations ctx statements stage) (registers ++ run.registers) run.subs ∧
      run.subs.past.length = stage + regCount statements := by
  induction statements generalizing stage subs next run vars registers with
  | nil =>
      cases h
      rw [declarations, List.append_nil, List.append_nil]
      exact ⟨htab, hstage⟩
  | cons s statements ih =>
      obtain ⟨subs', l, next', rest, hs, hrest, -, hregs, hsubs⟩ := firstPass_cons h
      rw [hregs, hsubs]
      rcases handleSubs_cases hs with ⟨hmark, hbound, hnext⟩ | ⟨hmark, -, -, hbound⟩
      · have hdecl : declarations ctx (s :: statements) stage =
            declarations ctx statements (stage + 1) := by
          simp only [declarations, hbound, hmark, if_true, List.nil_append]
        rw [hdecl] at honce ⊢
        rw [if_pos hmark] at hrest ⊢
        subst hstage
        have hpast : subs'.past.length = subs.past.length + 1 := by
          rw [(nextStage_eq_some hnext).2.1, List.length_append]
          rfl
        obtain ⟨hfinal, hcount⟩ := ih hrest hpast (by rw [List.length_append, hlen]; rfl)
          (htab.next hlen hnext) honce
        rw [← List.append_assoc]
        refine ⟨hfinal, hcount.trans ?_⟩
        rw [regCount, regCount, List.countP_cons_of_pos hmark]
        omega
      · rw [if_neg (by rw [hmark]; exact Bool.false_ne_true)] at hrest ⊢
        have hcount : regCount (s :: statements) = regCount statements :=
          List.countP_cons_of_neg (by rw [hmark]; exact Bool.false_ne_true)
        rw [List.nil_append, hcount]
        rcases hbound with ⟨names, value, time, hbound, htime, rfl⟩ | ⟨hbound, rfl⟩
        · have hdecl : declarations ctx (s :: statements) stage =
              (names.map fun name => (name, stage, time)) ++
                declarations ctx statements stage := by
            simp [declarations, hbound, htime, hmark]
          rw [hdecl, ← List.append_assoc] at honce ⊢
          subst hstage
          refine ih hrest (by rw [setAvailable_past]) hlen (htab.bind ?_) honce
          intro x hx v hv hvx
          rw [List.map_append, List.map_append, List.append_assoc] at honce
          refine (List.nodup_append.mp honce).2.2 v.1 (List.mem_map_of_mem hv) x ?_ hvx
          exact List.mem_append_left _ (List.mem_map.mpr
            ⟨_, List.mem_map_of_mem hx, rfl⟩)
        · have hdecl : declarations ctx (s :: statements) stage =
              declarations ctx statements stage := by
            simp [declarations, hbound, hmark]
          rw [hdecl] at honce ⊢
          exact ih hrest hstage hlen htab honce

/-- The first pass keeps the scopes of the stages before the current one. -/
theorem firstPass_lookup {statements : List Statement} {stage next : ℕ} {subs : Substitutions}
    {run : FirstPass} (h : firstPass ctx statements stage subs next = some run) {k : ℕ}
    (hk : k < subs.past.length) (x : NameID) :
    run.subs.lookupReferenced k x = subs.lookupReferenced k x := by
  induction statements generalizing stage subs next run with
  | nil =>
      cases h
      rfl
  | cons s statements ih =>
      obtain ⟨subs', l, next', rest, hs, hrest, -, -, hsubs⟩ := firstPass_cons h
      rw [hsubs]
      rcases handleSubs_cases hs with ⟨-, -, hnext⟩ | ⟨-, -, -, ⟨_, _, _, -, -, rfl⟩ | ⟨-, rfl⟩⟩
      · have hpast := (nextStage_eq_some hnext).2.1
        rw [ih hrest (by rw [hpast, List.length_append]; omega), nextStage_lookup hnext hk.le]
      · rw [ih hrest (by rw [setAvailable_past]; exact hk),
          lookupReferenced_past setAvailable_past hk]
      · exact ih hrest hk

/-- A condition is lowered with the substitutions of the first stage, and with a table that has
the stages up to the one of the condition. -/
theorem firstPass_sites {statements : List Statement} {stage next : ℕ} {subs : Substitutions}
    {run : FirstPass} (h : firstPass ctx statements stage subs next = some run)
    (hstage : subs.past.length = stage) {site : Site} (hsite : site ∈ run.sites) :
    site.currentStage = 0 ∧ site.subs.past.length = site.stage ∧
      ∀ k ≤ site.stage, ∀ x, site.subs.lookupReferenced k x = run.subs.lookupReferenced k x := by
  induction statements generalizing stage subs next run with
  | nil =>
      cases h
      exact absurd hsite List.not_mem_nil
  | cons s statements ih =>
      obtain ⟨subs', l, next', rest, hs, hrest, hsites, -, hsubs⟩ := firstPass_cons h
      rw [hsites] at hsite
      rw [hsubs]
      rcases handleSubs_cases hs with ⟨hmark, -, hnext⟩ | ⟨hmark, hcond, -, hbound⟩
      · have hpast : subs'.past.length = stage + 1 := by
          rw [(nextStage_eq_some hnext).2.1, List.length_append, hstage]
          rfl
        rw [if_pos hmark] at hrest
        rcases List.mem_append.mp hsite with hsite | hsite
        · obtain ⟨lookup, -, rfl⟩ := List.mem_map.mp hsite
          refine ⟨rfl, hstage, fun k hk x => ?_⟩
          dsimp only at hk ⊢
          rw [firstPass_lookup hrest (by omega), nextStage_lookup hnext (by omega)]
        · exact ih hrest hpast hsite
      · rw [if_neg (by rw [hmark]; exact Bool.false_ne_true)] at hrest
        rw [hcond, List.map_nil, List.nil_append] at hsite
        rcases hbound with ⟨_, _, _, -, -, rfl⟩ | ⟨-, rfl⟩
        · exact ih hrest (by rw [setAvailable_past]; exact hstage) hsite
        · exact ih hrest hstage hsite

theorem firstPass_fresh {statements : List Statement} {stage next : ℕ} {subs : Substitutions}
    {run : FirstPass} (h : firstPass ctx statements stage subs next = some run) :
    ∀ l ∈ run.registers, ∀ r ∈ l, next ≤ r.new.id := by
  induction statements generalizing stage subs next run with
  | nil =>
      cases h
      exact fun l hl => absurd hl List.not_mem_nil
  | cons s statements ih =>
      obtain ⟨subs', l, next', rest, hs, hrest, -, hregs, -⟩ := firstPass_cons h
      rw [hregs]
      intro l' hl' r hr
      rcases handleSubs_cases hs with ⟨hmark, -, hnext⟩ | ⟨hmark, -, rfl, -⟩
      · obtain ⟨hle, hfresh⟩ := nextScope_fresh (nextStage_eq_some hnext).1
        rw [if_pos hmark] at hl'
        rcases List.mem_cons.mp hl' with rfl | hl'
        · exact (hfresh r hr).resolve_left List.not_mem_nil
        · exact hle.trans (ih hrest l' hl' r hr)
      · rw [if_neg (by rw [hmark]; exact Bool.false_ne_true)] at hl'
        exact ih hrest l' hl' r hr

theorem tabled_new : Tabled ctx [] [] Substitutions.new where
  live x := by simp [Substitutions.new]
  stage_le v hv := absurd hv List.not_mem_nil
  version x s t hx := absurd hx List.not_mem_nil
  before x k _ := by
    unfold Substitutions.lookupReferenced Substitutions.new
    cases k with
    | zero => rfl
    | succ k => rfl

/-- The table of the inputs. -/
theorem tabled_inputSubs (inputs : List NameID) :
    Tabled ctx (inputs.map fun name => (name, 0, 0)) [] (inputSubs ctx inputs) :=
  tabled_new.bind fun _ _ _ hv => absurd hv List.not_mem_nil

theorem inputSubs_past (inputs : List NameID) : (inputSubs ctx inputs).past.length = 0 :=
  congrArg List.length setAvailable_past

/-- The statement is what the lowering of the stages sees of a statement of the body. -/
inductive Represents (ctx : PipelineTypes) : Statement → BodyStatement → Prop where
  | binding {pattern : Pattern} {value : Expression}
      {walTrace : Option (Option Expression × Option Expression)} {time : ℕ}
      (h : availableIn ctx.typeOfId value = some time) :
      Represents ctx (.binding pattern value walTrace) (.bind time pattern.names)
  | register {pattern : Pattern} {clock value : Expression}
      {reset : Option (Expression × Expression)} {initial : Option Expression} {time : ℕ}
      (h : availableIn ctx.typeOfId value = some time) :
      Represents ctx (.register pattern clock reset initial value) (.bind time pattern.names)
  | regMarker : Represents ctx (.pipelineRegMarker none) (.regMarker none)
  | condition (cond : Expression) (lowered : List Mir.Statement × Mir.ValueName) :
      Represents ctx (.pipelineRegMarker (some (.condition cond))) (.regMarker (some lowered))
  | label (name : NameID) : Represents ctx (.label name) .other
  | assert (value : Expression) : Represents ctx (.assert value) .other
  | set (target value : Expression) : Represents ctx (.set target value) .other
  | walSuffixed (suffix : String) (target : NameID) :
      Represents ctx (.walSuffixed suffix target) .other

/-- The table does not depend on the statements that are generated on the way. -/
theorem handleStatement_handleSubs {clock : Mir.ValueName} {enable : List (Option Mir.ValueName)}
    {s : Statement} {b : BodyStatement} (h : Represents ctx s b) {st st' : StageState}
    (hst : handleStatement ctx.nameType clock enable b st = some st') :
    ∃ l, handleSubs ctx s st.subs st.ids.name = some (st'.subs, l, st'.ids.name) := by
  have hmarker : ∀ cond, handleStatement ctx.nameType clock enable (.regMarker cond) st = some st' →
      ∃ l, st.subs.nextStage st.ids.name = some (st'.subs, l, st'.ids.name) := by
    intro cond hcond
    simp only [handleStatement, Option.bind_eq_bind, Option.bind_eq_some_iff,
      Option.some.injEq] at hcond
    obtain ⟨⟨subs, l, next⟩, hnext, enable', -, rfl⟩ := hcond
    exact ⟨l, hnext⟩
  cases h with
  | binding h =>
      cases hst
      exact ⟨[], by simp only [handleSubs, h, Option.bind_eq_bind, Option.bind_some]⟩
  | register h =>
      cases hst
      exact ⟨[], by simp only [handleSubs, h, Option.bind_eq_bind, Option.bind_some]⟩
  | regMarker => exact hmarker _ hst
  | condition cond lowered => exact hmarker _ hst
  | _ =>
      cases hst
      exact ⟨[], rfl⟩

/-! ### Identifiers -/

theorem lookup_eq {subs : Substitutions} {k : ℕ} (hk : k ≤ subs.past.length) (x : NameID) :
    subs.lookup k x = some ((subs.lookupReferenced k x).getD (.available x)) := by
  unfold Substitutions.lookup Substitutions.lookupReferenced
  rw [List.getElem?_eq_getElem (by simp; omega)]
  rfl

/-- What an identifier stands for in a stage of the table. -/
def resolved (subs : Substitutions) (k : ℕ) (x : NameID) : Option Mir.ValueName :=
  ((subs.lookupReferenced k x).getD (.available x)).variable x

section

variable {vars : List (NameID × ℕ × ℕ)} {subs : Substitutions}

/-- A variable that is bound later stands for itself. -/
theorem Tabled.resolved_before (h : Tabled ctx vars registers subs) {x : NameID} {k : ℕ}
    (hx : ∀ s t, (x, s, t) ∈ vars → k < s) : resolved subs k x = some x.valueName := by
  unfold resolved
  rw [h.before x k hx]
  rfl

theorem Tabled.versionAt (h : Tabled ctx vars registers subs) {x : NameID} {s t k : ℕ}
    (hx : (x, s, t) ∈ vars) (hs : s ≤ k) (hk : k ≤ subs.past.length) :
    VersionAt ctx registers x s t k (resolved subs k x) := by
  obtain ⟨sub, hsub, hat⟩ := h.version x s t hx k hs hk
  unfold resolved
  rw [hsub]
  exact hat.versionAt

/-- An identifier stands for the version of the stage it is looked up in. -/
theorem Tabled.ownVersion (h : Tabled ctx vars registers subs) (x : NameID) {k : ℕ}
    (hk : k ≤ subs.past.length) : OwnVersion ctx vars registers x k (resolved subs k x) :=
  ⟨fun _ _ hx hs => h.versionAt hx hs hk, fun hx => h.resolved_before hx⟩

/-- What is not registered stands for itself in every stage. -/
theorem Tabled.resolved_unregistered (h : Tabled ctx vars registers subs) {x : NameID}
    (hx : Unregistered ctx x) {k : ℕ} (hk : k ≤ subs.past.length) :
    resolved subs k x = some x.valueName := by
  by_cases hbound : ∃ s t, (x, s, t) ∈ vars ∧ s ≤ k
  · obtain ⟨s, t, hv, hs⟩ := hbound
    rcases h.versionAt hv hs hk with ⟨-, h⟩ | ⟨hno, -, -⟩ | ⟨hno, -, -⟩
    · exact h
    · exact absurd hx hno
    · exact absurd hx hno
  · apply h.resolved_before
    intro s t hv
    by_contra hle
    exact hbound ⟨s, t, hv, by omega⟩

theorem valueName_injective {x y : NameID} (h : x.valueName = y.valueName) : x = y := by
  unfold NameID.valueName at h
  obtain ⟨id, tail⟩ := x
  obtain ⟨id', tail'⟩ := y
  cases h
  rfl

/-- A copy in a later stage is a new register. -/
theorem Copy.cases {x n : NameID} {first k next : ℕ} (h : Copy registers x first k n)
    (hfresh : ∀ l ∈ registers, ∀ r ∈ l, next ≤ r.new.id) :
    (k = first ∧ n = x) ∨ next ≤ n.id := by
  cases h with
  | original => exact Or.inl ⟨rfl, rfl⟩
  | register _ hl hr _ => exact Or.inr (hfresh _ (List.mem_of_getElem? hl) _ hr)

/-- An old variable is its own version only as long as it has no copies. -/
theorem VersionAt.self {x : NameID} {s t k next : ℕ}
    (h : VersionAt ctx registers x s t k (some x.valueName)) (hx : ¬ Unregistered ctx x)
    (hfresh : ∀ l ∈ registers, ∀ r ∈ l, next ≤ r.new.id) (hold : x.id < next) : k = s + t := by
  rcases h with ⟨hun, -⟩ | ⟨-, -, hnone⟩ | ⟨-, -, n, hn, hcopy⟩
  · exact absurd hun hx
  · cases hnone
  · obtain rfl := valueName_injective (Option.some.inj hn)
    rcases hcopy.cases hfresh with ⟨hk, -⟩ | hid
    · exact hk
    · omega

end

/-! ### Conditions -/

/-- The variables that the conditions of the `reg` statements look up, each with the stage that
the condition stands in. -/
def conditions : List Statement → ℕ → List (ℕ × Lookup)
  | [], _ => []
  | s :: statements, stage =>
      s.conditionLookups.map (stage, ·) ++
        conditions statements (if s.isRegMarker then stage + 1 else stage)

/-- It does not matter that a condition is lowered in the first stage, with the table of the
stages up to its own: an identifier stands in the first stage, or for a variable that is not
registered, that is not bound yet, that has just become available, or that is available neither in
the first stage nor in this one, and a reference does not go to a later stage. -/
def Settled (ctx : PipelineTypes) (vars : List (NameID × ℕ × ℕ)) (stage : ℕ) : Lookup → Prop
  | .identifier x => stage = 0 ∨ Unregistered ctx x ∨ ∀ s t, (x, s, t) ∈ vars → s ≤ stage →
      (s = 0 ∧ stage < t) ∨ (0 < s ∧ stage = s + t)
  | .reference _ _ depthTypeexprId =>
      ∀ depth, inferredUsize (ctx.typeOfId depthTypeexprId) = some depth → depth ≤ stage

theorem firstPass_conditions {statements : List Statement} {stage next : ℕ}
    {subs : Substitutions} {run : FirstPass}
    (h : firstPass ctx statements stage subs next = some run) :
    run.sites.map (fun site => (site.stage, site.lookup)) = conditions statements stage := by
  induction statements generalizing stage subs next run with
  | nil =>
      cases h
      rfl
  | cons s statements ih =>
      obtain ⟨subs', l, next', rest, -, hrest, hsites, -, -⟩ := firstPass_cons h
      rw [hsites, List.map_append, ih hrest, List.map_map, conditions]
      rfl

theorem eq_of_mem_vars {vars : List (NameID × ℕ × ℕ)} (honce : (vars.map Prod.fst).Nodup)
    {x : NameID} {s t s' t' : ℕ} (h : (x, s, t) ∈ vars) (h' : (x, s', t') ∈ vars) :
    s = s' ∧ t = t' := by
  have heq := List.inj_on_of_nodup_map honce h h' rfl
  cases heq
  exact ⟨rfl, rfl⟩

/-- A condition that looks up an identifier finds the version of its own stage exactly when the
identifier is settled. -/
theorem ownVersion_first_iff {vars : List (NameID × ℕ × ℕ)} {subs : Substitutions}
    (htab : Tabled ctx vars registers subs) (honce : (vars.map Prod.fst).Nodup) {next : ℕ}
    (hfresh : ∀ l ∈ registers, ∀ r ∈ l, next ≤ r.new.id) (hold : ∀ v ∈ vars, v.1.id < next)
    {x : NameID} {stage : ℕ} :
    OwnVersion ctx vars registers x stage (resolved subs 0 x) ↔
      Settled ctx vars stage (.identifier x) := by
  have hzero := Nat.zero_le subs.past.length
  -- a variable that is bound in a later stage stands for itself in the first one
  have hlater : ∀ s t, (x, s, t) ∈ vars → 0 < s → resolved subs 0 x = some x.valueName := by
    intro s t hx hs
    apply htab.resolved_before
    intro s' t' hx'
    obtain ⟨rfl, rfl⟩ := eq_of_mem_vars honce hx hx'
    exact hs
  constructor
  · intro hown
    by_cases hstage : stage = 0
    · exact Or.inl hstage
    by_cases hreg : Unregistered ctx x
    · exact Or.inr (Or.inl hreg)
    refine Or.inr (Or.inr fun s t hx hs => ?_)
    have hversion := hown.1 s t hx hs
    rcases Nat.eq_zero_or_pos s with rfl | hpos
    · left
      rcases htab.versionAt hx (le_refl 0) hzero with ⟨hun, -⟩ | ⟨-, -, hnone⟩ | ⟨-, ht, n, hn, hcopy⟩
      · exact absurd hun hreg
      · rw [hnone] at hversion
        rcases hversion with ⟨hun, -⟩ | ⟨-, hlt, -⟩ | ⟨-, -, n, hn, -⟩
        · exact absurd hun hreg
        · exact ⟨rfl, by omega⟩
        · cases hn
      · obtain rfl : t = 0 := by omega
        obtain rfl : n = x := by
          cases hcopy
          rfl
        rw [hn] at hversion
        exact absurd (hversion.self hreg hfresh (hold _ hx)) hstage
    · rw [hlater s t hx hpos] at hversion
      exact Or.inr ⟨hpos, hversion.self hreg hfresh (hold _ hx)⟩
  · rintro (rfl | hreg | hsettled)
    · exact htab.ownVersion x hzero
    · have hself := htab.resolved_unregistered hreg hzero
      exact ⟨fun s t _ _ => Or.inl ⟨hreg, hself⟩, fun _ => hself⟩
    · by_cases hbound : ∃ s t, (x, s, t) ∈ vars ∧ s ≤ stage
      · obtain ⟨s, t, hx, hs⟩ := hbound
        have hunique : ∀ s' t', (x, s', t') ∈ vars → s' = s ∧ t' = t :=
          fun s' t' hx' => eq_of_mem_vars honce hx' hx
        by_cases hreg : Unregistered ctx x
        · have hself := htab.resolved_unregistered hreg hzero
          exact ⟨fun s t _ _ => Or.inl ⟨hreg, hself⟩, fun _ => hself⟩
        refine ⟨fun s' t' hx' _ => ?_, fun hall => absurd (hall s t hx) (by omega)⟩
        obtain ⟨rfl, rfl⟩ := hunique s' t' hx'
        rcases hsettled s' t' hx hs with ⟨rfl, hlt⟩ | ⟨hpos, rfl⟩
        · rcases htab.versionAt hx (le_refl 0) hzero with ⟨hun, -⟩ | ⟨-, -, hnone⟩ | ⟨-, ht, -⟩
          · exact absurd hun hreg
          · exact Or.inr (Or.inl ⟨hreg, by omega, hnone⟩)
          · omega
        · rw [hlater s' t' hx hpos]
          exact Or.inr (Or.inr ⟨hreg, le_refl _, x, rfl, .original⟩)
      · have hall : ∀ s t, (x, s, t) ∈ vars → stage < s := by
          intro s t hx
          by_contra hle
          exact hbound ⟨s, t, hx, by omega⟩
        have hself := htab.resolved_before fun s t hx => Nat.lt_of_le_of_lt (Nat.zero_le stage)
          (hall s t hx)
        exact ⟨fun s t hx hs => absurd (hall s t hx) (by omega), fun _ => hself⟩

/-! ### Both passes -/

theorem secondPass_sites {subs : Substitutions} {result : Option Expression}
    {statements : List Statement} {stage : ℕ} {site : Site}
    (h : site ∈ secondPass subs result statements stage stage) :
    site.subs = subs ∧ site.currentStage = site.stage ∧
      site.stage ≤ stage + regCount statements := by
  induction statements generalizing stage with
  | nil =>
      obtain ⟨lookup, -, rfl⟩ := List.mem_map.mp h
      exact ⟨rfl, rfl, Nat.le_add_right _ _⟩
  | cons s statements ih =>
      rw [secondPass] at h
      rcases List.mem_append.mp h with h | h
      · obtain ⟨lookup, -, rfl⟩ := List.mem_map.mp h
        exact ⟨rfl, rfl, Nat.le_add_right _ _⟩
      · unfold regCount at ih ⊢
        rw [List.countP_cons]
        split_ifs at h ⊢ with hmark
        · obtain ⟨hsubs, hstage, hle⟩ := ih h
          exact ⟨hsubs, hstage, by omega⟩
        · exact ih h

/-- All variables that are looked up while the body and the result of a pipeline are lowered. -/
def pipelineSites (run : FirstPass) (body : List Statement) (result : Option Expression) :
    List Site :=
  run.sites ++ secondPass run.subs result body 0 0

/-- Every reference goes to a stage of the pipeline. -/
def ReferencesValid (ctx : PipelineTypes) (body : List Statement) (sites : List Site) : Prop :=
  ∀ site ∈ sites, ∀ stage name depthTypeexprId,
    site.lookup = .reference stage name depthTypeexprId →
      ∃ depth, inferredUsize (ctx.typeOfId depthTypeexprId) = some depth ∧ depth ≤ regCount body

end

/-- Every variable is used at the version of its own stage, and every stage that is looked into
exists, exactly when the conditions of the `reg` statements are settled. -/
theorem own_stage_versions (ctx : PipelineTypes) (inputs : List NameID) (body : List Statement)
    (result : Option Expression) (next : ℕ) {run : FirstPass}
    (hrun : firstPass ctx body 0 (inputSubs ctx inputs) next = some run)
    (honce : ((pipelineVariables ctx inputs body).map Prod.fst).Nodup)
    (hold : ∀ v ∈ pipelineVariables ctx inputs body, v.1.id < next)
    (hrefs : ReferencesValid ctx body (pipelineSites run body result)) :
    (∀ site ∈ pipelineSites run body result,
      site.Right ctx (pipelineVariables ctx inputs body) run.registers) ↔
    ∀ c ∈ conditions body 0, Settled ctx (pipelineVariables ctx inputs body) c.1 c.2 := by
  obtain ⟨htab, hstages⟩ :=
    firstPass_tabled hrun (inputSubs_past inputs) rfl (tabled_inputSubs inputs) honce
  rw [List.nil_append] at htab
  rw [Nat.zero_add] at hstages
  have hfresh := firstPass_fresh hrun
  -- the first pass: a condition is right exactly when it is settled
  have hfirst : ∀ site ∈ run.sites,
      site.Right ctx (pipelineVariables ctx inputs body) run.registers ↔
        Settled ctx (pipelineVariables ctx inputs body) site.stage site.lookup := by
    intro site hsite
    obtain ⟨hcurrent, hpast, hlookup⟩ := firstPass_sites hrun (inputSubs_past inputs) hsite
    have hvalid := hrefs site (List.mem_append_left _ hsite)
    obtain ⟨subs, currentStage, stage, lookup⟩ := site
    dsimp only at hcurrent hpast hlookup hvalid
    subst hcurrent
    cases lookup with
    | identifier x =>
        refine Iff.trans ?_ (ownVersion_first_iff htab honce hfresh hold)
        unfold resolved
        rw [← hlookup 0 (Nat.zero_le _)]
        constructor
        · rintro ⟨sub, hsub, hown⟩
          dsimp only at hsub
          rw [lookup_eq (Nat.zero_le _)] at hsub
          cases hsub
          exact hown
        · intro hown
          exact ⟨_, lookup_eq (Nat.zero_le _) x, hown⟩
    | reference kind name id =>
        obtain ⟨depth, hdepth, -⟩ := hvalid kind name id rfl
        constructor
        · rintro ⟨d, hd, hlt⟩ d' hd'
          obtain rfl := Option.some.inj (hd.symm.trans hd')
          rw [← hpast]
          exact Nat.le_of_lt_succ hlt
        · intro h
          exact ⟨depth, hdepth, Nat.lt_succ_of_le (hpast ▸ h depth hdepth)⟩
  -- the second pass: everything is right
  have hsecond : ∀ site ∈ secondPass run.subs result body 0 0,
      site.Right ctx (pipelineVariables ctx inputs body) run.registers := by
    intro site hsite
    obtain ⟨hsubs, hcurrent, hle⟩ := secondPass_sites hsite
    have hvalid := hrefs site (List.mem_append_right _ hsite)
    obtain ⟨subs, currentStage, stage, lookup⟩ := site
    dsimp only at hsubs hcurrent hle hvalid
    subst hsubs hcurrent
    have hk : currentStage ≤ run.subs.past.length := by omega
    cases lookup with
    | identifier x => exact ⟨_, lookup_eq hk x, htab.ownVersion x hk⟩
    | reference kind name id =>
        obtain ⟨depth, hdepth, hdepthLe⟩ := hvalid kind name id rfl
        exact ⟨depth, hdepth, by unfold Substitutions.stages; dsimp only; omega⟩
  rw [← firstPass_conditions hrun, List.forall_mem_map]
  constructor
  · intro h site hsite
    exact (hfirst site hsite).mp (h site (List.mem_append_left _ hsite))
  · intro h site hsite
    rcases List.mem_append.mp hsite with hsite | hsite
    · exact (hfirst site hsite).mpr (h site hsite)
    · exact hsecond site hsite

/-- The types of a pipeline with a clock and a boolean input. -/
def boolTypes : PipelineTypes where
  typeOfId _ := .single .bool []
  nameType _ := ⟨false, .bool⟩

/-- The clock and the input `a`. -/
def boolInputs : List NameID := [⟨0, "clk"⟩, ⟨1, "a"⟩]

/-- `reg[a]`. -/
def regIfA : Statement := .pipelineRegMarker (some (.condition (.identifier 2 ⟨1, "a"⟩)))

/-- `a`, the result. -/
def resultA : Option Expression := some (.identifier 3 ⟨1, "a"⟩)

theorem own_stage_versions_first_condition :
    ∃ run, firstPass boolTypes [regIfA, .pipelineRegMarker none] 0
        (inputSubs boolTypes boolInputs) 10 = some run ∧
      ((∀ site ∈ pipelineSites run [regIfA, .pipelineRegMarker none] resultA,
        site.Right boolTypes (pipelineVariables boolTypes boolInputs
          [regIfA, .pipelineRegMarker none]) run.registers) ↔
      ∀ c ∈ conditions [regIfA, .pipelineRegMarker none] 0, Settled boolTypes
        (pipelineVariables boolTypes boolInputs [regIfA, .pipelineRegMarker none]) c.1 c.2) := by
  refine ⟨_, rfl, own_stage_versions boolTypes boolInputs _ resultA 10 rfl (by decide) (by decide) ?_⟩
  intro site hsite stage name id hlookup
  have hsites : site.lookup = .identifier ⟨1, "a"⟩ := by
    rcases List.mem_cons.mp hsite with rfl | hsite
    · rfl
    · rw [List.mem_singleton.mp hsite]
  rw [hsites] at hlookup
  cases hlookup

/-- In `reg; reg[a]`, the condition of the second stage is the input from the first stage and not
its register. -/
theorem not_own_stage_versions :
    ¬ ∀ (ctx : PipelineTypes) (inputs : List NameID) (body : List Statement)
      (result : Option Expression) (next : ℕ) (run : FirstPass),
      firstPass ctx body 0 (inputSubs ctx inputs) next = some run →
      ((pipelineVariables ctx inputs body).map Prod.fst).Nodup →
      (∀ v ∈ pipelineVariables ctx inputs body, v.1.id < next) →
      ReferencesValid ctx body (pipelineSites run body result) →
      ∀ site ∈ pipelineSites run body result,
        site.Right ctx (pipelineVariables ctx inputs body) run.registers := by
  intro h
  obtain ⟨run, hrun⟩ : ∃ run, firstPass boolTypes [.pipelineRegMarker none, regIfA] 0
      (inputSubs boolTypes boolInputs) 10 = some run := ⟨_, rfl⟩
  have hfresh := firstPass_fresh hrun
  cases hrun
  obtain ⟨sub, hsub, hown, -⟩ := h boolTypes boolInputs [.pipelineRegMarker none, regIfA] none 10 _
    rfl (by decide) (by decide) (by
      intro site hsite stage name id hlookup
      rw [List.mem_singleton.mp hsite] at hlookup
      cases hlookup) _ (List.mem_singleton_self _)
  cases hsub
  have hself := hown 0 0 (by decide) (Nat.zero_le _)
  have hreg : ¬ Unregistered boolTypes ⟨1, "a"⟩ := by
    rintro (h | h)
    · cases h
    · cases h
  exact absurd (VersionAt.self hself hreg hfresh (by decide)) (by decide)

end Spade.HirLowering

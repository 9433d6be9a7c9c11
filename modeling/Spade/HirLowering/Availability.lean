import Spade.HirLowering.StageVersions

/-!
# Availability of variables in the stages of a pipeline

The table of substitutions under any sequence of its two operations: a variable is made available
after some cycles, and the table advances to the next stage.

* **One stage** (`nextScope_spec`): advancing gives every live variable its next substitution, with
  a register of its own if it was available.
* **Runs** (`substitutions_exact`): a variable waits for its latency, is available under its own
  name for one stage, and then under the name of one register per stage.
-/

namespace Spade.HirLowering

open Spade.Mir

/-- The operations on the table of substitutions. -/
inductive Operation where
  | setAvailable (name : NameID) (time : ℕ) (ty : VariableType)
  | nextStage

/-- The table with the id tracker of the symbol table, and the registers that were returned for
each stage after the first one. -/
structure Table where
  subs : Substitutions
  next : ℕ
  registers : List (List SubRegister)

def Table.new (next : ℕ) : Table := ⟨.new, next, []⟩

def Operation.perform : Operation → Table → Option Table
  | .setAvailable name time ty, table =>
    some { table with subs := table.subs.setAvailable name time ty }
  | .nextStage, table => do
    let (subs, registers, next) ← table.subs.nextStage table.next
    some ⟨subs, next, table.registers ++ [registers]⟩

/-- The table after some operations; `none` when one of them panics. -/
def perform (operations : List Operation) (table : Table) : Option Table :=
  operations.foldlM (fun table operation => operation.perform table) table

/-- The variable that an operation makes available. -/
def Operation.variable? : Operation → Option NameID
  | .setAvailable name _ _ => some name
  | .nextStage => none

/-- The variables that some operations make available. -/
def madeAvailable (operations : List Operation) : List NameID :=
  operations.filterMap Operation.variable?

/-- The stage after some operations. -/
def stageAfter : List Operation → ℕ
  | [] => 0
  | .setAvailable _ _ _ :: operations => stageAfter operations
  | .nextStage :: operations => stageAfter operations + 1

/-- The registers of a variable that were returned when the table advanced to a stage. -/
def Table.registersOf (table : Table) (x : NameID) : ℕ → List SubRegister
  | 0 => []
  | stage + 1 => (table.registers[stage]?.getD []).filter fun reg => reg.original = x

/-! ### One stage -/

/-- A variable gets its next substitution under a number of its own, and the registers get the
numbers of the id tracker in turn. -/
theorem nextScope_spec {stage : ℕ} {last : Scope} {live : List NameID} (hlive : live.Nodup)
    (hentries : ∀ x ∈ live, ∃ sub, last x = some sub) (newSubs : Scope)
    (result : List SubRegister) (next : ℕ) :
    ∃ scope regs, nextScope stage last live newSubs result next =
        some (scope, result ++ regs, next + regs.length) ∧
      regs.map (fun reg => reg.new.id) = List.range' next regs.length ∧
      (∀ x ∉ live, scope x = newSubs x ∧ ∀ reg ∈ regs, reg.original ≠ x) ∧
      ∀ x ∈ live, ∀ sub, last x = some sub → ∃ m, scope x = some (nextSub stage x m sub).1 ∧
        regs.filter (fun reg => reg.original = x) = (nextSub stage x m sub).2.1.toList := by
  induction live generalizing newSubs result next with
  | nil =>
    refine ⟨newSubs, [], by simp [nextScope], rfl, fun x _ => ⟨rfl, by simp⟩, by simp⟩
  | cons var live ih =>
    obtain ⟨hvar, hlive⟩ := List.nodup_cons.mp hlive
    obtain ⟨sub, hsub⟩ := hentries var List.mem_cons_self
    have hnext : (nextSub stage var next sub).2.2 =
        next + (nextSub stage var next sub).2.1.toList.length ∧
        (nextSub stage var next sub).2.1.toList.map (fun reg => reg.new.id) =
          List.range' next (nextSub stage var next sub).2.1.toList.length ∧
        ∀ reg ∈ (nextSub stage var next sub).2.1.toList, reg.original = var := by
      unfold nextSub
      split
      · simp
      · simp
      · simp
      · simp
      · simp
    obtain ⟨hcount, hids, horiginal⟩ := hnext
    obtain ⟨scope, regs, heq, hfresh, hothers, hvars⟩ :=
      ih hlive (fun x hx => hentries x (List.mem_cons_of_mem var hx))
        (Function.update newSubs var (some (nextSub stage var next sub).1))
        (result ++ (nextSub stage var next sub).2.1.toList) (nextSub stage var next sub).2.2
    refine ⟨scope, (nextSub stage var next sub).2.1.toList ++ regs, ?_, ?_, ?_, ?_⟩
    · simp only [nextScope, hsub, Option.bind_eq_bind, Option.bind_some]
      rw [heq, List.append_assoc, hcount, List.length_append, Nat.add_assoc]
    · rw [List.map_append, hids, hfresh, hcount, List.length_append, List.range'_append_1]
    · intro x hx
      obtain ⟨hne, hx⟩ := not_or.mp (mt List.mem_cons.mpr hx)
      obtain ⟨hscope, hregs⟩ := hothers x hx
      refine ⟨by rw [hscope, Function.update_of_ne hne], fun reg hreg => ?_⟩
      rcases List.mem_append.mp hreg with hreg | hreg
      · exact fun heq => hne (heq.symm.trans (horiginal reg hreg))
      · exact hregs reg hreg
    · intro x hx sub' hsub'
      rcases List.mem_cons.mp hx with rfl | hx
      · obtain rfl := Option.some.inj (hsub.symm.trans hsub')
        obtain ⟨hscope, hregs⟩ := hothers x hvar
        refine ⟨next, by rw [hscope, Function.update_self], ?_⟩
        have hown : (nextSub stage x next sub).2.1.toList.filter
            (fun reg => reg.original = x) = (nextSub stage x next sub).2.1.toList := by
          rw [List.filter_eq_self]
          intro reg hreg
          exact decide_eq_true (horiginal reg hreg)
        have hnone : regs.filter (fun reg => reg.original = x) = [] := by
          rw [List.filter_eq_nil_iff]
          intro reg hreg
          simpa using hregs reg hreg
        rw [List.filter_append, hown, hnone, List.append_nil]
      · obtain ⟨m, hscope, hregs⟩ := hvars x hx sub' hsub'
        refine ⟨m, hscope, ?_⟩
        have hnone : (nextSub stage var next sub).2.1.toList.filter
            (fun reg => reg.original = x) = [] := by
          rw [List.filter_eq_nil_iff]
          intro reg hreg
          simp only [decide_eq_true_eq]
          rw [horiginal reg hreg]
          rintro rfl
          exact hvar hx
        rw [List.filter_append, hnone, List.nil_append, hregs]

/-! ### One operation -/

/-- The table has entries for the variables made available so far and no others, and the registers
have the numbers of the id tracker. -/
structure Table.WellFormed (start : ℕ) (names : List NameID) (table : Table) : Prop where
  live : table.subs.liveVars = names
  entries : ∀ x ∈ names, ∃ sub, table.subs.last x = some sub
  stages : table.registers.length = table.subs.past.length
  fresh : table.registers.flatten.map (fun reg => reg.new.id) =
    List.range' start table.registers.flatten.length
  next : table.next = start + table.registers.flatten.length
  others : ∀ x ∉ names, ∀ stage, table.registersOf x stage = []

/-- The substitution of a variable of type `ty` in a stage, and its registers on the way from the
substitution in the stage before, when it was made available in stage `s` after `t` cycles. -/
def SubInStage (x : NameID) (s t : ℕ) (ty : VariableType) (stage : ℕ)
    (previous sub : Option Substitution) (regs : List SubRegister) : Prop :=
  if ty.isPort then sub = some .port ∧ regs = []
  else if ty.mirType.size = 0 then sub = some .zeroSized ∧ regs = []
  else if stage < s + t then sub = some (.waiting (s + t - stage) x) ∧ regs = []
  else if stage = s + t then sub = some (.available x) ∧ regs = []
  else ∃ reg, regs = [reg] ∧ previous = some (.available reg.previous) ∧
    sub = some (.available reg.new)

def Table.InStage (table : Table) (x : NameID) (s t : ℕ) (ty : VariableType) (stage : ℕ) : Prop :=
  SubInStage x s t ty stage (table.subs.lookupReferenced (stage - 1) x)
    (table.subs.lookupReferenced stage x) (table.registersOf x stage)

/-- A variable has its substitutions in all stages of the table since it was made available. -/
structure Table.Follows (table : Table) (x : NameID) (s t : ℕ) (ty : VariableType) : Prop where
  live : x ∈ table.subs.liveVars
  stage_le : s ≤ table.subs.past.length
  before : ∀ stage ≤ s, table.registersOf x stage = []
  since : ∀ stage, s ≤ stage → stage ≤ table.subs.past.length → table.InStage x s t ty stage

theorem setAvailable_other {subs : Substitutions} {x y : NameID} (hne : x ≠ y) (time : ℕ)
    (ty : VariableType) (k : ℕ) :
    (subs.setAvailable y time ty).lookupReferenced k x = subs.lookupReferenced k x := by
  rcases Nat.lt_trichotomy k subs.past.length with hk | rfl | hk
  · have hpast : (subs.setAvailable y time ty).past = subs.past := rfl
    exact lookupReferenced_past hpast hk x
  · rw [lookupReferenced_last]
    refine (lookupReferenced_last (subs.setAvailable y time ty) x).trans ?_
    exact Function.update_of_ne hne _ _
  · unfold Substitutions.lookupReferenced
    rw [List.getElem?_eq_none (by simp [Substitutions.setAvailable]; omega),
      List.getElem?_eq_none (by simp; omega)]

section

variable {table table' : Table} {start : ℕ} {names : List NameID}

theorem registersOf_append (subs : Substitutions) (next : ℕ) (regs : List SubRegister)
    (x : NameID) (stage : ℕ) :
    Table.registersOf ⟨subs, next, table.registers ++ [regs]⟩ x stage =
      if stage = table.registers.length + 1 then regs.filter fun reg => reg.original = x
      else table.registersOf x stage := by
  cases stage with
  | zero => rfl
  | succ stage =>
    simp only [Table.registersOf, Nat.add_right_cancel_iff]
    split
    · rename_i hlast
      rw [hlast, List.getElem?_concat_length, Option.getD_some]
    · rename_i hne
      rcases Nat.lt_or_gt_of_ne hne with hlt | hgt
      · rw [List.getElem?_append_left hlt]
      · rw [List.getElem?_eq_none (by simp; omega), List.getElem?_eq_none (by omega)]

theorem Table.WellFormed.setAvailable (h : table.WellFormed start names) {name : NameID}
    (time : ℕ) (ty : VariableType) :
    Table.WellFormed start (names ++ [name])
      { table with subs := table.subs.setAvailable name time ty } where
  live := by
    rw [← h.live]
    rfl
  entries := by
    intro x hx
    by_cases hname : x = name
    · subst hname
      exact ⟨_, Function.update_self ..⟩
    · obtain ⟨sub, hsub⟩ := h.entries x ((List.mem_append.mp hx).resolve_right (by simpa))
      exact ⟨sub, (Function.update_of_ne hname _ _).trans hsub⟩
  stages := h.stages
  fresh := h.fresh
  next := h.next
  others x hx := h.others x (mt (List.mem_append_left _) hx)

/-- The table can advance, with one more list of registers. -/
theorem Table.WellFormed.nextStage (h : table.WellFormed start names) (hnodup : names.Nodup) :
    ∃ subs regs next, table.subs.nextStage table.next = some (subs, regs, next) ∧
      Table.WellFormed start names ⟨subs, next, table.registers ++ [regs]⟩ ∧
      (∀ x ∈ names, ∀ sub, table.subs.last x = some sub →
        ∃ m, subs.last x = some (nextSub (table.subs.past.length + 1) x m sub).1 ∧
          regs.filter (fun reg => reg.original = x) =
            (nextSub (table.subs.past.length + 1) x m sub).2.1.toList) := by
  have hlive : table.subs.liveVars.Nodup := h.live ▸ hnodup
  have hentries : ∀ x ∈ table.subs.liveVars, ∃ sub, table.subs.last x = some sub :=
    h.live ▸ h.entries
  obtain ⟨scope, regs, heq, hids, hothers, hvars⟩ :=
    @nextScope_spec (table.subs.past.length + 1) _ _ hlive hentries (fun _ => none) [] table.next
  have hstage : table.subs.nextStage table.next =
      some (⟨table.subs.past ++ [table.subs.last], scope, table.subs.liveVars⟩, regs,
        table.next + regs.length) := by
    unfold Substitutions.nextStage
    rw [heq]
    rfl
  refine ⟨_, regs, _, hstage, ?_, ?_⟩
  · constructor
    · exact h.live
    · intro x hx
      obtain ⟨sub, hsub⟩ := h.entries x hx
      obtain ⟨m, hscope, -⟩ := hvars x (h.live ▸ hx) sub hsub
      exact ⟨_, hscope⟩
    · rw [List.length_append, List.length_append, h.stages]
      rfl
    · rw [List.flatten_append, List.map_append, h.fresh, List.flatten_singleton, hids, h.next,
        List.length_append, List.range'_append_1]
    · rw [List.flatten_append, List.flatten_singleton, List.length_append, h.next, Nat.add_assoc]
    · intro x hx stage
      rw [registersOf_append]
      split
      · rw [List.filter_eq_nil_iff]
        intro reg hreg
        simpa using (hothers x (h.live ▸ hx)).2 reg hreg
      · exact h.others x hx stage
  · intro x hx sub hsub
    exact hvars x (h.live ▸ hx) sub hsub

/-- Making another variable available changes nothing for `x`. -/
theorem Table.Follows.setAvailable {x y : NameID} {s t : ℕ} {ty : VariableType}
    (h : table.Follows x s t ty) (hne : x ≠ y) (time : ℕ) (ty' : VariableType) :
    Table.Follows { table with subs := table.subs.setAvailable y time ty' } x s t ty where
  live := List.mem_append_left _ h.live
  stage_le := h.stage_le
  before := h.before
  since stage hs hstage := by
    have hin := h.since stage hs hstage
    unfold Table.InStage at hin ⊢
    simp only [setAvailable_other hne]
    exact hin

/-- A variable that is made available now. -/
theorem Table.WellFormed.follows (h : table.WellFormed start names) {x : NameID} (hx : x ∉ names)
    (t : ℕ) (ty : VariableType) :
    Table.Follows { table with subs := table.subs.setAvailable x t ty } x
      table.subs.past.length t ty where
  live := List.mem_append_right _ (List.mem_singleton_self x)
  stage_le := le_rfl
  before stage _ := h.others x hx stage
  since stage hs hstage := by
    obtain rfl : stage = table.subs.past.length := le_antisymm hstage hs
    have hlast : (table.subs.setAvailable x t ty).lookupReferenced table.subs.past.length x =
        some (if ty.isPort then .port else if ty.mirType.size = 0 then .zeroSized
          else if t = 0 then .available x else .waiting t x) :=
      (lookupReferenced_last (table.subs.setAvailable x t ty) x).trans (Function.update_self ..)
    have hnone := h.others x hx table.subs.past.length
    unfold Table.InStage SubInStage
    simp only [hlast]
    split
    · exact ⟨rfl, hnone⟩
    · split
      · exact ⟨rfl, hnone⟩
      · split
        · rename_i hlt
          rw [if_neg (by omega), Nat.add_sub_cancel_left]
          exact ⟨rfl, hnone⟩
        · rename_i hge
          rw [if_pos (by omega), if_pos (by omega)]
          exact ⟨rfl, hnone⟩

/-- Advancing takes a substitution to that of the next stage. -/
theorem SubInStage.next {x : NameID} {s t stage : ℕ} {ty : VariableType}
    {previous : Option Substitution} {sub : Substitution} {regs : List SubRegister}
    (h : SubInStage x s t ty stage previous (some sub) regs) (stageNum m : ℕ) :
    SubInStage x s t ty (stage + 1) (some sub) (some (nextSub stageNum x m sub).1)
      (nextSub stageNum x m sub).2.1.toList := by
  unfold SubInStage at h ⊢
  by_cases hport : ty.isPort
  · rw [if_pos hport] at h ⊢
    obtain rfl := Option.some.inj h.1
    exact ⟨rfl, rfl⟩
  rw [if_neg hport] at h ⊢
  by_cases hsize : ty.mirType.size = 0
  · rw [if_pos hsize] at h ⊢
    obtain rfl := Option.some.inj h.1
    exact ⟨rfl, rfl⟩
  rw [if_neg hsize] at h ⊢
  rcases Nat.lt_trichotomy stage (s + t) with hlt | rfl | hgt
  · rw [if_pos hlt] at h
    obtain rfl := Option.some.inj h.1
    by_cases hwait : stage + 1 < s + t
    · obtain ⟨d, hd⟩ : ∃ d, s + t - stage = d + 2 := ⟨s + t - stage - 2, by omega⟩
      have hd' : s + t - (stage + 1) = d + 1 := by omega
      rw [if_pos hwait, hd, hd']
      exact ⟨rfl, rfl⟩
    · have hone : s + t - stage = 1 := by omega
      rw [if_neg hwait, if_pos (by omega), hone]
      exact ⟨rfl, rfl⟩
  · rw [if_neg (by omega), if_pos rfl] at h
    obtain rfl := Option.some.inj h.1
    rw [if_neg (by omega), if_neg (by omega)]
    exact ⟨_, rfl, rfl, rfl⟩
  · rw [if_neg (by omega), if_neg (by omega)] at h
    obtain ⟨reg, -, -, hsub⟩ := h
    obtain rfl := Option.some.inj hsub
    rw [if_neg (by omega), if_neg (by omega)]
    exact ⟨_, rfl, rfl, rfl⟩

/-- The next stage has the next substitution of `x`. -/
theorem Table.Follows.nextStage {x : NameID} {s t : ℕ} {ty : VariableType}
    (h : table.Follows x s t ty) (hwf : table.WellFormed start names) (hnodup : names.Nodup)
    (heq : Operation.nextStage.perform table = some table') : table'.Follows x s t ty := by
  obtain ⟨subs, regs, next, hstage, -, hvars⟩ := hwf.nextStage hnodup
  have htable : table' = ⟨subs, next, table.registers ++ [regs]⟩ := by
    simp only [Operation.perform, hstage, Option.bind_eq_bind, Option.bind_some,
      Option.some.injEq] at heq
    exact heq.symm
  obtain ⟨-, hpast, hlive⟩ := nextStage_eq_some hstage
  have hlength : subs.past.length = table.subs.past.length + 1 := by
    rw [hpast, List.length_append]
    rfl
  subst htable
  constructor
  · exact hlive ▸ h.live
  · exact h.stage_le.trans (by simp only [hlength]; omega)
  · intro stage hle
    have hle' := h.stage_le
    rw [registersOf_append, if_neg (by rw [hwf.stages]; omega)]
    exact h.before stage hle
  · intro stage hs hle
    simp only [hlength] at hle
    rcases Nat.lt_or_ge table.subs.past.length stage with hgt | hle'
    · obtain rfl : stage = table.subs.past.length + 1 := by omega
      have hin := h.since _ h.stage_le le_rfl
      have hprev := nextStage_lookup hstage le_rfl x
      have hnow : subs.lookupReferenced (table.subs.past.length + 1) x = subs.last x := by
        rw [← hlength, lookupReferenced_last]
      have hown : Table.registersOf ⟨subs, next, table.registers ++ [regs]⟩ x
          (table.subs.past.length + 1) = regs.filter fun reg => reg.original = x := by
        rw [registersOf_append, if_pos (by rw [hwf.stages])]
      have hx : x ∈ names := hwf.live ▸ h.live
      obtain ⟨sub, hsub⟩ := hwf.entries x hx
      obtain ⟨m, hnew, hregs⟩ := hvars x hx sub hsub
      unfold Table.InStage at hin ⊢
      rw [lookupReferenced_last, hsub] at hin
      rw [hown, hnow, Nat.add_sub_cancel, hprev, hnew, hregs, lookupReferenced_last, hsub]
      exact hin.next _ m
    · have hsame : ∀ k ≤ stage, subs.lookupReferenced k x = table.subs.lookupReferenced k x :=
        fun k hk => nextStage_lookup hstage (hk.trans hle') x
      have hregs : Table.registersOf ⟨subs, next, table.registers ++ [regs]⟩ x stage =
          table.registersOf x stage := by
        rw [registersOf_append, if_neg (by rw [hwf.stages]; omega)]
      have hin := h.since stage hs hle'
      unfold Table.InStage at hin ⊢
      simp only [hregs, hsame stage le_rfl, hsame (stage - 1) (Nat.sub_le stage 1)]
      exact hin

/-! ### Runs -/

theorem perform_cons (operation : Operation) (operations : List Operation) (table : Table) :
    perform (operation :: operations) table =
      (operation.perform table).bind fun table => perform operations table := rfl

/-- Operations on different variables never panic, and keep what is known of other variables. -/
theorem perform_run {operations : List Operation} (hwf : table.WellFormed start names)
    (hnodup : (names ++ madeAvailable operations).Nodup) :
    ∃ table', perform operations table = some table' ∧
      table'.WellFormed start (names ++ madeAvailable operations) ∧
      table'.subs.past.length = table.subs.past.length + stageAfter operations ∧
      ∀ x s t ty, x ∉ madeAvailable operations → table.Follows x s t ty →
        table'.Follows x s t ty := by
  induction operations generalizing table names with
  | nil => exact ⟨table, rfl, by simpa [madeAvailable] using hwf, rfl, fun _ _ _ _ _ h => h⟩
  | cons operation operations ih =>
    rw [perform_cons]
    cases operation with
    | setAvailable name time ty =>
      have hsplit : names ++ madeAvailable (.setAvailable name time ty :: operations) =
          (names ++ [name]) ++ madeAvailable operations := by
        rw [List.append_assoc]
        rfl
      rw [hsplit] at hnodup ⊢
      obtain ⟨table', hperform, hwf', hstage, hfollows⟩ := ih (hwf.setAvailable time ty) hnodup
      refine ⟨table', hperform, hwf', hstage, fun x s t ty' hx h => ?_⟩
      obtain ⟨hne, hx⟩ := not_or.mp (mt List.mem_cons.mpr hx)
      exact hfollows x s t ty' hx (h.setAvailable hne time ty)
    | nextStage =>
      have hnames := (List.nodup_append'.mp hnodup).1
      obtain ⟨subs, regs, next, hnext, hwf₁, -⟩ := hwf.nextStage hnames
      have hperform₁ : Operation.nextStage.perform table =
          some ⟨subs, next, table.registers ++ [regs]⟩ := by
        simp only [Operation.perform, hnext, Option.bind_eq_bind, Option.bind_some]
      obtain ⟨table', hperform, hwf', hstage, hfollows⟩ := ih hwf₁ hnodup
      refine ⟨table', ?_, hwf', ?_, fun x s t ty hx h => ?_⟩
      · rw [hperform₁]
        exact hperform
      · simp only [hstage, (nextStage_eq_some hnext).2.1, List.length_append,
          List.length_singleton, stageAfter]
        omega
      · exact hfollows x s t ty hx (h.nextStage hwf hnames hperform₁)

end

theorem wellFormed_new (start : ℕ) : (Table.new start).WellFormed start [] where
  live := rfl
  entries := by simp
  stages := rfl
  fresh := rfl
  next := rfl
  others x _ stage := by
    cases stage with
    | zero => rfl
    | succ stage => rfl

/-- Whatever operations on different variables are performed, a variable that is made available in
stage `s` after `t` cycles waits until stage `s + t`, is available there under its own name, and
in each later stage under the name of the only register that was returned for it, whose input is
its name in the stage before; the registers have the numbers of the id tracker in turn. Ports and
values without bits have no registers. -/
theorem substitutions_exact (start : ℕ) (before after : List Operation) (x : NameID) (t : ℕ)
    (ty : VariableType)
    (hdistinct : (madeAvailable (before ++ .setAvailable x t ty :: after)).Nodup) :
    ∃ table, perform (before ++ .setAvailable x t ty :: after) (.new start) = some table ∧
      let s := stageAfter before
      let current := s + stageAfter after
      (ty.isPort = false → ty.mirType.size ≠ 0 →
        (∀ j < t, s + j ≤ current →
          table.subs.lookupReferenced (s + j) x = some (.waiting (t - j) x)) ∧
        (s + t ≤ current → table.subs.lookupReferenced (s + t) x = some (.available x)) ∧
        (∀ m, s + t < m → m ≤ current → ∃ reg, table.registersOf x m = [reg] ∧
          table.subs.lookupReferenced (m - 1) x = some (.available reg.previous) ∧
          table.subs.lookupReferenced m x = some (.available reg.new)) ∧
        ∀ m ≤ s + t, table.registersOf x m = []) ∧
      (ty.isPort = true ∨ ty.mirType.size = 0 → ∀ m, table.registersOf x m = []) ∧
      table.registers.flatten.map (fun reg => reg.new.id) =
        List.range' start table.registers.flatten.length := by
  have hnames : madeAvailable (before ++ .setAvailable x t ty :: after) =
      madeAvailable before ++ [x] ++ madeAvailable after := by
    simp [madeAvailable, Operation.variable?]
  rw [hnames] at hdistinct
  have hbefore := (List.nodup_append'.mp hdistinct).1
  have hx : x ∉ madeAvailable before := by
    intro hmem
    exact (List.nodup_append'.mp hbefore).2.2 hmem (List.mem_singleton_self x)
  have hx' : x ∉ madeAvailable after := by
    intro hmem
    exact (List.nodup_append'.mp hdistinct).2.2
      (List.mem_append_right _ (List.mem_singleton_self x)) hmem
  obtain ⟨table₁, hperform₁, hwf₁, hstage₁, -⟩ :=
    perform_run (wellFormed_new start) (List.nodup_append'.mp hbefore).1
  have hs : table₁.subs.past.length = stageAfter before := by
    rw [hstage₁]
    exact Nat.zero_add _
  obtain ⟨table, hperform, hwf, hstage, hfollows⟩ := perform_run (hwf₁.setAvailable t ty) hdistinct
  have hcurrent : table.subs.past.length = stageAfter before + stageAfter after := by
    rw [hstage, ← hs]
    rfl
  obtain ⟨-, -, hregsBefore, hsince⟩ := hfollows x _ t ty hx' (hwf₁.follows hx t ty)
  rw [hs] at hregsBefore hsince
  rw [hcurrent] at hsince
  -- No register is returned for a stage that the table has not reached.
  have hafter (m : ℕ) (hm : stageAfter before + stageAfter after < m) :
      table.registersOf x m = [] := by
    obtain ⟨k, rfl⟩ : ∃ k, m = k + 1 := ⟨m - 1, by omega⟩
    have hnone : table.registers[k]? = none := by
      rw [List.getElem?_eq_none_iff, hwf.stages, hcurrent]
      omega
    simp only [Table.registersOf, hnone, Option.getD_none, List.filter_nil]
  have hnone (m : ℕ) (h : stageAfter before ≤ m → m ≤ stageAfter before + stageAfter after →
      table.registersOf x m = []) : table.registersOf x m = [] := by
    rcases Nat.lt_or_ge m (stageAfter before) with hlt | hge
    · exact hregsBefore m hlt.le
    · rcases Nat.lt_or_ge (stageAfter before + stageAfter after) m with hgt | hle
      · exact hafter m hgt
      · exact h hge hle
  refine ⟨table, ?_, fun hport hsize => ⟨?_, ?_, ?_, ?_⟩, ?_, hwf.fresh⟩
  · unfold perform at hperform₁ ⊢
    rw [List.foldlM_append, hperform₁]
    exact hperform
  · intro j hj hle
    have hin := hsince (stageAfter before + j) (by omega) hle
    unfold Table.InStage SubInStage at hin
    rw [if_neg (by simp [hport]), if_neg hsize, if_pos (by omega)] at hin
    rw [hin.1, Nat.add_sub_add_left]
  · intro hle
    have hin := hsince (stageAfter before + t) (by omega) hle
    unfold Table.InStage SubInStage at hin
    rw [if_neg (by simp [hport]), if_neg hsize, if_neg (by omega), if_pos rfl] at hin
    exact hin.1
  · intro m hlt hle
    have hin := hsince m (by omega) hle
    unfold Table.InStage SubInStage at hin
    rw [if_neg (by simp [hport]), if_neg hsize, if_neg (by omega), if_neg (by omega)] at hin
    exact hin
  · intro m hle
    apply hnone m
    intro hge hcurrent
    have hin := hsince m hge hcurrent
    unfold Table.InStage SubInStage at hin
    rw [if_neg (by simp [hport]), if_neg hsize] at hin
    rcases hle.lt_or_eq with hlt | heq
    · rw [if_pos hlt] at hin
      exact hin.2
    · rw [if_neg (by omega), if_pos heq] at hin
      exact hin.2
  · intro hunregistered m
    apply hnone m
    intro hge hcurrent
    have hin := hsince m hge hcurrent
    unfold Table.InStage SubInStage at hin
    by_cases hport : ty.isPort
    · rw [if_pos hport] at hin
      exact hin.2
    · rw [if_neg hport, if_pos (hunregistered.resolve_left hport)] at hin
      exact hin.2

/-- A variable with a latency of one stage, and another one that is made available later. -/
theorem substitutions_exact_two :
    ∃ table, perform [.setAvailable ⟨1, "x"⟩ 1 ⟨false, .int 8⟩, .nextStage,
        .setAvailable ⟨2, "y"⟩ 0 ⟨false, .int 1⟩, .nextStage] (.new 3) = some table ∧
      ∃ reg, table.registersOf ⟨1, "x"⟩ 2 = [reg] ∧
        table.subs.lookupReferenced 1 ⟨1, "x"⟩ = some (.available reg.previous) ∧
        table.subs.lookupReferenced 2 ⟨1, "x"⟩ = some (.available reg.new) := by
  obtain ⟨table, hperform, hsized, -, -⟩ := substitutions_exact 3 []
    [.nextStage, .setAvailable ⟨2, "y"⟩ 0 ⟨false, .int 1⟩, .nextStage] ⟨1, "x"⟩ 1
    ⟨false, .int 8⟩ (by decide)
  exact ⟨table, hperform, (hsized rfl (by decide)).2.2.1 2 (by decide) (by decide)⟩

end Spade.HirLowering

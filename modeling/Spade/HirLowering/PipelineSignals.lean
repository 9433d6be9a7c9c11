import Spade.HirLowering.Pipelines
import Spade.Mir.Semantics

/-!
# The enable and valid signals of a pipeline

What the signals generated for the stages of a pipeline compute in one cycle. A missing signal
stands for the constant true.

* **Enable signals** (`enableSignals_truth`): the enable signal of a stage is the conjunction of
  the conditions of the `reg` statements from this stage on.
* **Valid signals** (`validNext_truth`, `validSignals_some`, `validSignals_none`): when a stage is
  enabled it passes its valid signal on; a bubble is inserted behind a stage that moves on while
  the stage before it stalls. Either every stage has a valid register or, without any condition,
  none has.
-/

namespace Spade.HirLowering

open Spade.Mir

variable {H : Type} {I : Interp H} {hid : ValueName → H} {ρ : ValueName → BitString}

/-! ### Truth values -/

/-- Whether the value of a name is true. -/
def truth (ρ : ValueName → BitString) (x : ValueName) : Bool := (ρ x).toNat != 0

/-- The truth value of a constant or a name. -/
def MaybeConst.truth (ρ : ValueName → BitString) : MaybeConst → Bool
  | .val x => HirLowering.truth ρ x
  | .const b => b

/-- The truth value of a signal that may be missing. -/
def optTruth (ρ : ValueName → BitString) (x : Option ValueName) : Bool := (orConstTrue x).truth ρ

@[simp] theorem optTruth_none : optTruth ρ none = true := rfl

@[simp] theorem optTruth_some (x : ValueName) : optTruth ρ (some x) = truth ρ x := rfl

theorem truth_of_eq_singleton {x : ValueName} {b : Bool} (h : ρ x = [b]) : truth ρ x = b := by
  rw [truth, h, BitString.toNat_singleton]
  cases b <;> rfl

/-- The statements hold in the cycle. -/
abbrev AllSatisfied (I : Interp H) (hid : ValueName → H) (ρ : ValueName → BitString)
    (stmts : List Statement) : Prop :=
  ∀ s ∈ stmts, Satisfied I hid ρ s

theorem truth_alias {name x : ValueName}
    (h : Satisfied I hid ρ (boolBinding name .alias [x])) : truth ρ name = truth ρ x := by
  have h' : ρ name = ρ x := h
  rw [truth, h', truth]

theorem truth_logicalAnd {name x y : ValueName}
    (h : Satisfied I hid ρ (boolBinding name .logicalAnd [x, y])) :
    truth ρ name = (truth ρ x && truth ρ y) := by
  rw [truth_of_eq_singleton (h.trans (I.denote_logicalAnd _))]
  rfl

theorem truth_not {name x : ValueName} (h : Satisfied I hid ρ (boolBinding name .not [x])) :
    truth ρ name = !truth ρ x := by
  rw [truth_of_eq_singleton (h.trans (I.denote_not _)), truth]
  simp [bne]

theorem truth_select {name sel x y : ValueName}
    (h : Satisfied I hid ρ (boolBinding name .select [sel, x, y]))
    (hx : (ρ x).length = 1) (hy : (ρ y).length = 1) :
    truth ρ name = if truth ρ sel then truth ρ x else truth ρ y := by
  have h' : ρ name = if (ρ sel).toNat ≠ 0 then ρ x else ρ y :=
    h.trans (I.denote_select _ hx hy)
  by_cases hsel : (ρ sel).toNat = 0 <;> simp [truth, h', hsel]

/-! ### Constant folding -/

theorem toValueName_truth {m : MaybeConst} {next : ℕ}
    (hs : AllSatisfied I hid ρ (m.toValueName next).2.1)
    (hlen : ∀ x, m = .val x → (ρ x).length = 1) :
    truth ρ (m.toValueName next).1 = m.truth ρ ∧ (ρ (m.toValueName next).1).length = 1 := by
  cases m with
  | val x => exact ⟨rfl, hlen x rfl⟩
  | const b =>
      have h : ρ (.expr next) = [b] := by
        have hconst := hs _ (List.mem_singleton_self _)
        cases b <;> exact hconst
      exact ⟨truth_of_eq_singleton h, by rw [MaybeConst.toValueName, h]; rfl⟩

theorem constexprAnd_truth {l r : MaybeConst} {next : ℕ}
    (hs : AllSatisfied I hid ρ (constexprAnd l r next).2.1) :
    (constexprAnd l r next).1.truth ρ = (l.truth ρ && r.truth ρ) := by
  rcases l with x | _ | _ <;> rcases r with y | _ | _
  case val.val => exact truth_logicalAnd (hs _ (List.mem_singleton_self _))
  all_goals simp [constexprAnd, MaybeConst.truth]

theorem constexprInv_truth {m : MaybeConst} {next : ℕ}
    (hs : AllSatisfied I hid ρ (constexprInv m next).2.1) :
    (constexprInv m next).1.truth ρ = !m.truth ρ := by
  rcases m with x | _ | _
  · exact truth_not (hs _ (List.mem_singleton_self _))
  · rfl
  · rfl

theorem constexprSelect_truth {t f select : MaybeConst} {next : ℕ}
    (hs : AllSatisfied I hid ρ (constexprSelect t f select next).2.1)
    (ht : ∀ x, t = .val x → (ρ x).length = 1) (hf : ∀ x, f = .val x → (ρ x).length = 1) :
    (constexprSelect t f select next).1.truth ρ =
      if select.truth ρ then t.truth ρ else f.truth ρ := by
  rcases select with sel | _ | _
  · simp only [constexprSelect, AllSatisfied, List.forall_mem_append] at hs
    obtain ⟨⟨hst, hsf⟩, hsel⟩ := hs
    obtain ⟨htruth, htlen⟩ := toValueName_truth hst ht
    obtain ⟨hftruth, hflen⟩ := toValueName_truth hsf hf
    rw [← htruth, ← hftruth]
    exact truth_select (hsel _ (List.mem_singleton_self _)) htlen hflen
  · rfl
  · rfl

/-! ### Valid signals -/

/-- The next valid signal of a stage. -/
theorem validNext_truth {prev select downstream cond : Option ValueName} {name : ValueName}
    {next : ℕ} (hs : AllSatisfied I hid ρ (validNext prev select downstream cond name next).2.1)
    (hprev : ∀ x, prev = some x → (ρ x).length = 1) (hname : (ρ name).length = 1) :
    (validNext prev select downstream cond name next).1.truth ρ =
      ((if optTruth ρ select then optTruth ρ prev else truth ρ name) &&
        !(!optTruth ρ cond && optTruth ρ downstream)) := by
  simp only [validNext, AllSatisfied, List.forall_mem_append] at hs ⊢
  obtain ⟨⟨⟨⟨h₁, h₂⟩, h₃⟩, h₄⟩, h₅⟩ := hs
  rw [constexprAnd_truth h₅, constexprInv_truth h₄, constexprAnd_truth h₃, constexprInv_truth h₂,
    constexprSelect_truth h₁]
  · rfl
  · intro x hx
    cases prev with
    | none => exact absurd hx (by simp [orConstTrue])
    | some y =>
        obtain rfl : y = x := by simpa [orConstTrue] using hx
        exact hprev y rfl
  · intro x hx
    obtain rfl : name = x := by simpa using hx
    exact hname

/-- A stage that is selected by a signal, or follows a stage with a valid register, has a valid
register. -/
theorem validNext_eq_val {prev select : Option ValueName} (h : prev.isSome ∨ select.isSome)
    (downstream cond : Option ValueName) (name : ValueName) (next : ℕ) :
    ∃ x, (validNext prev select downstream cond name next).1 = .val x := by
  -- the stall signal is never the constant true, so its inverse never folds the register away
  rcases select with _ | select
  · rcases prev with _ | prev
    · simp at h
    · rcases downstream with _ | downstream <;> rcases cond with _ | cond <;> exact ⟨_, rfl⟩
  · rcases downstream with _ | downstream <;> rcases cond with _ | cond <;> exact ⟨_, rfl⟩

/-- Without any signal the stage is always valid. -/
theorem validNext_none (name : ValueName) (next : ℕ) :
    validNext none none none none name next = (.const true, [], next) := rfl

/-- The valid register of a stage, given the signals it depends on. -/
def ValidRegister (stmts : List Statement) (clock : ValueName)
    (prev select downstream cond : Option ValueName) (name : ValueName) : Prop :=
  ∃ next value, (validNext prev select downstream cond name next).1 = .val value ∧
    (∀ s ∈ (validNext prev select downstream cond name next).2.1, s ∈ stmts) ∧
    .register
      { name := name
        ty := .bool
        clock := clock
        reset := none
        initial := none
        value := value
        traced := none } ∈ stmts

theorem ValidRegister.mono {stmts stmts' : List Statement} {clock : ValueName}
    {prev select downstream cond : Option ValueName} {name : ValueName}
    (h : ValidRegister stmts clock prev select downstream cond name)
    (hsub : ∀ s ∈ stmts, s ∈ stmts') :
    ValidRegister stmts' clock prev select downstream cond name := by
  obtain ⟨next, value, hval, hs, hreg⟩ := h
  exact ⟨next, value, hval, fun s hs' => hsub s (hs s hs'), hsub _ hreg⟩

/-- With a condition in the pipeline every stage has a valid register. -/
theorem validSignals_some {clock : ValueName} {ready : List (Option ValueName)}
    {conds : List (Option ValueName)} (i : ℕ) (prev : Option ValueName) (ids : Ids)
    (h : prev.isSome ∨ (ready[i]?.join).isSome) :
    ∃ (names : List ValueName) (stmts : List Statement) (ids' : Ids), validSignals clock ready conds i prev ids =
        some (names.map some, stmts, ids') ∧ names.length = conds.length ∧
      ∀ j (hj : j < conds.length), ∃ name, names[j]? = some name ∧
        ValidRegister stmts clock ((prev :: names.map some)[j]?.join) (ready[i + j]?.join)
          (ready[i + j + 1]?.join) conds[j] name := by
  induction conds generalizing i prev ids with
  | nil => exact ⟨[], [], ids, rfl, rfl, fun j hj => absurd hj (Nat.not_lt_zero j)⟩
  | cons cond conds ih =>
      obtain ⟨value, hval⟩ := validNext_eq_val h (ready[i + 1]?.join) cond
        (signalName (i + 1) "_valid" ids.name) ids.expr
      obtain ⟨names, stmts, ids', hrest, hlen, hregs⟩ := ih (i + 1)
        (some (signalName (i + 1) "_valid" ids.name))
        ⟨ids.name + 1, (validNext prev (ready[i]?.join) (ready[i + 1]?.join) cond
          (signalName (i + 1) "_valid" ids.name) ids.expr).2.2⟩
        (Or.inl rfl)
      refine ⟨signalName (i + 1) "_valid" ids.name :: names, _, ids', by
        simp only [validSignals, hval, hrest, Option.bind_eq_bind, Option.bind_some]
        rfl, by simp [hlen], fun j hj => ?_⟩
      cases j with
      | zero =>
          refine ⟨_, rfl, ids.expr, value, hval, fun s hs => ?_, ?_⟩
          · exact List.mem_append_left _ (List.mem_append_left _ hs)
          · exact List.mem_append_left _ (List.mem_append_right _ (List.mem_singleton_self _))
      | succ j =>
          obtain ⟨name, hname, hreg⟩ := hregs j (by simpa using hj)
          refine ⟨name, by simpa using hname, ?_⟩
          rw [show i + (j + 1) = i + 1 + j by omega]
          exact hreg.mono fun s hs => List.mem_append_right _ hs

/-- Without a condition no stage has a valid register. -/
theorem validSignals_none {clock : ValueName} {ready : List (Option ValueName)}
    (hready : ∀ r ∈ ready, r = none) {conds : List (Option ValueName)}
    (hconds : ∀ c ∈ conds, c = none) (i : ℕ) (ids : Ids) :
    ∃ ids', validSignals clock ready conds i none ids =
      some (List.replicate conds.length none, [], ids') := by
  have hnone : ∀ i : ℕ, ready[i]?.join = none := by
    intro i
    rcases hr : ready[i]? with _ | r
    · rfl
    · rw [hready r (List.mem_of_getElem? hr)]
      rfl
  induction conds generalizing i ids with
  | nil => exact ⟨ids, rfl⟩
  | cons cond conds ih =>
      rw [List.forall_mem_cons] at hconds
      obtain ⟨ids', hrest⟩ := ih hconds.2 (i + 1) ⟨ids.name + 1, ids.expr⟩
      refine ⟨ids', ?_⟩
      simp only [validSignals, hnone, hconds.1, validNext_none, hrest, Option.bind_eq_bind,
        Option.bind_some, List.length_cons, List.replicate_succ, List.nil_append]

/-! ### Enable signals -/

theorem stageEnableNames_length (numStages : ℕ) (conds : List (Option ValueName)) (next : ℕ) :
    (stageEnableNames numStages conds next).1.length = conds.length := by
  induction conds with
  | nil => rfl
  | cons cond conds ih =>
      simp only [stageEnableNames]
      split_ifs <;> simp [ih]

/-- A stage has an enable signal when it or a later one has a condition. -/
theorem stageEnableNames_isSome (numStages : ℕ) (conds : List (Option ValueName)) (next : ℕ) :
    (stageEnableNames numStages conds next).2.1 = conds.any Option.isSome ∧
      ((stageEnableNames numStages conds next).1[0]?.join).isSome =
        conds.any Option.isSome := by
  induction conds with
  | nil => exact ⟨rfl, rfl⟩
  | cons cond conds ih =>
      simp only [stageEnableNames, List.any_cons, Bool.or_comm cond.isSome, ← ih.1]
      split_ifs with h
      · exact ⟨h.symm, h.symm⟩
      · rw [Bool.not_eq_true] at h
        rw [h]
        exact ⟨(Bool.or_eq_false_iff.mp h).1, rfl⟩

/-- No stage has an enable signal when there is no condition. -/
theorem stageEnableNames_none {conds : List (Option ValueName)} (h : ∀ c ∈ conds, c = none)
    (numStages next : ℕ) : ∀ r ∈ (stageEnableNames numStages conds next).1, r = none := by
  induction conds with
  | nil => exact fun r hr => absurd hr List.not_mem_nil
  | cons cond conds ih =>
      rw [List.forall_mem_cons] at h
      have hfalse : (stageEnableNames numStages conds next).2.1 = false := by
        rw [(stageEnableNames_isSome numStages conds next).1, List.any_eq_false]
        intro c hc
        simp [h.2 c hc]
      simp only [stageEnableNames, hfalse, h.1, Option.isSome_none, Bool.or_self,
        Bool.false_eq_true, if_false, List.forall_mem_cons, true_and]
      exact ih h.2

theorem stageEnableNames_cons_some {numStages : ℕ} {c : Option ValueName}
    {conds : List (Option ValueName)} {next : ℕ}
    (h : ((stageEnableNames numStages conds next).2.1 || c.isSome) = true) :
    ∃ name, (stageEnableNames numStages (c :: conds) next).1 =
      some name :: (stageEnableNames numStages conds next).1 := by
  simp only [stageEnableNames, h, if_true]
  exact ⟨_, rfl⟩

theorem stageEnableNames_cons_none {numStages : ℕ} {c : Option ValueName}
    {conds : List (Option ValueName)} {next : ℕ}
    (h : ((stageEnableNames numStages conds next).2.1 || c.isSome) = false) :
    (stageEnableNames numStages (c :: conds) next).1 =
      none :: (stageEnableNames numStages conds next).1 := by
  simp only [stageEnableNames, h, Bool.false_eq_true, if_false]

/-- The statement for the enable signal of one stage, on top of those of the later stages. -/
theorem enableSignals_cons (I : Interp H) {numStages : ℕ} (cond : Option ValueName)
    {conds : List (Option ValueName)} {next : ℕ} {stmts : List Statement}
    (h : enableSignals (conds.zip (stageEnableNames numStages conds next).1) =
      some ((stageEnableNames numStages conds next).1[0]?.join, stmts)) :
    ∃ signal new, (stageEnableNames numStages (cond :: conds) next).1 =
        signal :: (stageEnableNames numStages conds next).1 ∧
      enableSignals ((cond :: conds).zip (signal :: (stageEnableNames numStages conds next).1)) =
        some (signal, stmts ++ new) ∧
      ∀ hid ρ, AllSatisfied I hid ρ new → optTruth ρ signal =
        (optTruth ρ cond && optTruth ρ ((stageEnableNames numStages conds next).1[0]?.join)) := by
  obtain ⟨hany, hsome⟩ := stageEnableNames_isSome numStages conds next
  rw [← hany] at hsome
  simp only [List.zip_cons_cons]
  rcases hcurrent : (stageEnableNames numStages conds next).1[0]?.join with _ | current <;>
    rw [hcurrent] at h hsome <;> rcases cond with _ | cond
  · have hcons := stageEnableNames_cons_none (c := none) (by rw [← hsome]; rfl)
    exact ⟨none, [], hcons, by simp [enableSignals, h], fun _ _ _ => rfl⟩
  · obtain ⟨name, hcons⟩ := stageEnableNames_cons_some (c := some cond)
      (by rw [Option.isSome_some, Bool.or_true])
    exact ⟨some name, [boolBinding name .alias [cond]], hcons, by simp [enableSignals, h],
      fun _ _ hs => by simpa using truth_alias (hs _ (List.mem_singleton_self _))⟩
  · obtain ⟨name, hcons⟩ := stageEnableNames_cons_some (c := none) (by rw [← hsome]; rfl)
    exact ⟨some name, [boolBinding name .alias [current]], hcons, by simp [enableSignals, h],
      fun _ _ hs => by simpa using truth_alias (hs _ (List.mem_singleton_self _))⟩
  · obtain ⟨name, hcons⟩ := stageEnableNames_cons_some (c := some cond)
      (by rw [Option.isSome_some, Bool.or_true])
    exact ⟨some name, [boolBinding name .logicalAnd [cond, current]], hcons,
      by simp [enableSignals, h],
      fun _ _ hs => by simpa using truth_logicalAnd (hs _ (List.mem_singleton_self _))⟩

/-- **Enable signals.** They are generated without a panic, the last one generated is that of the
first stage, and the enable signal of a stage is the conjunction of the conditions from this stage
on. -/
theorem enableSignals_spec (I : Interp H) (numStages : ℕ) (conds : List (Option ValueName))
    (next : ℕ) :
    ∃ stmts, enableSignals (conds.zip (stageEnableNames numStages conds next).1) =
        some ((stageEnableNames numStages conds next).1[0]?.join, stmts) ∧
      ∀ hid ρ, AllSatisfied I hid ρ stmts → ∀ i ≤ conds.length,
        optTruth ρ ((stageEnableNames numStages conds next).1[i]?.join) =
          (conds.drop i).all (optTruth ρ) := by
  induction conds with
  | nil =>
      refine ⟨[], rfl, fun _ _ _ i hi => ?_⟩
      obtain rfl : i = 0 := by simpa using hi
      rfl
  | cons cond conds ih =>
      obtain ⟨stmts, hstmts, htruth⟩ := ih
      obtain ⟨signal, new, hnames, hnew, hsignal⟩ := enableSignals_cons I cond hstmts
      rw [hnames]
      refine ⟨_, hnew, fun hid ρ hs i hi => ?_⟩
      obtain ⟨hs, hs'⟩ := List.forall_mem_append.mp hs
      cases i with
      | zero =>
          rw [List.getElem?_cons_zero, Option.join_some, hsignal hid ρ hs',
            htruth hid ρ hs 0 (Nat.zero_le _)]
          simp
      | succ i =>
          rw [List.getElem?_cons_succ, List.drop_succ_cons]
          exact htruth hid ρ hs i (by simpa using hi)

end Spade.HirLowering

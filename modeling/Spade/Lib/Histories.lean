import Mathlib.Data.List.Basic

/-!
# Transition systems and their histories

A history is the list of the steps that a system took, each with its event and the states around
it.

* **Invariants** (`Reaches.invariant`): what the steps preserve holds at the end of a history.
* **Conservation** (`Reaches.conservation`): if every step hands on what it takes in, then what was
  taken in is what was handed out, followed by what the state still holds.
* **Registers** (`Reaches.last_written`): a register holds the last value written to it.
-/

variable {S E α : Type}

/-- A step of a system, with the event that caused it. -/
structure Transition (S E : Type) where
  before : S
  event : E
  after : S

/-- The steps of the history lead from the first state to the last one. -/
inductive Reaches (step : S → E → S → Prop) (s₀ : S) : List (Transition S E) → S → Prop
  | start : Reaches step s₀ [] s₀
  | next {h : List (Transition S E)} {s s' : S} {e : E} :
      Reaches step s₀ h s → step s e s' → Reaches step s₀ (h ++ [⟨s, e, s'⟩]) s'

/-- What somebody sees of a history who sees at most one value in every step. -/
def observed (observe : Transition S E → Option α) (h : List (Transition S E)) : List α :=
  h.flatMap fun t => (observe t).toList

theorem observed_nil (observe : Transition S E → Option α) : observed observe [] = [] := rfl

theorem observed_next (observe : Transition S E → Option α) (h : List (Transition S E))
    (t : Transition S E) :
    observed observe (h ++ [t]) = observed observe h ++ (observe t).toList := by
  simp [observed]

namespace Reaches

variable {step : S → E → S → Prop} {s₀ s : S} {h : List (Transition S E)}

/-- **Invariants.** What holds at the start, and is preserved by every step that is allowed, holds
at the end of every history of such steps. -/
theorem invariant (hreach : Reaches step s₀ h s) {allowed : Transition S E → Prop}
    {I : S → Prop} (hstart : I s₀)
    (hstep : ∀ s e s', I s → step s e s' → allowed ⟨s, e, s'⟩ → I s')
    (hallowed : ∀ t ∈ h, allowed t) : I s := by
  induction hreach with
  | start => exact hstart
  | next hreach hnext ih =>
      have hbefore := ih fun t ht => hallowed t (List.mem_append_left _ ht)
      exact hstep _ _ _ hbefore hnext (hallowed _ (List.mem_append_right _ List.mem_cons_self))

/-- **Conservation.** The contents of a state are a queue: a step appends what it takes in and
removes what it hands out at the front. -/
theorem conservation (hreach : Reaches step s₀ h s) {allowed : Transition S E → Prop}
    {I : S → Prop} (hstart : I s₀)
    (hstep : ∀ s e s', I s → step s e s' → allowed ⟨s, e, s'⟩ → I s')
    {contents : S → List α} {taken handed : Transition S E → Option α}
    (hempty : contents s₀ = [])
    (hcontents : ∀ s e s', I s → step s e s' → allowed ⟨s, e, s'⟩ →
      contents s ++ (taken ⟨s, e, s'⟩).toList = (handed ⟨s, e, s'⟩).toList ++ contents s')
    (hallowed : ∀ t ∈ h, allowed t) :
    observed taken h = observed handed h ++ contents s := by
  induction hreach with
  | start => rw [observed_nil, observed_nil, hempty, List.nil_append]
  | next hreach hnext ih =>
      have hbefore := fun t ht => hallowed t (List.mem_append_left _ ht)
      have hlast := hallowed _ (List.mem_append_right _ List.mem_cons_self)
      have hinv := hreach.invariant hstart hstep hbefore
      rw [observed_next, observed_next, ih hbefore, List.append_assoc, List.append_assoc,
        hcontents _ _ _ hinv hnext hlast]

/-- Who sees less sees a part of what the other one sees. -/
theorem observed_sublist (hreach : Reaches step s₀ h s) {allowed : Transition S E → Prop}
    {less more : Transition S E → Option α}
    (hstep : ∀ s e s', step s e s' → allowed ⟨s, e, s'⟩ →
      ∀ a ∈ less ⟨s, e, s'⟩, a ∈ more ⟨s, e, s'⟩)
    (hallowed : ∀ t ∈ h, allowed t) : (observed less h).Sublist (observed more h) := by
  induction hreach with
  | start => exact List.Sublist.refl _
  | next hreach hnext ih =>
      have hlast := hallowed _ (List.mem_append_right _ List.mem_cons_self)
      rw [observed_next, observed_next]
      refine (ih fun t ht => hallowed t (List.mem_append_left _ ht)).append ?_
      rcases hless : less _ with _ | a
      · exact List.nil_sublist _
      · rw [hstep _ _ _ hnext hlast a hless]

/-- A register that holds the last value written to it. -/
theorem last_written (hreach : Reaches step s₀ h s) {allowed : Transition S E → Prop}
    {I : S → Prop} (hstart : I s₀)
    (hstep : ∀ s e s', I s → step s e s' → allowed ⟨s, e, s'⟩ → I s')
    {value : S → α} {written : Transition S E → Option α}
    (hvalue : ∀ s e s', I s → step s e s' → allowed ⟨s, e, s'⟩ →
      value s' = (written ⟨s, e, s'⟩).getD (value s))
    (hallowed : ∀ t ∈ h, allowed t) :
    value s = (observed written h).getLastD (value s₀) := by
  induction hreach with
  | start => rfl
  | next hreach hnext ih =>
      have hbefore := fun t ht => hallowed t (List.mem_append_left _ ht)
      have hlast := hallowed _ (List.mem_append_right _ List.mem_cons_self)
      rw [hvalue _ _ _ (hreach.invariant hstart hstep hbefore) hnext hlast, observed_next]
      rcases written _ with _ | a
      · simpa using ih hbefore
      · simp

end Reaches

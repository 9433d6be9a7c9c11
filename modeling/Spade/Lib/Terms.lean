import Mathlib.Data.List.Basic

/-!
# First-order terms

Terms over function symbols `F` and variables `V`, and the comparison of two terms whose variables
have nothing to do with each other, place by place, down to the places where one of them has a
variable or the symbols differ.

* **Common instances** (`bind_eq_bind_iff`): instances of two terms are equal exactly when the
  argument lists compared have the same length and the instances are equal at every such place.
* **Order** (`leaves_swap`): the places are the same, in the same order, for the terms the other way
  around.
-/

namespace Terms

inductive Term (F V : Type) where
  | var (v : V)
  | app (f : F) (args : List (Term F V))

variable {F V W X : Type}

mutual

/-- The instance of a term with these terms for its variables. -/
def Term.bind (σ : V → Term F X) : Term F V → Term F X
  | .var v => σ v
  | .app f args => .app f (bindAll σ args)

def bindAll (σ : V → Term F X) : List (Term F V) → List (Term F X)
  | [] => []
  | t :: ts => t.bind σ :: bindAll σ ts

end

variable [DecidableEq F]

mutual

/-- The places where the comparison of two terms ends: one of them has a variable there, or the
symbols differ. -/
def Term.leaves : Term F V → Term F W → List (Term F V × Term F W)
  | .var v, u => [(.var v, u)]
  | .app f ts, .var w => [(.app f ts, .var w)]
  | .app f ts, .app g us => if f = g then leavesAll ts us else [(.app f ts, .app g us)]

/-- The places for the arguments that both lists have. -/
def leavesAll : List (Term F V) → List (Term F W) → List (Term F V × Term F W)
  | t :: ts, u :: us => t.leaves u ++ leavesAll ts us
  | _, _ => []

end

mutual

/-- The argument lists that are compared have the same length. -/
def Term.SameLengths : Term F V → Term F W → Prop
  | .app f ts, .app g us => f = g → ts.length = us.length ∧ SameLengthsAll ts us
  | _, _ => True

def SameLengthsAll : List (Term F V) → List (Term F W) → Prop
  | t :: ts, u :: us => t.SameLengths u ∧ SameLengthsAll ts us
  | _, _ => True

end

/-! ### Common instances -/

variable {σ : V → Term F X} {τ : W → Term F X}

mutual

/-- **Common instances.** -/
theorem bind_eq_bind_iff : ∀ (t : Term F V) (u : Term F W),
    t.bind σ = u.bind τ ↔ t.SameLengths u ∧ ∀ p ∈ t.leaves u, p.1.bind σ = p.2.bind τ
  | .var v, u => by simp [Term.SameLengths, Term.leaves]
  | .app f ts, .var w => by simp [Term.SameLengths, Term.leaves]
  | .app f ts, .app g us => by
      by_cases hsymbol : f = g
      · subst hsymbol
        simpa [Term.bind, Term.SameLengths, Term.leaves, and_assoc] using
          bindAll_eq_bindAll_iff ts us
      · simp [Term.bind, Term.SameLengths, Term.leaves, hsymbol]

theorem bindAll_eq_bindAll_iff : ∀ (ts : List (Term F V)) (us : List (Term F W)),
    bindAll σ ts = bindAll τ us ↔ ts.length = us.length ∧ SameLengthsAll ts us ∧
      ∀ p ∈ leavesAll ts us, p.1.bind σ = p.2.bind τ
  | [], [] => by simp [bindAll, SameLengthsAll, leavesAll]
  | [], _ :: _ => by simp [bindAll]
  | _ :: _, [] => by simp [bindAll]
  | t :: ts, u :: us => by
      have hhead := bind_eq_bind_iff t u
      have htail := bindAll_eq_bindAll_iff ts us
      simp only [bindAll, List.cons.injEq, hhead, htail, List.length_cons, Nat.add_right_cancel_iff,
        SameLengthsAll, leavesAll, List.forall_mem_append]
      tauto

end

/-! ### The places -/

mutual

/-- Where two symbols stand at the end of the comparison, they differ. -/
theorem symbols_ne_of_mem_leaves {f g : F} {ts' : List (Term F V)} {us' : List (Term F W)} :
    ∀ (t : Term F V) (u : Term F W), (.app f ts', .app g us') ∈ t.leaves u → f ≠ g
  | .var v, u, h => by simp [Term.leaves] at h
  | .app f' ts, .var w, h => by simp [Term.leaves] at h
  | .app f' ts, .app g' us, h => by
      rw [Term.leaves] at h
      split_ifs at h with hsymbol
      · exact symbols_ne_of_mem_leavesAll ts us h
      · obtain ⟨⟨rfl, -⟩, rfl, -⟩ := by simpa using h
        exact hsymbol

theorem symbols_ne_of_mem_leavesAll {f g : F} {ts' : List (Term F V)} {us' : List (Term F W)} :
    ∀ (ts : List (Term F V)) (us : List (Term F W)),
      (.app f ts', .app g us') ∈ leavesAll ts us → f ≠ g
  | [], _, h => by simp [leavesAll] at h
  | _ :: _, [], h => by simp [leavesAll] at h
  | t :: ts, u :: us, h => by
      rcases List.mem_append.mp h with h | h
      · exact symbols_ne_of_mem_leaves t u h
      · exact symbols_ne_of_mem_leavesAll ts us h

end

mutual

/-- **Order.** -/
theorem leaves_swap : ∀ (t : Term F V) (u : Term F W),
    u.leaves t = (t.leaves u).map Prod.swap
  | .var v, .var w => rfl
  | .var v, .app g us => rfl
  | .app f ts, .var w => rfl
  | .app f ts, .app g us => by
      by_cases hsymbol : f = g
      · subst hsymbol
        simpa [Term.leaves] using leavesAll_swap ts us
      · simp [Term.leaves, hsymbol, Ne.symm hsymbol]

theorem leavesAll_swap : ∀ (ts : List (Term F V)) (us : List (Term F W)),
    leavesAll us ts = (leavesAll ts us).map Prod.swap
  | [], [] => rfl
  | [], _ :: _ => rfl
  | _ :: _, [] => rfl
  | t :: ts, u :: us => by
      rw [leavesAll, leavesAll, List.map_append, leaves_swap t u, leavesAll_swap ts us]

end

/-- Two terms have a common instance without variables. -/
def HaveCommonInstance (t : Term F V) (u : Term F W) : Prop :=
  ∃ (σ : V → Term F Empty) (τ : W → Term F Empty), t.bind σ = u.bind τ

omit [DecidableEq F] in
theorem HaveCommonInstance.symm {t : Term F V} {u : Term F W} (h : HaveCommonInstance t u) :
    HaveCommonInstance u t := by
  obtain ⟨σ, τ, heq⟩ := h
  exact ⟨τ, σ, heq.symm⟩

theorem haveCommonInstance_iff {t : Term F V} {u : Term F W} :
    HaveCommonInstance t u ↔ t.SameLengths u ∧
      ∃ (σ : V → Term F Empty) (τ : W → Term F Empty),
        ∀ p ∈ t.leaves u, p.1.bind σ = p.2.bind τ := by
  constructor
  · rintro ⟨σ, τ, heq⟩
    obtain ⟨hlengths, hleaves⟩ := (bind_eq_bind_iff t u).mp heq
    exact ⟨hlengths, σ, τ, hleaves⟩
  · rintro ⟨hlengths, σ, τ, hleaves⟩
    exact ⟨σ, τ, (bind_eq_bind_iff t u).mpr ⟨hlengths, hleaves⟩⟩

/-- Symbols that differ at one place exclude a common instance. -/
theorem not_haveCommonInstance_of_mem_leaves {t : Term F V} {u : Term F W} {f g : F}
    {ts : List (Term F V)} {us : List (Term F W)} (h : (.app f ts, .app g us) ∈ t.leaves u) :
    ¬HaveCommonInstance t u := by
  intro hcommon
  obtain ⟨-, σ, τ, hleaves⟩ := haveCommonInstance_iff.mp hcommon
  have heq := hleaves _ h
  simp only [Term.bind, Term.app.injEq] at heq
  exact symbols_ne_of_mem_leaves t u h heq.1

end Terms

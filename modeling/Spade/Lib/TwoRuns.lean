import Mathlib.Order.Basic

/-!
# Two runs of computations with a state and errors

A relation between the runs of two computations in `StateT σ (Except ε)`: from related states both
end in related states, or both fail. What the states have in common is given by a world that can
only grow during the runs. A single run is the case of one computation related to itself.

* **Rules** (`related_pure`, `related_bind`, …): the relation for the parts gives the one for the
  whole.
-/

namespace Spade.Lib.TwoRuns

universe u

variable {σ τ α β α' β' : Type u} {ε W : Type*} [Preorder W]

/-- The outcomes of two runs: both end, in states and with values that are related in a later world,
or both fail. -/
def Outcomes (R : W → σ → τ → Prop) (E : ε → ε → Prop) (w : W) (Q : W → α → β → Prop) :
    Except ε (α × σ) → Except ε (β × τ) → Prop
  | .ok (a, s), .ok (b, t) => ∃ w', w ≤ w' ∧ R w' s t ∧ Q w' a b
  | .error e, .error e' => E e e'
  | _, _ => False

/-- From states that are related in a world after `w`, the outcomes are related. -/
def Related (R : W → σ → τ → Prop) (E : ε → ε → Prop) (w : W) (Q : W → α → β → Prop)
    (x : StateT σ (Except ε) α) (y : StateT τ (Except ε) β) : Prop :=
  ∀ ⦃w' : W⦄, w ≤ w' → ∀ ⦃s : σ⦄ ⦃t : τ⦄, R w' s t → Outcomes R E w' Q (x s) (y t)

variable {R : W → σ → τ → Prop} {E : ε → ε → Prop} {w : W} {Q : W → α → β → Prop}
  {Q' : W → α' → β' → Prop} {x : StateT σ (Except ε) α} {y : StateT τ (Except ε) β}

theorem Related.mono {w' : W} (h : Related R E w Q x y) (hle : w ≤ w') : Related R E w' Q x y :=
  fun _ hle' _ _ hR => h (hle.trans hle') hR

theorem Outcomes.imp {Q' : W → α → β → Prop} {r : Except ε (α × σ)} {r' : Except ε (β × τ)}
    (h : Outcomes R E w Q r r') (hQ : ∀ w' a b, w ≤ w' → Q w' a b → Q' w' a b) :
    Outcomes R E w Q' r r' := by
  rcases r with e | ⟨a, s⟩ <;> rcases r' with e' | ⟨b, t⟩
  · exact h
  · exact h
  · exact h
  · obtain ⟨w', hle, hR, hab⟩ := h
    exact ⟨w', hle, hR, hQ w' a b hle hab⟩

theorem related_pure {a : α} {b : β} (h : ∀ w', w ≤ w' → Q w' a b) :
    Related R E w Q (pure a) (pure b) :=
  fun w' hle _ _ hR => ⟨w', le_rfl, hR, h w' hle⟩

theorem related_throw {e e' : ε} (h : E e e') :
    Related R E w Q (throw e : StateT σ (Except ε) α) (throw e' : StateT τ (Except ε) β) :=
  fun _ _ _ _ _ => h

/-- The rest of two runs, after outcomes that are related. -/
theorem Outcomes.bind {s : σ} {t : τ} (h : Outcomes R E w Q (x s) (y t))
    {f : α → StateT σ (Except ε) α'} {g : β → StateT τ (Except ε) β'}
    (hf : ∀ w', w ≤ w' → ∀ a b, Q w' a b → Related R E w' Q' (f a) (g b)) :
    Outcomes R E w Q' ((x >>= f) s) ((y >>= g) t) := by
  change Outcomes R E w Q' (x s >>= fun p => f p.1 p.2) (y t >>= fun p => g p.1 p.2)
  rcases hx : x s with e | ⟨a, s'⟩ <;> rcases hy : y t with e' | ⟨b, t'⟩ <;> rw [hx, hy] at h
  · exact h
  · exact h.elim
  · exact h.elim
  · obtain ⟨w', hle, hR, hab⟩ := h
    have hrest := hf w' hle a b hab le_rfl hR
    change Outcomes R E w Q' (f a s') (g b t')
    rcases hr : f a s' with e | ⟨a', s₁⟩ <;> rcases hr' : g b t' with e' | ⟨b', t₁⟩ <;>
      rw [hr, hr'] at hrest
    · exact hrest
    · exact hrest.elim
    · exact hrest.elim
    · obtain ⟨w₁, hle', hR', hab'⟩ := hrest
      exact ⟨w₁, hle.trans hle', hR', hab'⟩

theorem related_bind (h : Related R E w Q x y) {f : α → StateT σ (Except ε) α'}
    {g : β → StateT τ (Except ε) β'}
    (hf : ∀ w', w ≤ w' → ∀ a b, Q w' a b → Related R E w' Q' (f a) (g b)) :
    Related R E w Q' (x >>= f) (y >>= g) := by
  intro w' hle s t hR
  exact (h hle hR).bind fun w₁ hle' a b hab => hf w₁ (hle.trans hle') a b hab

/-- The states are read. -/
theorem related_get {f : σ → StateT σ (Except ε) α} {g : τ → StateT τ (Except ε) β}
    (h : ∀ w', w ≤ w' → ∀ s t, R w' s t → Outcomes R E w' Q (f s s) (g t t)) :
    Related R E w Q (get >>= f) (get >>= g) :=
  fun w' hle s t hR => h w' hle s t hR

/-- The states are changed. -/
theorem related_modify {f : σ → σ} {g : τ → τ} {Q : W → PUnit → PUnit → Prop}
    (h : ∀ w', w ≤ w' → ∀ s t, R w' s t → ∃ w₁, w' ≤ w₁ ∧ R w₁ (f s) (g t) ∧ Q w₁ ⟨⟩ ⟨⟩) :
    Related R E w Q (modify f : StateT σ (Except ε) PUnit)
      (modify g : StateT τ (Except ε) PUnit) :=
  fun w' hle s t hR => h w' hle s t hR

end Spade.Lib.TwoRuns

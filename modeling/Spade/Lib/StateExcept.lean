import Mathlib.Tactic.TypeStar

/-!
# Successful runs of computations with a state and errors

Inversion lemmas for `Except ε` and `StateT σ (Except ε)`: a run that ends without an error is put together from
runs of its parts that do so too. From these come the rules for what a computation does to the
state whenever it ends (`Keeps`).
-/

namespace Spade.Lib.StateExcept

universe u

variable {σ α β : Type u} {ε : Type*}

theorem exists_of_bind_eq_ok {x : Except ε α} {f : α → Except ε β} {b : β}
    (h : x >>= f = .ok b) : ∃ a, x = .ok a ∧ f a = .ok b := by
  cases x with
  | error err => exact absurd h nofun
  | ok a => exact ⟨a, rfl, h⟩

/-- A run from `s` ends with the value `a` in the state `t`. -/
def Ends (x : StateT σ (Except ε) α) (s : σ) (a : α) (t : σ) : Prop := x s = .ok (a, t)

variable {x : StateT σ (Except ε) α} {s t : σ}

theorem pure_ends {a b : α} (h : Ends (pure a : StateT σ (Except ε) α) s b t) :
    b = a ∧ t = s := by
  cases h
  exact ⟨rfl, rfl⟩

theorem bind_ends {f : α → StateT σ (Except ε) β} {b : β} (h : Ends (x >>= f) s b t) :
    ∃ a r, Ends x s a r ∧ Ends (f a) r b t := by
  unfold Ends at h
  change (x s >>= fun p => f p.1 p.2) = _ at h
  cases hx : x s with
  | error e =>
      rw [hx] at h
      cases h
  | ok p =>
      rw [hx] at h
      exact ⟨p.1, p.2, hx, h⟩

theorem get_ends {a : σ} (h : Ends (get : StateT σ (Except ε) σ) s a t) : a = s ∧ t = s := by
  cases h
  exact ⟨rfl, rfl⟩

theorem modify_ends {f : σ → σ} {b : PUnit}
    (h : Ends (modify f : StateT σ (Except ε) PUnit) s b t) : t = f s := by
  cases h
  rfl

theorem not_throw_ends {e : ε} {a : α} : ¬ Ends (throw e : StateT σ (Except ε) α) s a t := by
  intro h
  cases h

/-! ### Relations that are kept -/

/-- Whenever the computation ends, its last state is related to the first one. -/
def Keeps (P : σ → σ → Prop) (x : StateT σ (Except ε) α) : Prop :=
  ∀ ⦃s : σ⦄ ⦃a : α⦄ ⦃t : σ⦄, Ends x s a t → P s t

variable {P : σ → σ → Prop}

theorem keeps_pure (hrefl : ∀ s, P s s) (a : α) : Keeps P (pure a : StateT σ (Except ε) α) := by
  intro s b t h
  obtain ⟨-, rfl⟩ := pure_ends h
  exact hrefl t

theorem keeps_get (hrefl : ∀ s, P s s) : Keeps P (get : StateT σ (Except ε) σ) := by
  intro s a t h
  obtain ⟨-, rfl⟩ := get_ends h
  exact hrefl t

theorem keeps_throw (e : ε) : Keeps P (throw e : StateT σ (Except ε) α) :=
  fun _ _ _ h => absurd h not_throw_ends

theorem keeps_bind (htrans : ∀ s t u, P s t → P t u → P s u)
    {f : α → StateT σ (Except ε) β} (hx : Keeps P x) (hf : ∀ a, Keeps P (f a)) :
    Keeps P (x >>= f) := by
  intro s b t h
  obtain ⟨a, r, hxr, hfr⟩ := bind_ends h
  exact htrans s r t (hx hxr) (hf a hfr)

/-- The state is read and then written. -/
theorem keeps_get_set {f : σ → σ} {g : σ → StateT σ (Except ε) β}
    (htrans : ∀ s t u, P s t → P t u → P s u) (hf : ∀ s, P s (f s)) (hg : ∀ s, Keeps P (g s)) :
    Keeps P (do
      let s ← get
      set (f s)
      g s) := by
  intro s b t h
  obtain ⟨s', s1, hget, h1⟩ := bind_ends h
  obtain ⟨rfl, rfl⟩ := get_ends hget
  obtain ⟨x, s2, hset, h2⟩ := bind_ends h1
  cases hset
  exact htrans _ _ _ (hf _) (hg _ h2)

theorem keeps_modify {f : σ → σ} (hf : ∀ s, P s (f s)) :
    Keeps P (modify f : StateT σ (Except ε) PUnit) := by
  intro s a t h
  obtain rfl := modify_ends h
  exact hf s

end Spade.Lib.StateExcept

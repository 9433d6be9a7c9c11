import Mathlib.Tactic.TypeStar

/-!
# Runs that keep their state when they fail

Computations with a state that ends with an error keep what the computation did to the state before
the error; a computation that panics has no state at all. What a computation may do to its state is
a pair of relations, one between the states around a success and one between those around an error.

* **Inversions** (`bind_ok`, `bind_error`): a run of a sequence is put together from runs of its
  parts.
* **First steps** (`runs_get_bind`, …): what a run does whose first step reads or changes the state,
  or may fail or panic.
* **Moves** (`Moves.bind`, `Moves.forM`): the pair is kept by sequences and loops when it composes
  (`Composes`).
-/

namespace Spade.Lib

universe u

/-- Computations with a state `σ` and errors `ε` that may panic (`none`). -/
abbrev Failing (σ ε : Type u) : Type u → Type u := ExceptT ε (StateT σ Option)

namespace Failing

variable {σ ε α β : Type u}

/-- The error of `m` as a value, with the state that `m` left. -/
def attempt (m : Failing σ ε α) : Failing σ ε (Except ε α) :=
  ExceptT.mk (do
    let r ← m.run
    pure (.ok r))

/-- The value, or a panic. -/
def orPanic (x : Option α) : Failing σ ε α :=
  ExceptT.mk fun s => x.map fun a => (.ok a, s)

/-- A computation on a part of the state, with its errors mapped. -/
def zoom {τ ε' : Type u} (get : σ → τ) (set : τ → σ → σ) (f : ε' → ε) (m : Failing τ ε' α) :
    Failing σ ε α :=
  ExceptT.mk fun s => (m.run (get s)).map fun p => (p.1.mapError f, set p.2 s)

/-- The run of `m` from `s` ends in `t`, with the result or the error `r`. -/
def Runs (m : Failing σ ε α) (s : σ) (r : Except ε α) (t : σ) : Prop := m.run s = some (r, t)

/-- The run of `m` from `s` succeeds. -/
def Passes (m : Failing σ ε α) (s : σ) : Prop := ∃ a t, Runs m s (.ok a) t

variable {m : Failing σ ε α} {f : α → Failing σ ε β} {s t : σ}

theorem runs_unique {r r' : Except ε α} {t' : σ} (h : Runs m s r t) (h' : Runs m s r' t') :
    r = r' ∧ t = t' := by
  unfold Runs at h h'
  rw [h] at h'
  exact Prod.ext_iff.mp (Option.some.inj h')

/-! ### Inversions -/

theorem pure_runs {a : α} {r : Except ε α} (h : Runs (pure a : Failing σ ε α) s r t) :
    r = .ok a ∧ t = s := by
  cases h
  exact ⟨rfl, rfl⟩

theorem throw_runs {e : ε} {r : Except ε α} (h : Runs (throw e : Failing σ ε α) s r t) :
    r = .error e ∧ t = s := by
  cases h
  exact ⟨rfl, rfl⟩

theorem get_runs {r : Except ε σ} (h : Runs (get : Failing σ ε σ) s r t) : r = .ok s ∧ t = s := by
  cases h
  exact ⟨rfl, rfl⟩

theorem modify_runs {g : σ → σ} {r : Except ε PUnit}
    (h : Runs (modify g : Failing σ ε PUnit) s r t) : r = .ok ⟨⟩ ∧ t = g s := by
  cases h
  exact ⟨rfl, rfl⟩

theorem run_bind (m : Failing σ ε α) (f : α → Failing σ ε β) (s : σ) :
    (m >>= f).run s = (m.run s).bind fun p =>
      match p.1 with
      | .ok a => (f a).run p.2
      | .error e => some (.error e, p.2) := by
  change (m.run s).bind _ = _
  congr 1
  funext p
  obtain ⟨r, t⟩ := p
  cases r with
  | ok a => rfl
  | error e => rfl

/-- A run of a sequence: either the first part fails, or the second one runs from where the first
one ended. -/
theorem bind_runs {r : Except ε β} (h : Runs (m >>= f) s r t) :
    (∃ a u, Runs m s (.ok a) u ∧ Runs (f a) u r t) ∨ ∃ e, r = .error e ∧ Runs m s (.error e) t := by
  unfold Runs at h
  rw [run_bind] at h
  obtain ⟨⟨q, u⟩, hq, h⟩ := Option.bind_eq_some_iff.mp h
  cases q with
  | ok a => exact .inl ⟨a, u, hq, h⟩
  | error e =>
      cases h
      exact .inr ⟨e, rfl, hq⟩

theorem bind_ok {b : β} (h : Runs (m >>= f) s (.ok b) t) :
    ∃ a u, Runs m s (.ok a) u ∧ Runs (f a) u (.ok b) t := by
  rcases bind_runs h with h | ⟨e, he, -⟩
  · exact h
  · nomatch he

theorem attempt_runs {r : Except ε (Except ε α)} (h : Runs (attempt m) s r t) :
    ∃ q, r = .ok q ∧ Runs m s q t := by
  unfold Runs at h
  change (m.run s).bind _ = _ at h
  obtain ⟨⟨q, u⟩, hq, h⟩ := Option.bind_eq_some_iff.mp h
  cases h
  exact ⟨q, rfl, hq⟩

theorem liftExcept_runs {q r : Except ε α}
    (h : Runs (liftExcept q : Failing σ ε α) s r t) : r = q ∧ t = s := by
  cases q with
  | ok a => exact pure_runs h
  | error e => exact throw_runs h

theorem orPanic_runs {x : Option α} {r : Except ε α}
    (h : Runs (orPanic x : Failing σ ε α) s r t) : (∃ a, x = some a ∧ r = .ok a) ∧ t = s := by
  obtain ⟨a, ha, h⟩ := Option.map_eq_some_iff.mp h
  obtain ⟨rfl, rfl⟩ := Prod.ext_iff.mp h
  exact ⟨⟨a, ha, rfl⟩, rfl⟩

theorem zoom_runs {τ ε' : Type u} {get : σ → τ} {set : τ → σ → σ} {f : ε' → ε}
    {m : Failing τ ε' α} {r : Except ε α} (h : Runs (zoom get set f m) s r t) :
    ∃ q u, Runs m (get s) q u ∧ r = q.mapError f ∧ t = set u s := by
  obtain ⟨⟨q, u⟩, hq, h⟩ := Option.map_eq_some_iff.mp h
  obtain ⟨rfl, rfl⟩ := Prod.ext_iff.mp h
  exact ⟨q, u, hq, rfl, rfl⟩

/-! ### First steps -/

theorem runs_pure {a : α} {r : Except ε α} :
    Runs (pure a : Failing σ ε α) s r t ↔ r = .ok a ∧ t = s := by
  refine ⟨pure_runs, ?_⟩
  rintro ⟨rfl, rfl⟩
  rfl

theorem runs_get_bind {f : σ → Failing σ ε β} {r : Except ε β} :
    Runs (get >>= f) s r t ↔ Runs (f s) s r t := Iff.rfl

theorem runs_modify_bind {g : σ → σ} {f : PUnit → Failing σ ε β} {r : Except ε β} :
    Runs (modify g >>= f) s r t ↔ Runs (f ⟨⟩) (g s) r t := Iff.rfl

theorem runs_orPanic_bind {x : Option α} {f : α → Failing σ ε β} {r : Except ε β} :
    Runs (orPanic x >>= f) s r t ↔ ∃ a, x = some a ∧ Runs (f a) s r t := by
  rcases x with _ | a
  · exact ⟨fun h => absurd h.symm (Option.some_ne_none _), fun ⟨a, h, _⟩ => absurd h.symm
      (Option.some_ne_none _)⟩
  · exact ⟨fun h => ⟨a, rfl, h⟩, fun ⟨a', h, hr⟩ => Option.some.inj h ▸ hr⟩

theorem runs_liftExcept_bind {q : Except ε α} {f : α → Failing σ ε β} {r : Except ε β} :
    Runs ((liftExcept q : Failing σ ε α) >>= f) s r t ↔
      (∃ a, q = .ok a ∧ Runs (f a) s r t) ∨ ∃ e, q = .error e ∧ r = .error e ∧ t = s := by
  rcases q with e | a
  · refine ⟨fun h => .inr ⟨e, rfl, throw_runs h⟩, ?_⟩
    rintro (⟨a, h, -⟩ | ⟨e', h, rfl, rfl⟩)
    · exact absurd h (by simp)
    · rw [Except.error.inj h]
      rfl
  · refine ⟨fun h => .inl ⟨a, rfl, h⟩, ?_⟩
    rintro (⟨a', h, hr⟩ | ⟨e, h, -⟩)
    · exact Except.ok.inj h ▸ hr
    · exact absurd h (by simp)

/-! ### Moves -/

/-- Relations of the states around successes and around errors that sequences keep. -/
structure Composes (K E : σ → σ → Prop) : Prop where
  refl : ∀ s, K s s
  refl_error : ∀ s, E s s
  trans : ∀ {s t u}, K s t → K t u → K s u
  trans_error : ∀ {s t u}, K s t → E t u → E s u

/-- Runs of `m` that succeed change the state by `K`, those that fail by `E`. -/
structure Moves (K E : σ → σ → Prop) (m : Failing σ ε α) : Prop where
  ok : ∀ {s a t}, Runs m s (.ok a) t → K s t
  error : ∀ {s e t}, Runs m s (.error e) t → E s t

namespace Moves

variable {K E K' E' : σ → σ → Prop}

theorem mono (hm : Moves K E m) (hK : ∀ {s t}, K s t → K' s t) (hE : ∀ {s t}, E s t → E' s t) :
    Moves K' E' m :=
  ⟨fun h => hK (hm.ok h), fun h => hE (hm.error h)⟩

/-- What a run does that moves by one relation, whether it succeeds or not. -/
theorem run {r : Except ε α} (hm : Moves K K m) (h : Runs m s r t) : K s t := by
  cases r with
  | ok a => exact hm.ok h
  | error e => exact hm.error h

theorem pure (hc : Composes K E) (a : α) : Moves K E (pure a : Failing σ ε α) where
  ok h := by
    obtain ⟨-, rfl⟩ := pure_runs h
    exact hc.refl _
  error h := by
    obtain ⟨hr, -⟩ := pure_runs h
    nomatch hr

theorem throw (hc : Composes K E) (e : ε) : Moves K E (throw e : Failing σ ε α) where
  ok h := by
    obtain ⟨hr, -⟩ := throw_runs h
    nomatch hr
  error h := by
    obtain ⟨-, rfl⟩ := throw_runs h
    exact hc.refl_error _

theorem get (hc : Composes K E) : Moves K E (get : Failing σ ε σ) where
  ok h := by
    obtain ⟨-, rfl⟩ := get_runs h
    exact hc.refl _
  error h := by
    obtain ⟨hr, -⟩ := get_runs h
    nomatch hr

theorem modify {g : σ → σ} (h : ∀ s, K s (g s)) :
    Moves K E (modify g : Failing σ ε PUnit) where
  ok hr := by
    obtain ⟨-, rfl⟩ := modify_runs hr
    exact h _
  error hr := by
    obtain ⟨he, -⟩ := modify_runs hr
    nomatch he

theorem liftExcept (hc : Composes K E) (q : Except ε α) :
    Moves K E (liftExcept q : Failing σ ε α) := by
  cases q with
  | ok a => exact .pure hc a
  | error e => exact .throw hc e

theorem orPanic (hc : Composes K E) (x : Option α) : Moves K E (orPanic x : Failing σ ε α) where
  ok h := by
    obtain ⟨-, rfl⟩ := orPanic_runs h
    exact hc.refl _
  error h := by
    obtain ⟨⟨a, -, hr⟩, -⟩ := orPanic_runs h
    exact absurd hr (by simp)

theorem zoom {τ ε' : Type u} {get : σ → τ} {set : τ → σ → σ} {f : ε' → ε} {m : Failing τ ε' α}
    (hK : ∀ s t, K s (set t s)) (hE : ∀ s t, E s (set t s)) : Moves K E (zoom get set f m) where
  ok h := by
    obtain ⟨q, u, -, -, rfl⟩ := zoom_runs h
    exact hK _ _
  error h := by
    obtain ⟨q, u, -, -, rfl⟩ := zoom_runs h
    exact hE _ _

theorem bind (hc : Composes K E) (hm : Moves K E m) (hf : ∀ a, Moves K E (f a)) :
    Moves K E (m >>= f) where
  ok h := by
    obtain ⟨a, u, h₁, h₂⟩ := bind_ok h
    exact hc.trans (hm.ok h₁) ((hf a).ok h₂)
  error h := by
    rcases bind_runs h with ⟨a, u, h₁, h₂⟩ | ⟨e, -, h₁⟩
    · exact hc.trans_error (hm.ok h₁) ((hf a).error h₂)
    · exact hm.error h₁

/-- An error that is only looked at later has to leave a state that a success may leave. -/
theorem attempt (hm : Moves K K m) : Moves K E (attempt m) where
  ok h := by
    obtain ⟨q, -, hq⟩ := attempt_runs h
    cases q with
    | ok a => exact hm.ok hq
    | error e => exact hm.error hq
  error h := by
    obtain ⟨q, hq, -⟩ := attempt_runs h
    nomatch hq

theorem forM {ι : Type*} (hc : Composes K E) (xs : List ι) {g : ι → Failing σ ε PUnit}
    (hg : ∀ x ∈ xs, Moves K E (g x)) : Moves K E (forM xs g) := by
  induction xs with
  | nil => exact .pure hc _
  | cons x xs ih =>
      rw [List.forM_cons]
      apply Moves.bind hc (hg x List.mem_cons_self)
      intro _
      exact ih fun y hy => hg y (List.mem_cons_of_mem x hy)

end Moves

end Failing

end Spade.Lib

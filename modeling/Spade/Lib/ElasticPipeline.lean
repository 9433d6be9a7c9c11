import Mathlib.Data.List.Basic
import Mathlib.Data.Nat.Notation

/-!
# Pipelines that stall

A pipeline of `n` registers carries data from stage `0` to stage `n`. In every cycle each stage may
be enabled; a stage that is enabled hands its content to the next stage, a stage that is not keeps
it, and when a stage stalls while the next one moves on, a bubble takes the place behind it. Stage
`n` never stalls.

* **Conservation** (`Pipeline.conservation`): what has been accepted at stage `0` is what has left
  at stage `n`, followed by what the stages in between hold, in order.
-/

variable {α : Type}

/-- The trace of a pipeline with `n` registers, by cycle and stage. -/
structure Pipeline (α : Type) (n : ℕ) where
  enable : ℕ → ℕ → Bool
  valid : ℕ → ℕ → Bool
  data : ℕ → ℕ → α
  enable_last : ∀ t, enable t n = true
  /-- A stage only moves when all stages after it do. -/
  enable_next : ∀ t i, i < n → enable t i = true → enable t (i + 1) = true
  valid_first : ∀ t, valid t 0 = true
  valid_initial : ∀ i < n, valid 0 (i + 1) = false
  valid_next : ∀ t, ∀ i < n, valid (t + 1) (i + 1) =
    if enable t i then valid t i else valid t (i + 1) && !enable t (i + 1)
  data_next : ∀ t, ∀ i < n, data (t + 1) (i + 1) = if enable t i then data t i else data t (i + 1)

/-- The values at the first `k` indices at which `on` holds, in order. -/
def sampled (on : ℕ → Bool) (value : ℕ → α) (k : ℕ) : List α :=
  ((List.range k).filter on).map value

theorem sampled_zero (on : ℕ → Bool) (value : ℕ → α) : sampled on value 0 = [] := rfl

theorem sampled_succ (on : ℕ → Bool) (value : ℕ → α) (k : ℕ) :
    sampled on value (k + 1) = sampled on value k ++ if on k then [value k] else [] := by
  rw [sampled, List.range_succ, List.filter_append, List.map_append, sampled]
  rcases hk : on k with _ | _ <;> simp [hk]

namespace Pipeline

variable {n : ℕ} (p : Pipeline α n)

/-- The data taken at stage `0` before cycle `t`. -/
def accepted (t : ℕ) : List α := sampled (p.enable · 0) (p.data · 0) t

/-- The data that left at stage `n` before cycle `t`. -/
def emitted (t : ℕ) : List α := sampled (p.valid · n) (p.data · n) t

/-- What a stage holds. -/
def item (t i : ℕ) : List α := if p.valid t i then [p.data t i] else []

/-- What the last `k` stages hold, the oldest first. -/
def held (t k : ℕ) : List α := sampled (fun j => p.valid t (n - j)) (fun j => p.data t (n - j)) k

theorem held_zero (t : ℕ) : p.held t 0 = [] := rfl

theorem held_succ (t k : ℕ) : p.held t (k + 1) = p.held t k ++ p.item t (n - k) :=
  sampled_succ _ _ _

/-- What a stage holds next. -/
theorem item_next {t i : ℕ} (hi : i < n) :
    p.item (t + 1) (i + 1) =
      if p.enable t i then p.item t i
      else if p.enable t (i + 1) then [] else p.item t (i + 1) := by
  rw [item, item, item, p.valid_next t i hi, p.data_next t i hi]
  rcases p.enable t i <;> rcases p.enable t (i + 1) <;> simp

/-- One cycle of the last `k` stages: the last one emits what it holds, and the first one of them
takes what its predecessor hands over. -/
theorem held_next {t k : ℕ} (hk : k < n) :
    p.item t n ++ p.held (t + 1) (k + 1) =
      p.held t (k + 1) ++ if p.enable t (n - k - 1) then p.item t (n - k - 1) else [] := by
  induction k with
  | zero =>
      have hitem := p.item_next (t := t) (i := n - 1) (by omega)
      rw [show n - 1 + 1 = n by omega, p.enable_last t, if_pos rfl] at hitem
      simp only [held_succ, held_zero, List.nil_append, Nat.sub_zero, hitem]
  | succ k ih =>
      have hitem := p.item_next (t := t) (i := n - (k + 1) - 1) (by omega)
      rw [show n - (k + 1) - 1 + 1 = n - (k + 1) by omega] at hitem
      have hmono := p.enable_next t (n - (k + 1) - 1) (by omega)
      rw [show n - (k + 1) - 1 + 1 = n - (k + 1) by omega] at hmono
      rw [p.held_succ (t + 1), ← List.append_assoc, ih (by omega), p.held_succ t (k + 1),
        List.append_assoc, List.append_assoc, hitem, show n - k - 1 = n - (k + 1) by omega]
      -- the first of the stages either moves on, stalls alone, or stalls with its successor
      rcases hfirst : p.enable t (n - (k + 1) - 1) with _ | _
      · rcases p.enable t (n - (k + 1)) <;> simp
      · simp [hmono hfirst]

/-- **Conservation.** Nothing is lost, duplicated or reordered. -/
theorem conservation (t : ℕ) : p.accepted t = p.emitted t ++ p.held t n := by
  induction t with
  | zero =>
      have hempty : ∀ k ≤ n, p.held 0 k = [] := by
        intro k hk
        induction k with
        | zero => rfl
        | succ k ih =>
            have hvalid := p.valid_initial (n - k - 1) (by omega)
            rw [show n - k - 1 + 1 = n - k by omega] at hvalid
            rw [held_succ, ih (by omega), item, hvalid]
            rfl
      rw [hempty n (Nat.le_refl n)]
      rfl
  | succ t ih =>
      rw [accepted, emitted, sampled_succ, sampled_succ, ← accepted, ← emitted, ih,
        List.append_assoc, List.append_assoc]
      refine congrArg (p.emitted t ++ ·) ?_
      rcases Nat.eq_zero_or_pos n with rfl | hn
      · simp [held_zero, p.enable_last t, p.valid_first t]
      · have hnext := p.held_next (t := t) (k := n - 1) (by omega)
        rw [show n - 1 + 1 = n by omega, show n - (n - 1) - 1 = 0 by omega] at hnext
        have hfirst : p.item t 0 = [p.data t 0] := if_pos (p.valid_first t)
        rw [hfirst] at hnext
        exact hnext.symm

/-- What left is a prefix of what was accepted. -/
theorem emitted_prefix_accepted (t : ℕ) : p.emitted t <+: p.accepted t :=
  ⟨p.held t n, (p.conservation t).symm⟩

end Pipeline

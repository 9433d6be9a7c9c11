import Mathlib.Data.List.Basic

/-!
# Latencies along data paths

Values that are computed from other values. A node has operands, and adds a latency of its own to
theirs; a data path goes from a node without operands through the nodes that use it. A check of
latencies follows some of the operands of a node and skips others.

* **Inversion** (`dataPath_iff`): a data path starts at the node or continues one of an operand.
* **Skipped operands** (`forall_dataPath_iff_aligned`): what a check accepts has the same latency
  along all data paths exactly when the operands that it skipped are as late as those that it
  followed.
-/

namespace DataPaths

/-- The nodes of a computation, and which of their operands a check follows. -/
structure Network (α : Type) where
  followed : α → List α
  skipped : α → List α
  latency : α → ℕ
  /-- The operands of a node are smaller than the node. -/
  size : α → ℕ
  size_lt : ∀ e, ∀ c ∈ followed e ++ skipped e, size c < size e

variable {α : Type} (N : Network α)

def Network.operands (e : α) : List α := N.followed e ++ N.skipped e

/-- There is a data path to the node with this latency. -/
inductive DataPath : α → ℕ → Prop
  | source {e : α} (h : N.operands e = []) : DataPath e (N.latency e)
  | through {e c : α} {n : ℕ} (h : c ∈ N.operands e) (hc : DataPath c n) :
      DataPath e (n + N.latency e)

/-- The operands that are skipped are as late as those that are followed, or have no latency when
none is followed. -/
inductive Aligned : α → Prop
  | node {e : α} (hfollowed : ∀ c ∈ N.followed e, Aligned c)
      (hskipped : ∀ c ∈ N.skipped e, ∀ n, DataPath N c n →
        (N.followed e = [] → n = 0) ∧ ∀ c' ∈ N.followed e, ∀ m, DataPath N c' m → n = m) :
      Aligned e

/-- A result is accepted for a node when it is the latency of the node, and then for all operands
that are followed, or when none is followed. -/
def Accepts (accepted : α → ℕ → Prop) : Prop :=
  ∀ e d, accepted e d → (N.followed e = [] ∧ d = N.latency e) ∨
    (N.followed e ≠ [] ∧ N.latency e = 0 ∧ ∀ c ∈ N.followed e, accepted c d)

variable {N}

theorem dataPath_iff {e : α} {n : ℕ} : DataPath N e n ↔
    (N.operands e = [] ∧ n = N.latency e) ∨
      ∃ c ∈ N.operands e, ∃ m, DataPath N c m ∧ n = m + N.latency e := by
  constructor
  · intro h
    cases h with
    | source h => exact .inl ⟨h, rfl⟩
    | through h hc => exact .inr ⟨_, h, _, hc, rfl⟩
  · rintro (⟨h, rfl⟩ | ⟨c, hc, m, hm, rfl⟩)
    · exact .source h
    · exact .through hc hm

/-- Every node has a data path. -/
theorem exists_dataPath (e : α) : ∃ n, DataPath N e n := by
  induction hsize : N.size e using Nat.strongRecOn generalizing e with
  | ind k ih =>
    rcases hoperands : N.operands e with _ | ⟨c, rest⟩
    · exact ⟨_, .source hoperands⟩
    · have hc : c ∈ N.operands e := hoperands ▸ List.mem_cons_self
      obtain ⟨n, hn⟩ := ih _ (hsize ▸ N.size_lt e c hc) c rfl
      exact ⟨_, .through hc hn⟩

/-- In an aligned node that is accepted, all data paths have the latency that is accepted. -/
theorem Aligned.eq_of_dataPath {accepted : α → ℕ → Prop} (haccepts : Accepts N accepted) {e : α}
    (h : Aligned N e) {d n : ℕ} (hd : accepted e d) (hn : DataPath N e n) : n = d := by
  induction h generalizing d n with
  | @node e hfollowed hskipped ih =>
    rcases haccepts e d hd with ⟨hnone, rfl⟩ | ⟨hsome, hlatency, hall⟩
    · rcases dataPath_iff.mp hn with ⟨-, rfl⟩ | ⟨c, hc, m, hm, rfl⟩
      · rfl
      · rw [Network.operands, hnone, List.nil_append] at hc
        rw [(hskipped c hc m hm).1 hnone, Nat.zero_add]
    · obtain ⟨f, hf⟩ := List.exists_mem_of_ne_nil _ hsome
      rcases dataPath_iff.mp hn with ⟨hoperands, rfl⟩ | ⟨c, hc, m, hm, rfl⟩
      · exact absurd (List.append_eq_nil_iff.mp hoperands).1 hsome
      · rw [hlatency, Nat.add_zero]
        rcases List.mem_append.mp hc with hc | hc
        · exact ih c hc (hall c hc) hm
        · obtain ⟨k, hk⟩ := exists_dataPath (N := N) f
          rw [(hskipped c hc m hm).2 f hf k hk]
          exact ih f hf (hall f hf) hk

/-- When all data paths to an accepted node have its latency, then it is aligned. -/
theorem aligned_of_forall_dataPath {accepted : α → ℕ → Prop} (haccepts : Accepts N accepted)
    {e : α} {d : ℕ} (hd : accepted e d) (h : ∀ n, DataPath N e n → n = d) : Aligned N e := by
  induction hsize : N.size e using Nat.strongRecOn generalizing e d with
  | ind k ih =>
    have hthrough : ∀ c ∈ N.operands e, ∀ n, DataPath N c n → n + N.latency e = d :=
      fun c hc n hn => h _ (.through hc hn)
    rcases haccepts e d hd with ⟨hnone, rfl⟩ | ⟨hsome, hlatency, hall⟩
    · refine .node (fun c hc => ?_) (fun c hc n hn => ⟨fun _ => ?_, fun c' hc' => ?_⟩)
      · rw [hnone] at hc
        exact absurd hc List.not_mem_nil
      · have hn' := hthrough c (List.mem_append_right _ hc) n hn
        omega
      · rw [hnone] at hc'
        exact absurd hc' List.not_mem_nil
    · rw [hlatency] at hthrough
      refine .node (fun c hc => ?_) (fun c hc n hn => ⟨fun hnone => absurd hnone hsome, ?_⟩)
      · exact ih _ (hsize ▸ N.size_lt e c (List.mem_append_left _ hc)) (hall c hc)
          (hthrough c (List.mem_append_left _ hc)) rfl
      · intro c' hc' m hm
        have hn' := hthrough c (List.mem_append_right _ hc) n hn
        have hm' := hthrough c' (List.mem_append_left _ hc') m hm
        omega

/-- **Skipped operands.** -/
theorem forall_dataPath_iff_aligned {accepted : α → ℕ → Prop} (haccepts : Accepts N accepted)
    {e : α} {d : ℕ} (hd : accepted e d) : (∀ n, DataPath N e n → n = d) ↔ Aligned N e :=
  ⟨aligned_of_forall_dataPath haccepts hd, fun h _ hn => h.eq_of_dataPath haccepts hd hn⟩

end DataPaths

import Mathlib.Data.List.Nodup
import Mathlib.Logic.Relation
import Mathlib.Algebra.Order.BigOperators.Group.List
import Mathlib.Algebra.Order.Group.Nat

/-!
# Resolving chains of replacements

A finite map of replacements is an association list without a repeated key. When a replacement is
itself replaced, the replacements form chains; here these are resolved in rounds. A round goes
over a copy of the map, in any order, and moves every value that is a key of the copy one step
on; the rounds end with the first one that moves nothing.

* **Every order of every round gives the same map** (`resolve_resolved`): when the chains are
  acyclic the rounds end, and the result replaces every name by the end of its chain.
-/

namespace Chains

variable {α : Type} [DecidableEq α]

/-- The replacement of a name, the name itself when it has none. -/
def rename (replacements : List (α × α)) (x : α) : α :=
  (replacements.lookup x).getD x

/-- Replace the value `src` by `dst` everywhere. -/
def moveValue (src dst : α) (replacements : List (α × α)) : List (α × α) :=
  replacements.map fun p => if p.2 = src then (p.1, dst) else p

/-- One round over the copy `prev`, and whether it moved a value. -/
def resolveRound (prev replacements : List (α × α)) : List (α × α) × Bool :=
  prev.foldl
    (fun acc p => (moveValue p.1 p.2 acc.1, acc.2 || acc.1.any fun q => q.2 == p.1))
    (replacements, false)

/-- Rounds until one moves nothing. `order` is the order in which each round goes over the map. -/
def resolve (order : ℕ → List (α × α) → List (α × α)) : ℕ → List (α × α) → Option (List (α × α))
  | 0, _ => none
  | fuel + 1, replacements =>
      let round := resolveRound (order fuel replacements) replacements
      if round.2 then resolve order fuel round.1 else some round.1

/-- `σ` replaces every name by the end of its chain. -/
structure Resolved (replacements : List (α × α)) (σ : α → α) : Prop where
  eq_self : ∀ x ∉ replacements.map Prod.fst, σ x = x
  step : ∀ p ∈ replacements, σ p.1 = σ p.2
  not_key : ∀ x, σ x ∉ replacements.map Prod.fst

/-! ### Looking up -/

theorem rename_eq_self {m : List (α × α)} {x : α} (hx : x ∉ m.map Prod.fst) : rename m x = x := by
  have : m.lookup x = none := List.lookup_eq_none_iff.mpr fun p hp => by
    rw [bne_iff_ne]
    rintro rfl
    exact hx (List.mem_map_of_mem hp)
  rw [rename, this, Option.getD_none]

theorem rename_eq_of_mem {m : List (α × α)} (hm : (m.map Prod.fst).Nodup) {p : α × α}
    (hp : p ∈ m) : rename m p.1 = p.2 := by
  induction m with
  | nil => exact absurd hp List.not_mem_nil
  | cons q m ih =>
      obtain ⟨a, b⟩ := q
      rw [List.map_cons, List.nodup_cons] at hm
      rcases List.mem_cons.mp hp with rfl | hp
      · rw [rename, List.lookup_cons_self, Option.getD_some]
      · have hne : p.1 ≠ a := by
          intro h
          exact hm.1 (List.mem_map.mpr ⟨p, hp, h⟩)
        have hih := ih hm.2 hp
        rw [rename] at hih ⊢
        rw [List.lookup_cons, beq_eq_false_iff_ne.mpr hne]
        exact hih

/-! ### One round -/

/-- What a round makes of a value. -/
def moved (prev : List (α × α)) (v : α) : α :=
  prev.foldl (fun v p => if v = p.1 then p.2 else v) v

theorem resolveRound_fst (prev m : List (α × α)) :
    (resolveRound prev m).1 = m.map fun q => (q.1, moved prev q.2) := by
  have hfold : ∀ (prev m : List (α × α)) (b : Bool),
      (prev.foldl (fun acc p => (moveValue p.1 p.2 acc.1, acc.2 || acc.1.any fun q => q.2 == p.1))
        (m, b)).1 = m.map fun q => (q.1, moved prev q.2) := by
    intro prev
    induction prev with
    | nil => intro m b; simp [moved]
    | cons p prev ih =>
        intro m b
        rw [List.foldl_cons, ih, moveValue, List.map_map]
        refine List.map_congr_left fun q _ => ?_
        simp only [Function.comp_apply, moved, List.foldl_cons]
        split_ifs <;> rfl
  exact hfold prev m false

/-- A change stays reported. -/
theorem resolveRound_reported (prev : List (α × α)) {acc : List (α × α) × Bool}
    (h : acc.2 = true) :
    (prev.foldl (fun acc p => (moveValue p.1 p.2 acc.1, acc.2 || acc.1.any fun q => q.2 == p.1))
      acc).2 = true := by
  induction prev generalizing acc with
  | nil => exact h
  | cons p prev ih => exact ih (by simp [h])

/-- A round reports no change exactly when no value is a key of the copy. -/
theorem resolveRound_unchanged_iff (prev m : List (α × α)) :
    (resolveRound prev m).2 = false ↔ ∀ q ∈ m, q.2 ∉ prev.map Prod.fst := by
  induction prev generalizing m with
  | nil => simp [resolveRound]
  | cons p prev ih =>
      by_cases hany : ∃ q ∈ m, q.2 = p.1
      · obtain ⟨q, hq, hqp⟩ := hany
        have hchange : (m.any fun q => q.2 == p.1) = true :=
          List.any_eq_true.mpr ⟨q, hq, beq_iff_eq.mpr hqp⟩
        have htrue : (resolveRound (p :: prev) m).2 = true :=
          resolveRound_reported prev (by simp [hchange])
        rw [htrue]
        exact ⟨fun h => absurd h Bool.noConfusion, fun h => absurd (by simp [hqp]) (h q hq)⟩
      · have hne : ∀ q ∈ m, q.2 ≠ p.1 := fun q hq h => hany ⟨q, hq, h⟩
        have hsame : moveValue p.1 p.2 m = m := by
          refine (List.map_congr_left fun q hq => ?_).trans (List.map_id m)
          rw [if_neg (hne q hq), id]
        have hno : (m.any fun q => q.2 == p.1) = false :=
          List.any_eq_false.mpr fun q hq => by simpa using hne q hq
        have htail : resolveRound (p :: prev) m = resolveRound prev m := by
          rw [resolveRound, List.foldl_cons, resolveRound]
          simp only [hsame, hno, Bool.or_self]
        rw [htail, ih]
        refine forall₂_congr fun q hq => ?_
        rw [List.map_cons, List.mem_cons, not_or]
        exact ⟨fun h => ⟨hne q hq, h⟩, And.right⟩

section Moved

variable {m : List (α × α)} {depth : α → ℕ}

/-- A round takes a value down its chain. -/
theorem moved_reflTransGen {prev : List (α × α)} {r : α → α → Prop}
    (hprev : ∀ p ∈ prev, r p.1 p.2) (v : α) : Relation.ReflTransGen r v (moved prev v) := by
  induction prev generalizing v with
  | nil => exact .refl
  | cons p prev ih =>
      rw [List.forall_mem_cons] at hprev
      rw [moved, List.foldl_cons]
      split_ifs with hv
      · exact .head (hv ▸ hprev.1) (ih hprev.2 p.2)
      · exact ih hprev.2 v

theorem depth_moved_le {prev : List (α × α)} (hprev : ∀ p ∈ prev, depth p.2 < depth p.1) (v : α) :
    depth (moved prev v) ≤ depth v := by
  induction prev generalizing v with
  | nil => exact le_refl _
  | cons p prev ih =>
      rw [List.forall_mem_cons] at hprev
      rw [moved, List.foldl_cons]
      split_ifs with hv
      · exact (ih hprev.2 p.2).trans (by rw [hv]; exact hprev.1.le)
      · exact ih hprev.2 v

theorem moved_eq_self {prev : List (α × α)} {v : α} (hv : v ∉ prev.map Prod.fst) :
    moved prev v = v := by
  induction prev with
  | nil => rfl
  | cons p prev ih =>
      rw [List.map_cons, List.mem_cons, not_or] at hv
      rw [moved, List.foldl_cons, if_neg hv.1]
      exact ih hv.2

/-- A value that is a key of the copy is moved. -/
theorem depth_moved_lt {prev : List (α × α)} (hprev : ∀ p ∈ prev, depth p.2 < depth p.1) {v : α}
    (hv : v ∈ prev.map Prod.fst) : depth (moved prev v) < depth v := by
  induction prev generalizing v with
  | nil => exact absurd hv List.not_mem_nil
  | cons p prev ih =>
      rw [List.forall_mem_cons] at hprev
      rw [moved, List.foldl_cons]
      split_ifs with hvp
      · exact (depth_moved_le hprev.2 p.2).trans_lt (by rw [hvp]; exact hprev.1)
      · exact ih hprev.2 ((List.mem_cons.mp hv).resolve_left hvp)

end Moved

/-! ### All rounds -/

/-- What every round keeps: the keys, and that the value of a key is further down its chain. -/
structure Resolving (m f : List (α × α)) : Prop where
  keys : f.map Prod.fst = m.map Prod.fst
  down : ∀ q ∈ f, Relation.TransGen (fun a b => (a, b) ∈ m) q.1 q.2

omit [DecidableEq α] in
theorem Resolving.mem_keys_iff {m f prev : List (α × α)} (h : Resolving m f) (hprev : prev.Perm f)
    (x : α) : x ∈ prev.map Prod.fst ↔ x ∈ m.map Prod.fst := by
  rw [← h.keys]
  exact (hprev.map _).mem_iff

theorem Resolving.round {m f prev : List (α × α)} (h : Resolving m f) (hprev : prev.Perm f) :
    Resolving m (resolveRound prev f).1 := by
  rw [resolveRound_fst]
  refine ⟨by rw [List.map_map, ← h.keys]; rfl, ?_⟩
  simp only [List.mem_map]
  rintro _ ⟨q, hq, rfl⟩
  have hmoved := moved_reflTransGen (r := Relation.TransGen fun a b => (a, b) ∈ m)
    (fun p hp => h.down p (hprev.mem_iff.mp hp)) q.2
  rcases Relation.reflTransGen_iff_eq_or_transGen.mp hmoved with heq | htrans
  · rw [heq]
    exact h.down q hq
  · rw [Relation.transGen_eq_self] at htrans
    exact (h.down q hq).trans htrans

section Resolve

variable {m : List (α × α)} {depth : α → ℕ} {order : ℕ → List (α × α) → List (α × α)}

omit [DecidableEq α] in
theorem depth_lt_of_transGen (hdepth : ∀ p ∈ m, depth p.2 < depth p.1) {a b : α}
    (h : Relation.TransGen (fun a b => (a, b) ∈ m) a b) : depth b < depth a := by
  induction h with
  | single h => exact hdepth _ h
  | tail _ h ih => exact (hdepth _ h).trans ih

/-- The rounds end within the depth of the values that are not yet at the end of their chain. -/
theorem Resolving.resolve (horder : ∀ i l, (order i l).Perm l)
    (hdepth : ∀ p ∈ m, depth p.2 < depth p.1) {bound : ℕ} :
    ∀ {f : List (α × α)} {fuel : ℕ}, Resolving m f →
      (∀ q ∈ f, q.2 ∈ m.map Prod.fst → depth q.2 < bound) → bound < fuel →
      ∃ R, Chains.resolve order fuel f = some R ∧ Resolving m R ∧
        ∀ q ∈ R, q.2 ∉ m.map Prod.fst := by
  induction bound with
  | zero =>
      intro f fuel hf hb hfuel
      obtain ⟨fuel, rfl⟩ : ∃ k, fuel = k + 1 := ⟨fuel - 1, by omega⟩
      have hend : ∀ q ∈ f, q.2 ∉ m.map Prod.fst := fun q hq hk => absurd (hb q hq hk) (by omega)
      have hkeys := hf.mem_keys_iff (horder fuel f)
      have hunchanged : (resolveRound (order fuel f) f).2 = false :=
        (resolveRound_unchanged_iff _ _).mpr fun q hq => mt (hkeys q.2).mp (hend q hq)
      refine ⟨(resolveRound (order fuel f) f).1, by simp [Chains.resolve, hunchanged],
        hf.round (horder fuel f), ?_⟩
      rw [resolveRound_fst]
      simp only [List.mem_map, forall_exists_index, and_imp]
      rintro _ q hq rfl
      rw [moved_eq_self (mt (hkeys q.2).mp (hend q hq))]
      exact fun h => hend q hq (List.mem_map.mpr h)
  | succ bound ih =>
      intro f fuel hf hb hfuel
      obtain ⟨fuel, rfl⟩ : ∃ k, fuel = k + 1 := ⟨fuel - 1, by omega⟩
      have hperm := horder fuel f
      have hkeys := hf.mem_keys_iff hperm
      have hround := hf.round hperm
      have hlt : ∀ p ∈ order fuel f, depth p.2 < depth p.1 := fun p hp =>
        depth_lt_of_transGen hdepth (hf.down p (hperm.mem_iff.mp hp))
      have hbound : ∀ q ∈ (resolveRound (order fuel f) f).1, q.2 ∈ m.map Prod.fst →
          depth q.2 < bound := by
        rw [resolveRound_fst]
        simp only [List.mem_map]
        rintro _ ⟨q, hq, rfl⟩ hmem
        by_cases hk : q.2 ∈ m.map Prod.fst
        · have hlt' := depth_moved_lt hlt ((hkeys q.2).mpr hk)
          exact hlt'.trans_le (Nat.le_of_lt_succ (hb q hq hk))
        · rw [moved_eq_self (mt (hkeys q.2).mp hk)] at hmem
          exact absurd (List.mem_map.mpr hmem) hk
      rcases hchanged : (resolveRound (order fuel f) f).2 with _ | _
      · have hend := (resolveRound_unchanged_iff _ _).mp hchanged
        refine ⟨(resolveRound (order fuel f) f).1, by simp [Chains.resolve, hchanged], hround, ?_⟩
        rw [resolveRound_fst]
        simp only [List.mem_map]
        rintro _ ⟨q, hq, rfl⟩
        rw [moved_eq_self (hend q hq)]
        exact fun h => hend q hq ((hkeys q.2).mpr (List.mem_map.mpr h))
      · obtain ⟨R, hR, hspec⟩ := ih hround hbound (by omega : bound < fuel)
        exact ⟨R, by simp [Chains.resolve, hchanged, hR], hspec⟩

/-- Two ends of one chain are equal. -/
theorem end_unique (hm : (m.map Prod.fst).Nodup) {x a b : α}
    (ha : Relation.ReflTransGen (fun a b => (a, b) ∈ m) x a) (ha' : a ∉ m.map Prod.fst)
    (hb : Relation.ReflTransGen (fun a b => (a, b) ∈ m) x b) (hb' : b ∉ m.map Prod.fst) :
    a = b := by
  have hunique : Relator.RightUnique fun a b => (a, b) ∈ m := by
    intro x y z hy hz
    exact (rename_eq_of_mem hm hy).symm.trans (rename_eq_of_mem hm hz)
  have hstop : ∀ {y z}, y ∉ m.map Prod.fst →
      Relation.ReflTransGen (fun a b => (a, b) ∈ m) y z → y = z := by
    intro y z hy h
    rcases Relation.ReflTransGen.cases_head h with rfl | ⟨w, hw, -⟩
    · rfl
    · exact absurd (List.mem_map_of_mem hw) hy
  rcases Relation.ReflTransGen.total_of_right_unique hunique ha hb with h | h
  · exact hstop ha' h
  · exact (hstop hb' h).symm

/-- **Chain resolution.** When the chains of a map are acyclic, then with enough fuel the rounds
end, whatever the order in which each of them goes over the map, and the result replaces every
name by the end of its chain. -/
theorem resolve_resolved (horder : ∀ i l, (order i l).Perm l) (hm : (m.map Prod.fst).Nodup)
    (hdepth : ∀ p ∈ m, depth p.2 < depth p.1) :
    ∃ bound, ∀ fuel > bound, ∃ R, Chains.resolve order fuel m = some R ∧
      Resolved m (rename R) := by
  obtain ⟨bound, hbound⟩ : ∃ bound, ∀ q ∈ m, depth q.2 < bound :=
    ⟨(m.map fun q => depth q.2).sum + 1, fun q hq =>
      Nat.lt_succ_of_le <| List.single_le_sum (fun _ _ => Nat.zero_le _) _
        (List.mem_map.mpr ⟨q, hq, rfl⟩)⟩
  refine ⟨bound, fun fuel hfuel => ?_⟩
  have hinit : Resolving m m := ⟨rfl, fun q hq => .single hq⟩
  obtain ⟨R, hR, hres, hend⟩ := hinit.resolve horder hdepth (fun q hq _ => hbound q hq) hfuel
  have hRnodup : (R.map Prod.fst).Nodup := by rw [hres.keys]; exact hm
  have hleads : ∀ x, Relation.ReflTransGen (fun a b => (a, b) ∈ m) x (rename R x) := by
    intro x
    by_cases hx : x ∈ R.map Prod.fst
    · obtain ⟨q, hq, rfl⟩ := List.mem_map.mp hx
      rw [rename_eq_of_mem hRnodup hq]
      exact (hres.down q hq).to_reflTransGen
    · rw [rename_eq_self hx]
  have hnot : ∀ x, rename R x ∉ m.map Prod.fst := by
    intro x
    by_cases hx : x ∈ R.map Prod.fst
    · obtain ⟨q, hq, rfl⟩ := List.mem_map.mp hx
      rw [rename_eq_of_mem hRnodup hq]
      exact hend q hq
    · rw [rename_eq_self hx, ← hres.keys]
      exact hx
  refine ⟨R, hR, fun x hx => rename_eq_self (hres.keys ▸ hx), fun p hp => ?_, hnot⟩
  exact end_unique hm (hleads p.1) (hnot p.1) (.head hp (hleads p.2)) (hnot p.2)

end Resolve

end Chains

import Mathlib.Data.Finmap
import Mathlib.Data.List.Perm.Subperm
import Mathlib.Logic.Relation

/-!
# Maps that the first writer fills

Rules that compute a value for their key from the entries of a map. A visit to a rule writes the
value if the key has none and compares it with the entry otherwise; passes visit all rules in turn
until one of them changes nothing.

* **Consistency** (`passes_satisfied`): as many passes as there are rules lead to a map that no
  rule changes or rejects, in any order of the rules.
* **Order** (`passes_perm_iff`): the result is the same in all orders exactly when no key can be
  written with two values, or no map that the rules can write satisfies them all.
-/

namespace FirstWriter

open Relation

/-- Rules named by `ι`, with the entry of a key and a later value for it compared by `rejects`. -/
structure Rules (κ V ι ε : Type*) where
  key : ι → κ
  value : (Finmap fun _ : κ => V) → ι → Except ε (Option V)
  rejects : ι → V → V → Option ε

variable {κ V ι ε : Type*} [DecidableEq κ] {R : Rules κ V ι ε} {S T U : Finmap fun _ : κ => V}

/-- One visit to a rule. -/
def visit (R : Rules κ V ι ε) (S : Finmap fun _ : κ => V) (i : ι) :
    Except ε (Finmap fun _ : κ => V) :=
  match R.value S i with
  | .error e => .error e
  | .ok none => .ok S
  | .ok (some x) =>
    match S.lookup (R.key i) with
    | none => .ok (S.insert (R.key i) x)
    | some y =>
      match R.rejects i y x with
      | some e => .error e
      | none => .ok S

/-- A visit to every rule in turn. -/
def pass (R : Rules κ V ι ε) (rules : List ι) (S : Finmap fun _ : κ => V) :
    Except ε (Finmap fun _ : κ => V) :=
  rules.foldlM (visit R) S

/-- At most `n` passes, up to the first one without a change. -/
def passes [DecidableEq V] (R : Rules κ V ι ε) (rules : List ι) :
    ℕ → (Finmap fun _ : κ => V) → Except ε (Finmap fun _ : κ => V)
  | 0, S => .ok S
  | n + 1, S =>
    match pass R rules S with
    | .error e => .error e
    | .ok T => if S = T then .ok T else passes R rules n T

/-! ### Writing -/

/-- `T` has all entries of `S`. -/
def Extends (S T : Finmap fun _ : κ => V) : Prop := ∀ k x, S.lookup k = some x → T.lookup k = some x

/-- A rule computes a value for a key without an entry, and writes it. -/
def Writes (R : Rules κ V ι ε) (rules : List ι) (S T : Finmap fun _ : κ => V) : Prop :=
  ∃ i ∈ rules, ∃ x, R.value S i = .ok (some x) ∧ S.lookup (R.key i) = none ∧
    T = S.insert (R.key i) x

/-- No rule changes or rejects the map. -/
def Satisfied (R : Rules κ V ι ε) (rules : List ι) (S : Finmap fun _ : κ => V) : Prop :=
  ∀ i ∈ rules, visit R S i = .ok S

/-- No key can be written with two values. -/
def Determined (R : Rules κ V ι ε) (rules : List ι) (S : Finmap fun _ : κ => V) : Prop :=
  ∀ T U, ReflTransGen (Writes R rules) S T → ReflTransGen (Writes R rules) S U →
    ∀ k x y, T.lookup k = some x → U.lookup k = some y → x = y

/-- A value stays when entries are added, and so does an error; no value rejects itself. -/
structure Stable (R : Rules κ V ι ε) : Prop where
  value_extends : ∀ {S T i x}, Extends S T → R.value S i = .ok (some x) →
    R.value T i = .ok (some x)
  error_extends : ∀ {S T i e}, Extends S T → R.value S i = .error e → ∃ e', R.value T i = .error e'
  rejects_self : ∀ i x, R.rejects i x x = none

theorem Extends.refl (S : Finmap fun _ : κ => V) : Extends S S := fun _ _ h => h

theorem Extends.trans (hST : Extends S T) (hTU : Extends T U) : Extends S U :=
  fun k x h => hTU k x (hST k x h)

theorem Extends.antisymm (hST : Extends S T) (hTS : Extends T S) : S = T := by
  apply Finmap.ext_lookup
  intro k
  cases hS : S.lookup k with
  | none =>
    cases hT : T.lookup k with
    | none => rfl
    | some y => exact absurd (hS.symm.trans (hTS k y hT)) (Option.some_ne_none y).symm
  | some x => exact (hST k x hS).symm

theorem extends_insert {k : κ} {x : V} (h : S.lookup k = none) : Extends S (S.insert k x) := by
  intro l y hl
  have hne : l ≠ k := by
    rintro rfl
    exact absurd (h.symm.trans hl) (Option.some_ne_none y).symm
  rw [Finmap.lookup_insert_of_ne S hne, hl]

theorem insert_ne_self {k : κ} {x : V} (h : S.lookup k = none) : S.insert k x ≠ S := by
  intro heq
  have hx := Finmap.lookup_insert (a := k) (b := x) S
  rw [heq, h] at hx
  exact (Option.some_ne_none x).symm hx

theorem Writes.extends {rules : List ι} (h : Writes R rules S T) : Extends S T := by
  obtain ⟨i, -, x, -, hnone, rfl⟩ := h
  exact extends_insert hnone

theorem extends_of_reach {rules : List ι} (h : ReflTransGen (Writes R rules) S T) :
    Extends S T := by
  induction h with
  | refl => exact .refl S
  | tail _ hlast ih => exact ih.trans hlast.extends

/-! ### Visits and passes -/

/-- A visit that ends without an error leaves the map or writes one entry. -/
theorem visit_ok {i : ι} (h : visit R S i = .ok T) :
    T = S ∨ ∃ x, R.value S i = .ok (some x) ∧ S.lookup (R.key i) = none ∧
      T = S.insert (R.key i) x := by
  unfold visit at h
  split at h
  · cases h
  · exact .inl (Except.ok.inj h).symm
  · rename_i x hx
    split at h
    · rename_i hnone
      exact .inr ⟨x, hx, hnone, (Except.ok.inj h).symm⟩
    · split at h
      · cases h
      · exact .inl (Except.ok.inj h).symm

theorem visit_of_lookup {i : ι} {x : V} (hx : R.value S i = .ok (some x))
    (hnone : S.lookup (R.key i) = none) : visit R S i = .ok (S.insert (R.key i) x) := by
  simp only [visit, hx, hnone]

/-- A rule that leaves the map has no value, or a key whose entry admits its value. -/
theorem visit_eq_self_iff {i : ι} : visit R S i = .ok S ↔ R.value S i = .ok none ∨
    ∃ x y, R.value S i = .ok (some x) ∧ S.lookup (R.key i) = some y ∧ R.rejects i y x = none := by
  constructor
  · intro h
    unfold visit at h
    split at h
    · cases h
    · rename_i hx
      exact .inl hx
    · rename_i x hx
      split at h
      · rename_i hnone
        exact absurd (Except.ok.inj h) (insert_ne_self hnone)
      · rename_i y hy
        split at h
        · cases h
        · rename_i hadmits
          exact .inr ⟨x, y, hx, hy, hadmits⟩
  · rintro (hx | ⟨x, y, hx, hy, hadmits⟩)
    · simp only [visit, hx]
    · simp only [visit, hx, hy, hadmits]

theorem pass_cons_ok {i : ι} {rules : List ι} :
    pass R (i :: rules) S = .ok T ↔ ∃ U, visit R S i = .ok U ∧ pass R rules U = .ok T := by
  unfold pass
  rw [List.foldlM_cons]
  cases hv : visit R S i with
  | error e => simp [bind, Except.bind]
  | ok U => simp [bind, Except.bind]

theorem pass_append_ok {first rest : List ι} (h : pass R first S = .ok T) :
    pass R (first ++ rest) S = pass R rest T := by
  unfold pass at h ⊢
  rw [List.foldlM_append, h]
  rfl

theorem pass_reach {rules visited : List ι} (hsub : visited ⊆ rules)
    (h : pass R visited S = .ok T) : ReflTransGen (Writes R rules) S T := by
  induction visited generalizing S with
  | nil => exact Except.ok.inj h ▸ .refl
  | cons i visited ih =>
    obtain ⟨U, hvisit, hpass⟩ := pass_cons_ok.mp h
    have hrest := ih (fun j hj => hsub (List.mem_cons_of_mem i hj)) hpass
    rcases visit_ok hvisit with rfl | ⟨x, hx, hnone, hU⟩
    · exact hrest
    · exact .head ⟨i, hsub List.mem_cons_self, x, hx, hnone, hU⟩ hrest

/-- A pass that changes nothing has visited every rule in the same map. -/
theorem satisfied_of_pass {rules : List ι} (h : pass R rules S = .ok S) : Satisfied R rules S := by
  induction rules with
  | nil =>
    intro i hi
    exact absurd hi List.not_mem_nil
  | cons i rules ih =>
    obtain ⟨U, hvisit, hpass⟩ := pass_cons_ok.mp h
    -- The map only grows, so that the first visit cannot have changed what the pass ends with.
    have hself : pass R [i] S = .ok U := pass_cons_ok.mpr ⟨U, hvisit, rfl⟩
    have hSU := extends_of_reach (pass_reach (List.Subset.refl _) hself)
    have hUS := extends_of_reach (pass_reach (List.Subset.refl _) hpass)
    obtain rfl := hUS.antisymm hSU
    intro j hj
    rcases List.mem_cons.mp hj with rfl | hj
    · exact hvisit
    · exact ih hpass j hj

theorem Satisfied.pass {rules : List ι} (h : Satisfied R rules S) :
    pass R rules S = .ok S := by
  induction rules with
  | nil => rfl
  | cons i rules ih =>
    exact pass_cons_ok.mpr ⟨S, h i List.mem_cons_self,
      ih fun j hj => h j (List.mem_cons_of_mem i hj)⟩

theorem Satisfied.perm {rules rules' : List ι} (h : Satisfied R rules S)
    (hperm : rules'.Perm rules) : Satisfied R rules' S :=
  fun i hi => h i (hperm.subset hi)

theorem Satisfied.passes [DecidableEq V] {rules : List ι} (h : Satisfied R rules S) (n : ℕ) :
    passes R rules n S = .ok S := by
  cases n with
  | zero => rfl
  | succ n => simp only [FirstWriter.passes, h.pass, if_true]

/-! ### Number of passes -/

theorem card_keys_insert {k : κ} {x : V} (h : S.lookup k = none) :
    (S.insert k x).keys.card = S.keys.card + 1 := by
  have hkeys : (S.insert k x).keys = insert k S.keys := by
    ext l
    simp [Finmap.mem_keys, Finmap.mem_insert]
  have hnew : k ∉ S.keys := by
    rw [Finmap.mem_keys]
    exact Finmap.lookup_eq_none.mp h
  rw [hkeys, Finset.card_insert_of_notMem hnew]

theorem keys_subset (h : Extends S T) : S.keys ⊆ T.keys := by
  intro k hk
  rw [Finmap.mem_keys] at hk ⊢
  obtain ⟨x, hx⟩ := Finmap.mem_iff.mp hk
  exact Finmap.mem_of_lookup_eq_some (h k x hx)

/-- A map that was written to has more entries. -/
theorem card_lt_of_reach {rules : List ι} (h : ReflTransGen (Writes R rules) S T) (hne : S ≠ T) :
    S.keys.card + 1 ≤ T.keys.card := by
  rcases h.cases_head with rfl | ⟨U, ⟨i, -, x, -, hnone, rfl⟩, hrest⟩
  · exact absurd rfl hne
  · have hle := Finset.card_le_card (keys_subset (extends_of_reach hrest))
    rwa [card_keys_insert hnone] at hle

/-- The entries that were not there at the start are values of their rules. -/
theorem origin {rules : List ι} (hR : Stable R) (h : ReflTransGen (Writes R rules) S T) :
    ∀ k x, T.lookup k = some x →
      S.lookup k = some x ∨ ∃ i ∈ rules, R.key i = k ∧ R.value T i = .ok (some x) := by
  induction h with
  | refl =>
    intro k x hx
    exact .inl hx
  | tail hreach hlast ih =>
    intro k x hx
    have hext := hlast.extends
    obtain ⟨i, hi, y, hy, hnone, rfl⟩ := hlast
    by_cases hk : k = R.key i
    · subst hk
      rw [Finmap.lookup_insert] at hx
      obtain rfl := Option.some.inj hx
      exact .inr ⟨i, hi, rfl, hR.value_extends hext hy⟩
    · rw [Finmap.lookup_insert_of_ne _ hk] at hx
      rcases ih k x hx with hS | ⟨j, hj, hkey, hvalue⟩
      · exact .inl hS
      · exact .inr ⟨j, hj, hkey, hR.value_extends hext hvalue⟩

/-- When as many entries have been written as there are rules, every rule has written its own. -/
theorem satisfied_of_card {rules : List ι} (hR : Stable R)
    (h : ReflTransGen (Writes R rules) S T) (hcard : S.keys.card + rules.length ≤ T.keys.card) :
    Satisfied R rules T := by
  have hsubset := keys_subset (extends_of_reach h)
  have hnew : T.keys \ S.keys ⊆ (rules.map R.key).toFinset := by
    intro k hk
    rw [Finset.mem_sdiff, Finmap.mem_keys, Finmap.mem_keys] at hk
    obtain ⟨x, hx⟩ := Finmap.mem_iff.mp hk.1
    rcases origin hR h k x hx with hS | ⟨i, hi, hkey, -⟩
    · exact absurd (Finmap.mem_of_lookup_eq_some hS) hk.2
    · exact List.mem_toFinset.mpr (List.mem_map.mpr ⟨i, hi, hkey⟩)
  have hlength : rules.length ≤ (T.keys \ S.keys).card := by
    rw [Finset.card_sdiff_of_subset hsubset]
    omega
  have htoFinset : (rules.map R.key).toFinset.card ≤ rules.length := by
    simpa using List.toFinset_card_le (rules.map R.key)
  have hnodup : (rules.map R.key).Nodup := by
    have hge := hlength.trans (Finset.card_le_card hnew)
    rw [← Multiset.coe_nodup, ← Multiset.toFinset_card_eq_card_iff_nodup, Multiset.coe_card,
      List.length_map]
    exact htoFinset.antisymm hge
  have hkeys := Finset.eq_of_subset_of_card_le hnew (htoFinset.trans hlength)
  intro i hi
  have hmem : R.key i ∈ T.keys \ S.keys :=
    hkeys ▸ List.mem_toFinset.mpr (List.mem_map_of_mem hi)
  rw [Finset.mem_sdiff, Finmap.mem_keys, Finmap.mem_keys] at hmem
  obtain ⟨x, hx⟩ := Finmap.mem_iff.mp hmem.1
  rcases origin hR h _ x hx with hS | ⟨j, hj, hkey, hvalue⟩
  · exact absurd (Finmap.mem_of_lookup_eq_some hS) hmem.2
  · obtain rfl := List.inj_on_of_nodup_map hnodup hj hi hkey
    exact visit_eq_self_iff.mpr (.inr ⟨x, x, hvalue, hx, hR.rejects_self j x⟩)

theorem passes_reach [DecidableEq V] {rules : List ι} {n : ℕ} (h : passes R rules n S = .ok T) :
    ReflTransGen (Writes R rules) S T ∧
      (Satisfied R rules T ∨ S.keys.card + n ≤ T.keys.card) := by
  induction n generalizing S with
  | zero => exact Except.ok.inj h ▸ ⟨.refl, .inr le_rfl⟩
  | succ n ih =>
    unfold passes at h
    split at h
    · cases h
    · rename_i U hpass
      have hreach := pass_reach (List.Subset.refl rules) hpass
      split at h
      · rename_i heq
        obtain rfl := Except.ok.inj h
        subst heq
        exact ⟨.refl, .inl (satisfied_of_pass hpass)⟩
      · rename_i hne
        obtain ⟨hrest, hend⟩ := ih h
        have hgrown := card_lt_of_reach hreach hne
        exact ⟨hreach.trans hrest, hend.imp_right fun hcard => by omega⟩

/-- As many passes as there are rules are enough. -/
theorem passes_satisfied [DecidableEq V] {rules : List ι} (hR : Stable R)
    (h : passes R rules rules.length S = .ok T) : Satisfied R rules T := by
  obtain ⟨hreach, hsatisfied | hcard⟩ := passes_reach h
  · exact hsatisfied
  · exact satisfied_of_card hR hreach hcard

/-! ### Order of the rules -/

/-- The rules that write a map can be put first, and then write it in the first pass. -/
theorem exists_perm_of_reach {rules : List ι} (h : ReflTransGen (Writes R rules) S T) :
    ∃ first rest, (first ++ rest).Perm rules ∧ pass R first S = .ok T := by
  have hfirst : ∃ first, first ⊆ rules ∧ (first.map R.key).Nodup ∧
      (∀ i ∈ first, R.key i ∈ T) ∧ pass R first S = .ok T := by
    induction h with
    | refl => exact ⟨[], List.nil_subset _, List.nodup_nil, by simp, rfl⟩
    | tail _ hlast ih =>
      rename_i T U _
      obtain ⟨first, hsub, hnodup, hkeys, hpass⟩ := ih
      obtain ⟨i, hi, x, hx, hnone, rfl⟩ := hlast
      have hnew : R.key i ∉ T := Finmap.lookup_eq_none.mp hnone
      refine ⟨first ++ [i], ?_, ?_, ?_, ?_⟩
      · exact List.append_subset.mpr ⟨hsub, by simpa using hi⟩
      · rw [List.map_append, List.nodup_append']
        refine ⟨hnodup, List.nodup_singleton _, ?_⟩
        intro k hk hki
        obtain ⟨j, hj, rfl⟩ := List.mem_map.mp hk
        rw [List.map_singleton, List.mem_singleton] at hki
        exact hnew (hki ▸ hkeys j hj)
      · intro j hj
        rw [Finmap.mem_insert]
        rcases List.mem_append.mp hj with hj | hj
        · exact .inr (hkeys j hj)
        · exact .inl (congrArg R.key (List.mem_singleton.mp hj))
      · rw [pass_append_ok hpass]
        exact pass_cons_ok.mpr ⟨_, visit_of_lookup hx hnone, rfl⟩
  obtain ⟨first, hsub, hnodup, -, hpass⟩ := hfirst
  obtain ⟨first', hperm, hsublist⟩ := List.subperm_of_subset (hnodup.of_map R.key) hsub
  obtain ⟨rest, hrest⟩ := hsublist.exists_perm_append
  exact ⟨first, rest, ((hperm.symm.append_right rest).trans hrest.symm), hpass⟩

theorem Writes.mono {rules rules' : List ι} (hsub : rules ⊆ rules') (h : Writes R rules S T) :
    Writes R rules' S T := by
  obtain ⟨i, hi, hrest⟩ := h
  exact ⟨i, hsub hi, hrest⟩

theorem reach_mono {rules rules' : List ι} (hsub : rules ⊆ rules')
    (h : ReflTransGen (Writes R rules) S T) : ReflTransGen (Writes R rules') S T := by
  induction h with
  | refl => exact .refl
  | tail _ hlast ih => exact ih.tail (hlast.mono hsub)

/-- When no key can be written with two values, everything that can be written is in a map that
all rules are satisfied with. -/
theorem extends_of_satisfied {rules : List ι} (hR : Stable R) (hdet : Determined R rules S)
    (hT : ReflTransGen (Writes R rules) S T) (hsat : Satisfied R rules T)
    (hU : ReflTransGen (Writes R rules) S U) : Extends U T := by
  induction hU with
  | refl => exact extends_of_reach hT
  | tail hreach hlast ih =>
    have hreach' := hreach.tail hlast
    obtain ⟨i, hi, x, hx, hnone, rfl⟩ := hlast
    have hxT := hR.value_extends ih hx
    intro k y hy
    by_cases hk : k = R.key i
    · subst hk
      rcases visit_eq_self_iff.mp (hsat i hi) with hno | ⟨-, z, -, hz, -⟩
      · cases hno.symm.trans hxT
      · rw [hz, hdet _ _ hreach' hT _ y z hy hz]
    · rw [Finmap.lookup_insert_of_ne _ hk] at hy
      exact ih k y hy

/-- Below a map that all rules are satisfied with, no visit ends with an error. -/
theorem exists_visit_ok {rules : List ι} (hR : Stable R) (hsat : Satisfied R rules T)
    (hext : Extends S T) {i : ι} (hi : i ∈ rules) : ∃ U, visit R S i = .ok U := by
  cases hvalue : R.value S i with
  | error e =>
    obtain ⟨e', he'⟩ := hR.error_extends hext hvalue
    rcases visit_eq_self_iff.mp (hsat i hi) with hno | ⟨x, -, hx, -⟩
    · cases hno.symm.trans he'
    · cases hx.symm.trans he'
  | ok value =>
    cases value with
    | none => exact ⟨S, visit_eq_self_iff.mpr (.inl hvalue)⟩
    | some x =>
      cases hlookup : S.lookup (R.key i) with
      | none => exact ⟨_, visit_of_lookup hvalue hlookup⟩
      | some y =>
        have hxT := hR.value_extends hext hvalue
        have hyT := hext _ y hlookup
        rcases visit_eq_self_iff.mp (hsat i hi) with hno | ⟨x', y', hx', hy', hadmits⟩
        · cases hno.symm.trans hxT
        · obtain rfl := Option.some.inj (Except.ok.inj (hx'.symm.trans hxT))
          obtain rfl := Option.some.inj (hy'.symm.trans hyT)
          exact ⟨S, visit_eq_self_iff.mpr (.inr ⟨x', y', hvalue, hlookup, hadmits⟩)⟩

theorem exists_pass_ok {rules visited : List ι} (hR : Stable R) (hdet : Determined R rules S)
    (hT : ReflTransGen (Writes R rules) S T) (hsat : Satisfied R rules T)
    (hsub : visited ⊆ rules) (hU : ReflTransGen (Writes R rules) S U) :
    ∃ U', pass R visited U = .ok U' := by
  induction visited generalizing U with
  | nil => exact ⟨U, rfl⟩
  | cons i visited ih =>
    have hext := extends_of_satisfied hR hdet hT hsat hU
    obtain ⟨V, hV⟩ := exists_visit_ok hR hsat hext (hsub List.mem_cons_self)
    have hself : pass R [i] U = .ok V := pass_cons_ok.mpr ⟨V, hV, rfl⟩
    have hreach : ReflTransGen (Writes R rules) U V :=
      pass_reach (by simpa using hsub List.mem_cons_self) hself
    obtain ⟨U', hU'⟩ := ih (fun j hj => hsub (List.mem_cons_of_mem i hj)) (hU.trans hreach)
    exact ⟨U', pass_cons_ok.mpr ⟨V, hV, hU'⟩⟩

section Passes

variable [DecidableEq V]

theorem exists_passes_ok {rules : List ι} (hR : Stable R) (hdet : Determined R rules S)
    (hT : ReflTransGen (Writes R rules) S T) (hsat : Satisfied R rules T) (n : ℕ)
    (hU : ReflTransGen (Writes R rules) S U) : ∃ U', passes R rules n U = .ok U' := by
  induction n generalizing U with
  | zero => exact ⟨U, rfl⟩
  | succ n ih =>
    obtain ⟨V, hV⟩ := exists_pass_ok hR hdet hT hsat (List.Subset.refl rules) hU
    simp only [passes, hV]
    split
    · exact ⟨V, rfl⟩
    · exact ih (hU.trans (pass_reach (List.Subset.refl rules) hV))

theorem passes_eq_of_determined {rules : List ι} (hR : Stable R) (hdet : Determined R rules S)
    (hT : ReflTransGen (Writes R rules) S T) (hsat : Satisfied R rules T) :
    passes R rules rules.length S = .ok T := by
  obtain ⟨U, hU⟩ := exists_passes_ok hR hdet hT hsat rules.length .refl
  have hreach := (passes_reach hU).1
  have hUT := extends_of_satisfied hR hdet hT hsat hreach
  have hTU := extends_of_satisfied hR hdet hreach (passes_satisfied hR hU) hT
  rw [hU, hUT.antisymm hTU]

/-- What the first pass has written stays. -/
theorem extends_of_first {first rest : List ι} (hfirst : pass R first S = .ok T)
    (h : passes R (first ++ rest) (first ++ rest).length S = .ok U) : Extends T U := by
  cases hlength : (first ++ rest).length with
  | zero =>
    obtain ⟨rfl, rfl⟩ := List.append_eq_nil_iff.mp (List.length_eq_zero_iff.mp hlength)
    rw [← Except.ok.inj hfirst, ← Except.ok.inj h]
    exact .refl S
  | succ n =>
    rw [hlength] at h
    unfold passes at h
    rw [pass_append_ok hfirst] at h
    split at h
    · cases h
    · rename_i V hpass
      have hTV := extends_of_reach (pass_reach (List.Subset.refl rest) hpass)
      split at h
      · exact Except.ok.inj h ▸ hTV
      · exact hTV.trans (extends_of_reach (passes_reach h).1)

theorem passes_eq_of_first {first rest : List ι} (hfirst : pass R first S = .ok T)
    (hsat : Satisfied R (first ++ rest) T) :
    passes R (first ++ rest) (first ++ rest).length S = .ok T := by
  have hrest : pass R rest T = .ok T :=
    Satisfied.pass fun i hi => hsat i (List.mem_append_right first hi)
  cases hlength : (first ++ rest).length with
  | zero =>
    obtain ⟨rfl, rfl⟩ := List.append_eq_nil_iff.mp (List.length_eq_zero_iff.mp hlength)
    exact hfirst
  | succ n =>
    unfold passes
    rw [pass_append_ok hfirst, hrest]
    simp only [hsat.passes n, ite_self]

/-- The result does not depend on the order of the rules exactly when no key can be written with
two values, or no map that the rules can write satisfies them all. -/
theorem passes_perm_iff {rules : List ι} (hR : Stable R) :
    (∀ rules', rules'.Perm rules → ∀ T,
      passes R rules' rules'.length S = .ok T ↔ passes R rules rules.length S = .ok T) ↔
    Determined R rules S ∨
      ¬ ∃ T, ReflTransGen (Writes R rules) S T ∧ Satisfied R rules T := by
  constructor
  · intro hperm
    by_cases hex : ∃ T, ReflTransGen (Writes R rules) S T ∧ Satisfied R rules T
    · obtain ⟨T, hT, hsat⟩ := hex
      obtain ⟨first, rest, horder, hfirst⟩ := exists_perm_of_reach hT
      have hresult := (hperm _ horder T).mp (passes_eq_of_first hfirst (hsat.perm horder))
      -- Every map that can be written is below the result, being the first part of some order.
      have hbelow : ∀ U, ReflTransGen (Writes R rules) S U → Extends U T := by
        intro U hU
        obtain ⟨first, rest, horder, hfirst⟩ := exists_perm_of_reach hU
        exact extends_of_first hfirst ((hperm _ horder T).mpr hresult)
      refine .inl fun U V hU hV k x y hx hy => ?_
      exact Option.some.inj ((hbelow U hU k x hx).symm.trans (hbelow V hV k y hy))
    · exact .inr hex
  · intro hcond rules' hperm T
    have hwrites {S T : Finmap fun _ : κ => V} :
        ReflTransGen (Writes R rules') S T ↔ ReflTransGen (Writes R rules) S T :=
      ⟨reach_mono hperm.subset, reach_mono hperm.symm.subset⟩
    rcases hcond with hdet | hnone
    · have hdet' : Determined R rules' S := by
        intro U V hU hV
        exact hdet U V (hwrites.mp hU) (hwrites.mp hV)
      constructor
      · intro h
        exact passes_eq_of_determined hR hdet (hwrites.mp (passes_reach h).1)
          ((passes_satisfied hR h).perm hperm.symm)
      · intro h
        exact passes_eq_of_determined hR hdet' (hwrites.mpr (passes_reach h).1)
          ((passes_satisfied hR h).perm hperm)
    · constructor
      · intro h
        exact absurd ⟨T, hwrites.mp (passes_reach h).1,
          (passes_satisfied hR h).perm hperm.symm⟩ hnone
      · intro h
        exact absurd ⟨T, (passes_reach h).1, passes_satisfied hR h⟩ hnone

end Passes

end FirstWriter

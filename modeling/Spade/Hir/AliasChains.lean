import Spade.Hir.NameLookup

/-!
# Which lookups of items return

A lookup of an item follows the aliases that its path names, from each one first to the target as it
is written and, if nothing is found there, to the target in the namespace of the alias.

* **Chains of aliases** (`follow_returns_iff`): the lookups of one kind return exactly when no path
  leads back to itself.
* **All lookups** (`lookups_return_iff`): in a table that the operations build, all lookups return
  exactly when neither the replacement of first names nor the chains of aliases have a cycle.
-/

namespace Spade.Hir.SymbolTable

open Relation Spade.Lib.Redirect Spade.Lib.LeftRecursion

variable {H : HeadTypes} {symtab : SymbolTable H} {E R : Type} {seek : Seek H E R}

/-- The path names the symbol. -/
def Resolves (symtab : SymbolTable H) (name : Path) (id : NameID) : Prop :=
  ∃ fuel, symtab.tryLookupId fuel name = some (some id)

/-- Behind the path there is an item that the lookup accepts. -/
inductive Finds (symtab : SymbolTable H) (seek : Seek H E R) : Path → Prop
  | here {name : Path} {id : NameID} {found : R} :
      symtab.Resolves name id → seek.verdict symtab name id = .done (.ok found) →
      Finds symtab seek name
  | target {name path inNamespace : Path} {id : NameID} :
      symtab.Resolves name id → seek.verdict symtab name id = .alias path inNamespace →
      Finds symtab seek path → Finds symtab seek name
  | fallback {name path inNamespace : Path} {id : NameID} :
      symtab.Resolves name id → seek.verdict symtab name id = .alias path inNamespace →
      Finds symtab seek (inNamespace ++ path) → Finds symtab seek name

/-- An alias leads to its target as it is written, and if nothing is found behind that, to its
target in the namespace of the alias. -/
inductive Follows (symtab : SymbolTable H) (seek : Seek H E R) : Path → Path → Prop
  | target {name path inNamespace : Path} {id : NameID} :
      symtab.Resolves name id → seek.verdict symtab name id = .alias path inNamespace →
      Follows symtab seek name path
  | fallback {name path inNamespace : Path} {id : NameID} :
      symtab.Resolves name id → seek.verdict symtab name id = .alias path inNamespace →
      ¬ Finds symtab seek path → Follows symtab seek name (inNamespace ++ path)

/-- The aliases that the lookup follows are the ones of the table. -/
def Seek.Lawful (seek : Seek H E R) : Prop :=
  ∀ symtab name id path inNamespace, seek.verdict symtab name id = .alias path inNamespace →
    symtab.thing id = some (.alias path inNamespace)

theorem Resolves.unique {name : Path} {id : NameID} (h : symtab.Resolves name id) {fuel : ℕ}
    {result : Option NameID} (hresult : symtab.tryLookupId fuel name = some result) :
    result = some id := by
  obtain ⟨fuel', hid⟩ := h
  have hmax := tryLookupId_mono (Nat.le_max_left fuel fuel') hresult
  have hmax' := tryLookupId_mono (Nat.le_max_right fuel fuel') hid
  exact Option.some.inj (hmax.symm.trans hmax')

/-! ### One call -/

theorem followStep_mono {lookup lookup' : Path → Option (Except E R)}
    (h : ∀ name result, lookup name = some result → lookup' name = some result) {name : Path}
    {id : Option NameID} {result : Except E R}
    (hstep : followStep seek symtab lookup name id = some result) :
    followStep seek symtab lookup' name id = some result := by
  unfold followStep at hstep ⊢
  rcases id with _ | id
  · exact hstep
  · dsimp only at hstep ⊢
    split
    · next hverdict => rwa [hverdict] at hstep
    · next hverdict =>
      rw [hverdict] at hstep
      obtain ⟨first, hfirst, hrest⟩ := Option.bind_eq_some_iff.mp hstep
      rw [h _ _ hfirst, Option.bind_some]
      rcases first with error | found
      · obtain ⟨second, hsecond, hresult⟩ := Option.map_eq_some_iff.mp hrest
        exact Option.map_eq_some_iff.mpr ⟨second, h _ _ hsecond, hresult⟩
      · exact hrest
    · next hverdict => rwa [hverdict] at hstep

theorem follow_mono {fuel fuel' : ℕ} (hle : fuel ≤ fuel') {name : Path} {result : Except E R}
    (h : symtab.follow seek fuel name = some result) :
    symtab.follow seek fuel' name = some result := by
  induction fuel generalizing fuel' name result with
  | zero => exact absurd h (Option.some_ne_none _).symm
  | succ fuel ih =>
      obtain ⟨fuel', rfl⟩ : ∃ n, fuel' = n + 1 := ⟨fuel' - 1, by omega⟩
      have hle' := Nat.le_of_succ_le_succ hle
      unfold follow at h ⊢
      obtain ⟨id, hid, hstep⟩ := Option.bind_eq_some_iff.mp h
      rw [tryLookupId_mono hle' hid, Option.bind_some]
      exact followStep_mono (fun name result => ih hle') hstep

/-- What a lookup does that returns. -/
theorem follow_cases {fuel : ℕ} {name : Path} {result : Except E R}
    (h : symtab.follow seek (fuel + 1) name = some result) :
    (symtab.tryLookupId fuel name = some none ∧ result = .error (seek.missing name)) ∨
      ∃ id, symtab.tryLookupId fuel name = some (some id) ∧
        (seek.verdict symtab name id = .done result ∨
          ∃ path inNamespace first, seek.verdict symtab name id = .alias path inNamespace ∧
            symtab.follow seek fuel path = some first ∧
            ((∃ found, first = .ok found ∧ result = .ok found) ∨
              ∃ error second, first = .error error ∧
                symtab.follow seek fuel (inNamespace ++ path) = some second ∧
                result = Except.mapError (seek.rename name) second)) := by
  unfold follow at h
  obtain ⟨id, hid, hstep⟩ := Option.bind_eq_some_iff.mp h
  rcases id with _ | id
  · exact .inl ⟨hid, (Option.some.inj hstep).symm⟩
  · refine .inr ⟨id, hid, ?_⟩
    unfold followStep at hstep
    dsimp only at hstep
    split at hstep
    · next hverdict =>
      rw [hverdict, Option.some.inj hstep]
      exact .inl rfl
    · next path inNamespace hverdict =>
      obtain ⟨first, hfirst, hrest⟩ := Option.bind_eq_some_iff.mp hstep
      refine .inr ⟨path, inNamespace, first, hverdict, hfirst, ?_⟩
      rcases first with error | found
      · obtain ⟨second, hsecond, hresult⟩ := Option.map_eq_some_iff.mp hrest
        exact .inr ⟨error, second, rfl, hsecond, hresult.symm⟩
      · exact .inl ⟨found, rfl, (Option.some.inj hrest).symm⟩
    · exact absurd hstep (Option.some_ne_none _).symm

theorem finds_of_follow {fuel : ℕ} {name : Path} {found : R}
    (h : symtab.follow seek fuel name = some (.ok found)) : symtab.Finds seek name := by
  induction fuel generalizing name found with
  | zero => exact absurd h (Option.some_ne_none _).symm
  | succ fuel ih =>
      rcases follow_cases h with ⟨-, herror⟩ | ⟨id, hid, hdone | halias⟩
      · exact absurd herror (by simp)
      · exact .here ⟨fuel, hid⟩ hdone
      · obtain ⟨path, inNamespace, first, hverdict, hfirst, hresult⟩ := halias
        rcases hresult with ⟨found', rfl, -⟩ | ⟨error, second, rfl, hsecond, hresult⟩
        · exact .target ⟨fuel, hid⟩ hverdict (ih hfirst)
        · rcases second with error' | found'
          · exact absurd hresult (by simp [Except.mapError])
          · exact .fallback ⟨fuel, hid⟩ hverdict (ih hsecond)

/-- What a lookup does behind a symbol that is known. -/
theorem Resolves.follow {name : Path} {id : NameID} (h : symtab.Resolves name id) {fuel : ℕ}
    {result : Except E R} (hresult : symtab.follow seek fuel name = some result) :
    ∃ fuel', fuel = fuel' + 1 ∧
      (seek.verdict symtab name id = .done result ∨
        ∃ path inNamespace first, seek.verdict symtab name id = .alias path inNamespace ∧
          symtab.follow seek fuel' path = some first ∧
          ((∃ found, first = .ok found ∧ result = .ok found) ∨
            ∃ error second, first = .error error ∧
              symtab.follow seek fuel' (inNamespace ++ path) = some second ∧
              result = Except.mapError (seek.rename name) second)) := by
  rcases fuel with _ | fuel
  · exact absurd hresult (Option.some_ne_none _).symm
  refine ⟨fuel, rfl, ?_⟩
  rcases follow_cases hresult with ⟨hnone, -⟩ | ⟨id', hid, hcases⟩
  · exact absurd (h.unique hnone) (Option.some_ne_none _).symm
  · rwa [Option.some.inj (h.unique hid)] at hcases

/-- What a lookup does behind an alias. -/
theorem Resolves.follow_alias {name path inNamespace : Path} {id : NameID}
    (h : symtab.Resolves name id)
    (hverdict : seek.verdict symtab name id = .alias path inNamespace) {fuel : ℕ}
    {result : Except E R} (hresult : symtab.follow seek fuel name = some result) :
    ∃ fuel' first, fuel = fuel' + 1 ∧ symtab.follow seek fuel' path = some first ∧
      ((∃ found, first = .ok found ∧ result = .ok found) ∨
        ∃ error second, first = .error error ∧
          symtab.follow seek fuel' (inNamespace ++ path) = some second ∧
          result = Except.mapError (seek.rename name) second) := by
  obtain ⟨fuel', rfl, hdone | ⟨path', inNamespace', first, halias, hfirst, hrest⟩⟩ :=
    h.follow hresult
  · exact nomatch hverdict.symm.trans hdone
  · obtain ⟨rfl, rfl⟩ := Verdict.alias.inj (hverdict.symm.trans halias)
    exact ⟨fuel', first, rfl, hfirst, hrest⟩

theorem follow_of_finds {name : Path} (h : symtab.Finds seek name) {fuel : ℕ}
    {result : Except E R} (hresult : symtab.follow seek fuel name = some result) :
    ∃ found, result = .ok found := by
  induction h generalizing fuel result with
  | @here name id found hid hdone =>
      obtain ⟨fuel', -, hdone' | ⟨path, inNamespace, first, halias, -⟩⟩ := hid.follow hresult
      · exact ⟨found, (Verdict.done.inj (hdone.symm.trans hdone')).symm⟩
      · exact nomatch hdone.symm.trans halias
  | target hid hverdict _ ih =>
      obtain ⟨fuel', first, -, hfirst, hrest⟩ := hid.follow_alias hverdict hresult
      rcases hrest with ⟨found, -, hfound⟩ | ⟨error, second, rfl, -, -⟩
      · exact ⟨found, hfound⟩
      · obtain ⟨found, hfound⟩ := ih hfirst
        exact nomatch hfound
  | fallback hid hverdict _ ih =>
      obtain ⟨fuel', first, -, hfirst, hrest⟩ := hid.follow_alias hverdict hresult
      rcases hrest with ⟨found, -, hfound⟩ | ⟨error, second, -, hsecond, rfl⟩
      · exact ⟨found, hfound⟩
      · obtain ⟨found, rfl⟩ := ih hsecond
        exact ⟨found, rfl⟩

/-! ### Chains of aliases -/

/-- A lookup that returns has looked up what its path leads to. -/
theorem Follows.lookup {name next : Path} (h : symtab.Follows seek name next) {fuel : ℕ}
    {result : Except E R} (hresult : symtab.follow seek fuel name = some result) :
    ∃ fuel' < fuel, ∃ result', symtab.follow seek fuel' next = some result' := by
  cases h with
  | target hid hverdict =>
      obtain ⟨fuel', first, rfl, hfirst, -⟩ := hid.follow_alias hverdict hresult
      exact ⟨fuel', Nat.lt_succ_self _, first, hfirst⟩
  | fallback hid hverdict hfinds =>
      obtain ⟨fuel', first, rfl, hfirst, hrest⟩ := hid.follow_alias hverdict hresult
      rcases hrest with ⟨found, rfl, -⟩ | ⟨error, second, -, hsecond, -⟩
      · exact absurd (finds_of_follow hfirst) hfinds
      · exact ⟨fuel', Nat.lt_succ_self _, second, hsecond⟩

theorem Follows.lookup_transGen {name next : Path}
    (h : TransGen (symtab.Follows seek) name next) {fuel : ℕ} {result : Except E R}
    (hresult : symtab.follow seek fuel name = some result) :
    ∃ fuel' < fuel, ∃ result', symtab.follow seek fuel' next = some result' := by
  induction h with
  | single h => exact h.lookup hresult
  | tail _ h ih =>
      obtain ⟨fuel', hlt, result', hresult'⟩ := ih
      obtain ⟨fuel'', hlt', hresult''⟩ := h.lookup hresult'
      exact ⟨fuel'', hlt'.trans hlt, hresult''⟩

/-- A path that leads back to itself is followed forever. -/
theorem follow_diverges {name : Path} (hcycle : TransGen (symtab.Follows seek) name name)
    (fuel : ℕ) : symtab.follow seek fuel name = none := by
  induction fuel using Nat.strongRecOn with
  | ind fuel ih =>
      by_contra hsome
      obtain ⟨result, hresult⟩ := Option.ne_none_iff_exists'.mp hsome
      obtain ⟨fuel', hlt, result', hresult'⟩ := Follows.lookup_transGen hcycle hresult
      exact Option.some_ne_none _ (hresult'.symm.trans (ih fuel' hlt))

theorem follow_returns_of_acc
    (hids : ∀ name, Returns (symtab.tryLookupId · name))
    (hpanic : ∀ name id, symtab.Resolves name id → seek.verdict symtab name id ≠ .panic)
    {name : Path} (h : Acc (fun b a => symtab.Follows seek a b) name) :
    Returns (symtab.follow seek · name) := by
  induction h with
  | intro name _ ih =>
      obtain ⟨fuel, result, hresult⟩ := hids name
      rcases result with _ | id
      · refine ⟨fuel + 1, .error (seek.missing name), ?_⟩
        simp only [follow, hresult, Option.bind_some, followStep]
      · have hid : symtab.Resolves name id := ⟨fuel, hresult⟩
        rcases hverdict : seek.verdict symtab name id with done | ⟨path, inNamespace⟩ | _
        · refine ⟨fuel + 1, done, ?_⟩
          simp only [follow, hresult, Option.bind_some, followStep, hverdict]
        · obtain ⟨fuel₁, first, hfirst⟩ := ih path (.target hid hverdict)
          rcases first with error | found
          · -- the target failed, so nothing is found behind it
            have hfinds : ¬ symtab.Finds seek path := by
              intro hfinds
              obtain ⟨found, hfound⟩ := follow_of_finds hfinds hfirst
              exact nomatch hfound
            obtain ⟨fuel₂, second, hsecond⟩ := ih _ (.fallback hid hverdict hfinds)
            refine ⟨fuel + fuel₁ + fuel₂ + 1, Except.mapError (seek.rename name) second, ?_⟩
            have hresult' := tryLookupId_mono (show fuel ≤ fuel + fuel₁ + fuel₂ by omega) hresult
            have hfirst' := follow_mono (show fuel₁ ≤ fuel + fuel₁ + fuel₂ by omega) hfirst
            have hsecond' := follow_mono (show fuel₂ ≤ fuel + fuel₁ + fuel₂ by omega) hsecond
            simp only [follow, hresult', Option.bind_some, followStep, hverdict, hfirst', hsecond',
              Option.map_some]
          · refine ⟨fuel + fuel₁ + 1, .ok found, ?_⟩
            have hresult' := tryLookupId_mono (Nat.le_add_right fuel fuel₁) hresult
            have hfirst' := follow_mono (Nat.le_add_left fuel₁ fuel) hfirst
            simp only [follow, hresult', Option.bind_some, followStep, hverdict, hfirst']
        · exact absurd hverdict (hpanic name id hid)

/-- The paths that an alias stands for. -/
def Thing.aliasTargets : Thing H → List Path
  | .alias path inNamespace => [path, inNamespace ++ path]
  | _ => []

/-- **Lookups of items.** If all lookups of ids return, then all lookups of one kind return exactly
when no path leads back to itself. -/
theorem follow_returns_iff (hseek : seek.Lawful)
    (hids : ∀ name, Returns (symtab.tryLookupId · name))
    (hpanic : ∀ name id, symtab.Resolves name id → seek.verdict symtab name id ≠ .panic) :
    (∀ name, Returns (symtab.follow seek · name)) ↔
      ∀ name, ¬ TransGen (symtab.Follows seek) name name := by
  constructor
  · intro hreturns name hcycle
    obtain ⟨fuel, result, hresult⟩ := hreturns name
    exact Option.some_ne_none _ (hresult.symm.trans (follow_diverges hcycle fuel))
  · intro hacyclic name
    let targets : List Path := symtab.things.flatMap fun entry => Thing.aliasTargets entry.2
    have hentry : ∀ {name id path inNamespace},
        seek.verdict symtab name id = .alias path inNamespace →
          path ∈ targets ∧ inNamespace ++ path ∈ targets := by
      intro name id path inNamespace hverdict
      have hthing := hseek _ _ _ _ _ hverdict
      obtain ⟨before, after, hthings, -⟩ := List.lookup_eq_some_iff.mp hthing
      have hmem : (id.id, Thing.alias path inNamespace) ∈ symtab.things := by
        rw [hthings]
        exact List.mem_append_right _ List.mem_cons_self
      exact ⟨List.mem_flatMap.mpr ⟨_, hmem, List.mem_cons_self⟩,
        List.mem_flatMap.mpr ⟨_, hmem, List.mem_cons_of_mem _ List.mem_cons_self⟩⟩
    have htargets : ∀ name next, symtab.Follows seek name next → next ∈ targets := by
      intro name next hnext
      cases hnext with
      | target _ hverdict => exact (hentry hverdict).1
      | fallback _ hverdict _ => exact (hentry hverdict).2
    exact follow_returns_of_acc hids hpanic ((terminates_of_acyclic htargets hacyclic).apply name)

/-! ### The symbols of a table -/

/-- There is a thing or a type with the id. -/
def Known (symtab : SymbolTable H) (id : NameID) : Prop :=
  (symtab.thing id).isSome ∨ (symtab.typeSymbol id).isSome

/-- All ids in the scopes are known. -/
def Registered (symtab : SymbolTable H) : Prop :=
  ∀ scope ∈ symtab.inner ++ [symtab.root], ∀ entry ∈ scope, symtab.Known entry.2

theorem localId_mem {path : Path} {id : NameID} (h : symtab.localId path = some id) :
    ∃ scope ∈ symtab.inner ++ [symtab.root], ∃ entry ∈ scope, entry.2 = id := by
  obtain ⟨scope, hscope, hget⟩ := List.exists_of_findSome?_eq_some h
  obtain ⟨before, after, hentries, -⟩ := List.lookup_eq_some_iff.mp hget
  exact ⟨scope, hscope, (path, id), by rw [hentries]; exact List.mem_append_right _ (by simp), rfl⟩

theorem root_mem {path : Path} {id : NameID} (h : symtab.root.get path = some id) :
    ∃ scope ∈ symtab.inner ++ [symtab.root], ∃ entry ∈ scope, entry.2 = id := by
  obtain ⟨before, after, hentries, -⟩ := List.lookup_eq_some_iff.mp h
  exact ⟨symtab.root, by simp, (path, id),
    by rw [hentries]; exact List.mem_append_right _ (by simp), rfl⟩

/-- Every symbol that a lookup finds stands in a scope. -/
theorem tryLookupId_mem {fuel : ℕ} {name : Path} {id : NameID}
    (h : symtab.tryLookupId fuel name = some (some id)) :
    ∃ scope ∈ symtab.inner ++ [symtab.root], ∃ entry ∈ scope, entry.2 = id := by
  induction fuel generalizing name with
  | zero => exact absurd h (Option.some_ne_none _).symm
  | succ fuel ih =>
      unfold tryLookupId tryLookupStep at h
      split at h
      · exact root_mem (Option.some.inj h)
      · split at h
        · next hlocal =>
          rw [← Option.some.inj (Option.some.inj h)]
          exact localId_mem hlocal
        · split at h
          · obtain ⟨aliasId, -, hrest⟩ := Option.bind_eq_some_iff.mp h
            split at hrest
            · unfold tryLookupExpanded at hrest
              dsimp only at hrest
              split at hrest
              · split at hrest
                · exact absurd (Option.some.inj hrest) (Option.some_ne_none _).symm
                · exact ih hrest
              · split at hrest
                · exact ih hrest
                · obtain ⟨first, hfirst, hrest⟩ := Option.bind_eq_some_iff.mp hrest
                  rcases first with _ | first
                  · exact ih hrest
                  · rw [Option.some.inj hrest] at hfirst
                    exact ih hfirst
            · exact root_mem (Option.some.inj hrest)
          · exact root_mem (Option.some.inj h)

theorem Registered.resolves (h : symtab.Registered) {name : Path} {id : NameID}
    (hid : symtab.Resolves name id) : symtab.Known id := by
  obtain ⟨fuel, hid⟩ := hid
  obtain ⟨scope, hscope, entry, hentry, rfl⟩ := tryLookupId_mem hid
  exact h scope hscope entry hentry

theorem mem_modify {α : Type} {f : α → α} {l : List α} {i : ℕ} {b : α} (h : b ∈ l.modify i f) :
    b ∈ l ∨ ∃ a ∈ l, b = f a := by
  induction l generalizing i with
  | nil =>
      rw [List.modify_nil] at h
      exact .inl h
  | cons a l ih =>
      rcases i with _ | i
      · rcases List.mem_cons.mp h with rfl | h
        · exact .inr ⟨a, List.mem_cons_self, rfl⟩
        · exact .inl (List.mem_cons_of_mem a h)
      · rcases List.mem_cons.mp h with rfl | h
        · exact .inl List.mem_cons_self
        · rcases ih h with h | ⟨c, hc, rfl⟩
          · exact .inl (List.mem_cons_of_mem a h)
          · exact .inr ⟨c, List.mem_cons_of_mem a hc, rfl⟩

theorem Registered.insertSymbol {symtab' : SymbolTable H} {offset : ℕ} {path : Path} {id : NameID}
    (h : symtab.Registered) (hid : symtab.Known id)
    (hinsert : symtab.insertSymbol offset path id = some symtab') : symtab'.Registered := by
  have hcons : ∀ scope : Scope, scope ∈ symtab.inner ++ [symtab.root] →
      ∀ entry ∈ (path, id) :: scope, symtab.Known entry.2 := by
    intro scope hscope entry hentry
    rcases List.mem_cons.mp hentry with rfl | hentry
    · exact hid
    · exact h scope hscope entry hentry
  unfold SymbolTable.insertSymbol at hinsert
  split at hinsert
  · obtain rfl := Option.some.inj hinsert
    intro scope hscope
    rcases List.mem_append.mp hscope with hscope | hscope
    · rcases mem_modify hscope with hscope | ⟨scope', hscope', rfl⟩
      · exact h scope (List.mem_append_left _ hscope)
      · exact hcons scope' (List.mem_append_left _ hscope')
    · exact h scope (List.mem_append_right _ hscope)
  · split at hinsert
    · obtain rfl := Option.some.inj hinsert
      intro scope hscope
      rcases List.mem_append.mp hscope with hscope | hscope
      · exact h scope (List.mem_append_left _ hscope)
      · rw [List.mem_singleton.mp hscope]
        exact hcons symtab.root (List.mem_append_right _ List.mem_cons_self)
    · exact absurd hinsert (Option.some_ne_none _).symm

theorem isSome_lookup_cons {α : Type} {l : List (ℕ × α)} {key key' : ℕ} (a : α)
    (h : (l.lookup key).isSome) : (((key', a) :: l).lookup key).isSome := by
  rw [List.lookup_cons]
  split
  · rfl
  · exact h

/-- Everything stays known when a thing is added. -/
theorem Registered.things_cons (h : symtab.Registered) (key : ℕ) (item : Thing H) :
    { symtab with things := (key, item) :: symtab.things }.Registered := by
  intro scope hscope entry hentry
  rcases h scope hscope entry hentry with hthing | htype
  · exact .inl (isSome_lookup_cons item hthing)
  · exact .inr htype

theorem Registered.types_cons (h : symtab.Registered) (key : ℕ) (t : H.TypeSymbol) :
    { symtab with types := (key, t) :: symtab.types }.Registered := by
  intro scope hscope entry hentry
  rcases h scope hscope entry hentry with hthing | htype
  · exact .inl hthing
  · exact .inr (isSome_lookup_cons t htype)

theorem Registered.addThingWithIdAtOffset {symtab' : SymbolTable H} {offset id : ℕ} {name : Path}
    {item : Thing H} (h : symtab.Registered)
    (hadd : symtab.addThingWithIdAtOffset offset id name item = some symtab') :
    symtab'.Registered := by
  unfold SymbolTable.addThingWithIdAtOffset at hadd
  dsimp only at hadd
  split at hadd
  · exact absurd hadd (Option.some_ne_none _).symm
  · refine (h.things_cons id item).insertSymbol (.inl ?_) hadd
    simp [thing]

theorem Registered.addTypeWithId {symtab' : SymbolTable H} {id : ℕ} {name : Path}
    {t : H.TypeSymbol} (h : symtab.Registered)
    (hadd : symtab.addTypeWithId id name t = some symtab') : symtab'.Registered := by
  unfold SymbolTable.addTypeWithId at hadd
  dsimp only at hadd
  split at hadd
  · exact absurd hadd (Option.some_ne_none _).symm
  · refine (h.types_cons id t).insertSymbol (.inr ?_) hadd
    simp [typeSymbol]

theorem Registered.addThingAtOffset {symtab' : SymbolTable H} {offset : ℕ} {name : Path}
    {item : Thing H} (h : symtab.Registered)
    (hadd : symtab.addThingAtOffset offset name item = some symtab') : symtab'.Registered := by
  have hnext : { symtab with nextId := symtab.nextId + 1 }.Registered := h
  exact hnext.addThingWithIdAtOffset hadd

theorem Registered.addType {symtab' : SymbolTable H} {name : Path} {t : H.TypeSymbol}
    (h : symtab.Registered) (hadd : symtab.addType name t = some symtab') :
    symtab'.Registered := by
  have hnext : { symtab with nextId := symtab.nextId + 1 }.Registered := h
  exact hnext.addTypeWithId hadd

theorem Reachable.registered (h : symtab.Reachable) : symtab.Registered := by
  induction h with
  | new =>
      intro scope hscope entry hentry
      rw [List.mem_singleton.mp hscope] at hentry
      exact absurd hentry List.not_mem_nil
  | newScope _ ih =>
      intro scope hscope entry hentry
      rcases List.mem_cons.mp hscope with rfl | hscope
      · exact absurd hentry List.not_mem_nil
      · exact ih scope hscope entry hentry
  | closeScope _ hclose ih =>
      unfold SymbolTable.closeScope at hclose
      split at hclose
      · exact absurd hclose (Option.some_ne_none _).symm
      · next hinner =>
        obtain rfl := Option.some.inj hclose
        intro scope hscope entry hentry
        refine ih scope ?_ entry hentry
        rw [hinner]
        exact List.mem_cons_of_mem _ hscope
  | pushNamespace newIdent _ ih => exact ih
  | popNamespace _ hpop ih =>
      unfold SymbolTable.popNamespace at hpop
      split at hpop
      · exact absurd hpop (Option.some_ne_none _).symm
      · obtain rfl := Option.some.inj hpop
        exact ih
  | setBaseNamespace baseNamespace _ ih => exact ih
  | addThingWithIdAtOffset _ hadd ih => exact ih.addThingWithIdAtOffset hadd
  | addThingWithNameId nameId item _ ih => exact ih.things_cons nameId.id item
  | addThingAtOffset _ hadd ih => exact ih.addThingAtOffset hadd
  | addUniqueThing _ hadd ih =>
      unfold SymbolTable.addUniqueThing at hadd
      split at hadd
      · exact ih.addThingAtOffset hadd
      · exact absurd hadd (Option.some_ne_none _).symm
  | addTypeWithId _ hadd ih => exact ih.addTypeWithId hadd
  | addType _ hadd ih => exact ih.addType hadd
  | addUniqueType _ hadd ih =>
      unfold SymbolTable.addUniqueType at hadd
      split at hadd
      · exact ih.addType hadd
      · exact absurd hadd (Option.some_ne_none _).symm
  | reAddType _ hadd ih =>
      unfold SymbolTable.reAddType at hadd
      split at hadd
      · next htype => exact ih.insertSymbol (.inr htype) hadd
      · exact absurd hadd (Option.some_ne_none _).symm
  | addAlias _ hadd ih =>
      unfold SymbolTable.addAlias at hadd
      split at hadd
      · exact ih.addThingAtOffset hadd
      · exact absurd hadd (Option.some_ne_none _).symm

/-! ### All lookups -/

/-- Every lookup of the path returns. -/
structure LookupsReturn (symtab : SymbolTable H) (name : Path) : Prop where
  tryLookupId : Returns (symtab.tryLookupId · name)
  lookupId : Returns (symtab.lookupId · name)
  hasSymbol : Returns (symtab.hasSymbol · name)
  lookupVariable : Returns (symtab.lookupVariable · name)
  tryLookupVariable : Returns (symtab.tryLookupVariable · name)
  lookupUnit : Returns (symtab.lookupUnit · name)
  lookupEnumVariant : Returns (symtab.lookupEnumVariant · name)
  lookupPatternableType : Returns (symtab.lookupPatternableType · name)
  lookupStruct : Returns (symtab.lookupStruct · name)
  lookupComptimeConfig : Returns (symtab.lookupComptimeConfig · name)
  lookupTrait : Returns (symtab.lookupTrait · name)
  lookupTypeSymbol : Returns (symtab.lookupTypeSymbol · name)
  tryLookupFinalId : Returns (symtab.tryLookupFinalId · name)

/-- No name exposes itself, and for no kind of lookup does a path lead back to itself. -/
structure NoAliasCycle (symtab : SymbolTable H) : Prop where
  names : ∀ name, ¬ TransGen (Exposes symtab.Replaces) name name
  unit : ∀ path, ¬ TransGen (symtab.Follows seekUnit) path path
  enumVariant : ∀ path, ¬ TransGen (symtab.Follows seekEnumVariant) path path
  patternableType : ∀ path, ¬ TransGen (symtab.Follows seekPatternableType) path path
  struct : ∀ path, ¬ TransGen (symtab.Follows seekStruct) path path
  comptimeConfig : ∀ path, ¬ TransGen (symtab.Follows seekComptimeConfig) path path
  trait : ∀ path, ¬ TransGen (symtab.Follows seekTrait) path path
  typeSymbol : ∀ path, ¬ TransGen (symtab.Follows seekTypeSymbol) path path
  finalId : ∀ path, ¬ TransGen (symtab.Follows seekFinalId) path path

theorem Returns.map {α β : Type} {lookup : ℕ → Option α} (h : Returns lookup) (f : α → β) :
    Returns fun fuel => (lookup fuel).map f := by
  obtain ⟨fuel, result, hresult⟩ := h
  refine ⟨fuel, f result, ?_⟩
  dsimp only
  rw [hresult]
  rfl

theorem Returns.of_map {α β : Type} {lookup : ℕ → Option α} {f : α → β}
    (h : Returns fun fuel => (lookup fuel).map f) : Returns lookup := by
  obtain ⟨fuel, result, hresult⟩ := h
  obtain ⟨first, hfirst, -⟩ := Option.map_eq_some_iff.mp hresult
  exact ⟨fuel, first, hfirst⟩

theorem seekThing_lawful {convert : Thing H → Option R} {err : Path → Thing H → LookupError H} :
    (seekThing convert err).Lawful := by
  intro symtab name id path inNamespace h
  unfold seekThing at h
  dsimp only at h
  split at h
  · next hthing =>
    obtain ⟨rfl, rfl⟩ := Verdict.alias.inj h
    exact hthing
  · split at h
    · exact nomatch h
    · exact nomatch h
  · split at h
    · exact nomatch h
    · exact nomatch h

theorem seekThing_ne_panic {convert : Thing H → Option R} {err : Path → Thing H → LookupError H}
    (name : Path) (id : NameID) : (seekThing convert err).verdict symtab name id ≠ .panic := by
  intro h
  unfold seekThing at h
  dsimp only at h
  split at h
  · exact nomatch h
  · split at h
    · exact nomatch h
    · exact nomatch h
  · split at h
    · exact nomatch h
    · exact nomatch h

theorem seekThing_returns_iff {convert : Thing H → Option R}
    {err : Path → Thing H → LookupError H}
    (hids : ∀ name, Returns (symtab.tryLookupId · name)) :
    (∀ name, Returns (symtab.follow (seekThing convert err) · name)) ↔
      ∀ name, ¬ TransGen (symtab.Follows (seekThing convert err)) name name :=
  follow_returns_iff seekThing_lawful hids fun name id _ => seekThing_ne_panic name id

/-- No symbol of a table makes a lookup of a type panic. -/
theorem seekTypeSymbol_returns_iff (h : symtab.Registered)
    (hids : ∀ name, Returns (symtab.tryLookupId · name)) :
    (∀ name, Returns (symtab.lookupTypeSymbol · name)) ↔
      ∀ name, ¬ TransGen (symtab.Follows seekTypeSymbol) name name := by
  apply follow_returns_iff _ hids
  · intro name id hid hpanic
    unfold seekTypeSymbol at hpanic
    dsimp only at hpanic
    rcases h.resolves hid with hthing | htype
    · obtain ⟨thing, hthing⟩ := Option.isSome_iff_exists.mp hthing
      rw [hthing] at hpanic
      split at hpanic
      · exact nomatch hpanic
      · cases thing <;> exact nomatch hpanic
    · obtain ⟨t, ht⟩ := Option.isSome_iff_exists.mp htype
      rw [ht] at hpanic
      exact nomatch hpanic
  · intro symtab name id path inNamespace hverdict
    unfold seekTypeSymbol at hverdict
    dsimp only at hverdict
    split at hverdict
    · exact nomatch hverdict
    · split at hverdict
      · next hthing =>
        obtain ⟨rfl, rfl⟩ := Verdict.alias.inj hverdict
        exact hthing
      · exact nomatch hverdict
      · exact nomatch hverdict

theorem seekFinalId_returns_iff (hids : ∀ name, Returns (symtab.tryLookupId · name)) :
    (∀ name, Returns (symtab.follow seekFinalId · name)) ↔
      ∀ name, ¬ TransGen (symtab.Follows seekFinalId) name name := by
  apply follow_returns_iff _ hids
  · intro name id hid hpanic
    unfold seekFinalId at hpanic
    dsimp only at hpanic
    split at hpanic
    · exact nomatch hpanic
    · exact nomatch hpanic
  · intro symtab name id path inNamespace hverdict
    unfold seekFinalId at hverdict
    dsimp only at hverdict
    split at hverdict
    · next hthing =>
      obtain ⟨rfl, rfl⟩ := Verdict.alias.inj hverdict
      exact hthing
    · exact nomatch hverdict

/-- **All lookups.** In a table that the operations build, all lookups of all paths return exactly
when the aliases have no cycle. -/
theorem lookups_return_iff (h : symtab.Reachable) :
    (∀ name, symtab.LookupsReturn name) ↔ symtab.NoAliasCycle := by
  constructor
  · intro hreturn
    have hids := fun name => (hreturn name).tryLookupId
    exact {
      names := tryLookupId_returns_iff.mp hids
      unit := (seekThing_returns_iff hids).mp fun name => (hreturn name).lookupUnit
      enumVariant := (seekThing_returns_iff hids).mp fun name => (hreturn name).lookupEnumVariant
      patternableType :=
        (seekThing_returns_iff hids).mp fun name => (hreturn name).lookupPatternableType
      struct := (seekThing_returns_iff hids).mp fun name => (hreturn name).lookupStruct
      comptimeConfig :=
        (seekThing_returns_iff hids).mp fun name => (hreturn name).lookupComptimeConfig
      trait := (seekThing_returns_iff hids).mp fun name => (hreturn name).lookupTrait
      typeSymbol := (seekTypeSymbol_returns_iff h.registered hids).mp fun name =>
        (hreturn name).lookupTypeSymbol
      finalId := (seekFinalId_returns_iff hids).mp fun name =>
        (hreturn name).tryLookupFinalId.of_map }
  · intro hacyclic name
    have hids := tryLookupId_returns_iff.mpr hacyclic.names
    have hid : Returns (symtab.lookupId · name) := (hids name).map _
    exact {
      tryLookupId := hids name
      lookupId := hid
      hasSymbol := hid.map _
      lookupVariable := hid.map _
      tryLookupVariable := (hids name).map _
      lookupUnit := (seekThing_returns_iff hids).mpr hacyclic.unit name
      lookupEnumVariant := (seekThing_returns_iff hids).mpr hacyclic.enumVariant name
      lookupPatternableType := (seekThing_returns_iff hids).mpr hacyclic.patternableType name
      lookupStruct := (seekThing_returns_iff hids).mpr hacyclic.struct name
      lookupComptimeConfig := (seekThing_returns_iff hids).mpr hacyclic.comptimeConfig name
      lookupTrait := (seekThing_returns_iff hids).mpr hacyclic.trait name
      lookupTypeSymbol :=
        (seekTypeSymbol_returns_iff h.registered hids).mpr hacyclic.typeSymbol name
      tryLookupFinalId := ((seekFinalId_returns_iff hids).mpr hacyclic.finalId name).map _ }

/-- `use a::b` in an empty table. -/
theorem lookups_return_iff_use :
    ∃ symtab : SymbolTable ⟨Unit, Unit, Unit, Unit, Unit, Unit⟩,
      new.addAlias ["b"] ["a", "b"] = some symtab ∧
      ((∀ name, symtab.LookupsReturn name) ↔ symtab.NoAliasCycle) := by
  obtain ⟨symtab, hadd⟩ : ∃ symtab : SymbolTable ⟨Unit, Unit, Unit, Unit, Unit, Unit⟩,
      new.addAlias ["b"] ["a", "b"] = some symtab := ⟨_, rfl⟩
  exact ⟨symtab, hadd, lookups_return_iff (.addAlias .new hadd)⟩

/-- `use a` in an empty table: the alias is its own target. -/
theorem lookup_of_own_target :
    ∃ symtab : SymbolTable ⟨Unit, Unit, Unit, Unit, Unit, Unit⟩,
      new.addAlias ["a"] ["a"] = some symtab ∧ symtab.Reachable ∧
      ¬ Returns (symtab.lookupUnit · ["a"]) := by
  obtain ⟨symtab, hadd⟩ : ∃ symtab : SymbolTable ⟨Unit, Unit, Unit, Unit, Unit, Unit⟩,
      new.addAlias ["a"] ["a"] = some symtab := ⟨_, rfl⟩
  refine ⟨symtab, hadd, .addAlias .new hadd, ?_⟩
  obtain rfl := Option.some.inj hadd
  rintro ⟨fuel, result, hresult⟩
  refine Option.some_ne_none _ (hresult.symm.trans (follow_diverges (.single ?_) fuel))
  exact .target ⟨1, rfl⟩ rfl

end Spade.Hir.SymbolTable

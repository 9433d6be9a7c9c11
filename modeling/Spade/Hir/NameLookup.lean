import Spade.Hir.SymbolTable
import Spade.Lib.LeftRecursion
import Mathlib.Data.Fintype.EquivFin

/-!
# Which lookups of ids return

A lookup of a path replaces the first name of the path by the target of its alias and looks up the
result, without a record of the paths that it has seen.

* **Lookups of ids** (`tryLookupId_returns_iff`): all of them return exactly when no name exposes
  itself, that is, comes to stand at the front of a path that it was replaced by.
* Paths that end in a name that is not in the table are never found (`Fresh.tryLookupId`), so their
  lookups go through all replacements (`Fresh.lookup_rewrites`).
-/

namespace Spade.Hir.SymbolTable

open Relation Spade.Lib.Redirect Spade.Lib.LeftRecursion

variable {H : HeadTypes} {symtab : SymbolTable H}

/-- The lookup returns after finitely many steps. -/
def Returns {α : Type} (lookup : ℕ → Option α) : Prop := ∃ fuel result, lookup fuel = some result

/-- The target and the namespace of an alias. -/
def aliasOf (symtab : SymbolTable H) (id : Option NameID) : Option (Path × Path) :=
  match id.bind symtab.thing with
  | some (.alias path inNamespace) => some (path, inNamespace)
  | _ => none

/-- The symbol that a name alone stands for. -/
def single (symtab : SymbolTable H) (name : String) : Option NameID :=
  (symtab.localId (symtab.ns ++ [name])).or (symtab.root.get [name])

/-- The words that take the place of a name at the front of a path: the target of its alias, as it
is written and with the namespace of the alias. -/
def Replaces (symtab : SymbolTable H) (name : String) (word : List String) : Prop :=
  name ≠ "lib" ∧ word ≠ [name] ∧ ∃ path inNamespace,
    symtab.aliasOf (symtab.single name) = some (path, inNamespace) ∧
      (word = inNamespace ++ path ∨ word = path)

theorem libRelative_cons {name : String} (h : name ≠ "lib") (rest : Path) :
    Path.libRelative (name :: rest) = none := by
  unfold Path.libRelative
  split
  · next heq => exact absurd (List.cons.inj heq).1 h
  · rfl

/-! ### Lookups of an id -/

/-- What is looked up for a path, once the first name of the path is known. -/
def expand (symtab : SymbolTable H) (lookup : Path → Option (Option NameID)) (head : String)
    (rest : Path) (aliasId : Option NameID) : Option (Option NameID) :=
  match symtab.aliasOf aliasId with
  | some (path, inNamespace) =>
    tryLookupExpanded lookup (head :: rest) (path ++ rest) (inNamespace ++ (path ++ rest))
  | none => some (symtab.root.get (head :: rest))

theorem tryLookupStep_expand {head : String} {rest : Path} (hhead : head ≠ "lib")
    (hrest : rest ≠ []) (hlocal : symtab.localId (symtab.ns ++ head :: rest) = none)
    (lookup : Path → Option (Option NameID)) :
    symtab.tryLookupStep lookup (head :: rest) =
      (lookup [head]).bind (symtab.expand lookup head rest) := by
  obtain ⟨restHead, restTail, rfl⟩ := List.exists_cons_of_ne_nil hrest
  unfold tryLookupStep
  rw [libRelative_cons hhead, hlocal]
  refine Option.bind_congr fun aliasId _ => ?_
  unfold expand aliasOf
  rcases aliasId.bind symtab.thing with _ | thing
  · rfl
  · cases thing <;> rfl

/-- A lookup is settled at once, or looks up the first name of its path. -/
theorem tryLookupStep_cases (symtab : SymbolTable H) (name : Path) :
    (∃ result, ∀ lookup, symtab.tryLookupStep lookup name = some result) ∨
      ∃ head rest, name = head :: rest ∧ head ≠ "lib" ∧
        ∀ lookup, symtab.tryLookupStep lookup name =
          (lookup [head]).bind (symtab.expand lookup head rest) := by
  rcases hlib : name.libRelative with _ | libRelative
  · rcases hlocal : symtab.localId (symtab.ns ++ name) with _ | id
    · rcases name with _ | ⟨head, _ | ⟨restHead, restTail⟩⟩
      · exact .inl ⟨_, fun lookup => by unfold tryLookupStep; rw [hlib, hlocal]⟩
      · exact .inl ⟨_, fun lookup => by unfold tryLookupStep; rw [hlib, hlocal]⟩
      · have hhead : head ≠ "lib" := by
          rintro rfl
          exact Option.some_ne_none _ hlib
        exact .inr ⟨head, _, rfl, hhead,
          tryLookupStep_expand hhead (List.cons_ne_nil _ _) hlocal⟩
    · exact .inl ⟨_, fun lookup => by unfold tryLookupStep; rw [hlib, hlocal]⟩
  · exact .inl ⟨_, fun lookup => by unfold tryLookupStep; rw [hlib]⟩

theorem tryLookupStep_single {name : String} (hname : name ≠ "lib")
    (lookup : Path → Option (Option NameID)) :
    symtab.tryLookupStep lookup [name] = some (symtab.single name) := by
  unfold tryLookupStep single
  rw [libRelative_cons hname]
  rcases symtab.localId (symtab.ns ++ [name]) with _ | id
  · rfl
  · rfl

theorem tryLookupExpanded_mono {lookup lookup' : Path → Option (Option NameID)}
    (h : ∀ name result, lookup name = some result → lookup' name = some result)
    {name full full' : Path} {result : Option NameID}
    (hstep : tryLookupExpanded lookup name full full' = some result) :
    tryLookupExpanded lookup' name full full' = some result := by
  unfold tryLookupExpanded at hstep ⊢
  split
  · next heq =>
    rw [if_pos heq] at hstep
    split
    · next heq' => rwa [if_pos heq'] at hstep
    · next hne' =>
      rw [if_neg hne'] at hstep
      exact h _ _ hstep
  · next hne =>
    rw [if_neg hne] at hstep
    split
    · next heq' =>
      rw [if_pos heq'] at hstep
      exact h _ _ hstep
    · next hne' =>
      rw [if_neg hne'] at hstep
      obtain ⟨id, hid, hrest⟩ := Option.bind_eq_some_iff.mp hstep
      rw [h _ _ hid, Option.bind_some]
      rcases id with _ | id
      · exact h _ _ hrest
      · exact hrest

theorem tryLookupStep_mono {lookup lookup' : Path → Option (Option NameID)}
    (h : ∀ name result, lookup name = some result → lookup' name = some result) {name : Path}
    {result : Option NameID} (hstep : symtab.tryLookupStep lookup name = some result) :
    symtab.tryLookupStep lookup' name = some result := by
  rcases symtab.tryLookupStep_cases name with ⟨r, hr⟩ | ⟨head, rest, -, -, heq⟩
  · rwa [hr] at hstep ⊢
  · rw [heq] at hstep ⊢
    obtain ⟨id, hid, hrest⟩ := Option.bind_eq_some_iff.mp hstep
    rw [h _ _ hid, Option.bind_some]
    unfold expand at hrest ⊢
    split
    · next halias =>
      rw [halias] at hrest
      exact tryLookupExpanded_mono h hrest
    · next halias =>
      rw [halias] at hrest
      exact hrest

/-- More fuel does not change the result. -/
theorem tryLookupId_mono {fuel fuel' : ℕ} (hle : fuel ≤ fuel') {name : Path}
    {result : Option NameID} (h : symtab.tryLookupId fuel name = some result) :
    symtab.tryLookupId fuel' name = some result := by
  induction fuel generalizing fuel' name result with
  | zero => exact absurd h (Option.some_ne_none _).symm
  | succ fuel ih =>
      obtain ⟨fuel', rfl⟩ : ∃ n, fuel' = n + 1 := ⟨fuel' - 1, by omega⟩
      exact tryLookupStep_mono (fun name result => ih (Nat.le_of_succ_le_succ hle)) h

/-! ### Replacing the first name -/

/-- The lookups for an alias return if those of the paths that it stands for do. -/
theorem tryLookupExpanded_returns {name full full' : Path}
    (hfull : full ≠ name → Returns (symtab.tryLookupId · full))
    (hfull' : full' ≠ name → Returns (symtab.tryLookupId · full')) :
    Returns fun fuel => tryLookupExpanded (symtab.tryLookupId fuel) name full full' := by
  unfold tryLookupExpanded
  split
  · split
    · exact ⟨0, none, rfl⟩
    · next hne => exact hfull hne
  · next hne' =>
    split
    · exact hfull' hne'
    · next hne =>
      obtain ⟨fuel', result', hresult'⟩ := hfull' hne'
      rcases result' with _ | id
      · obtain ⟨fuel, result, hresult⟩ := hfull hne
        refine ⟨max fuel fuel', result, ?_⟩
        simp only [tryLookupId_mono (Nat.le_max_right fuel fuel') hresult', Option.bind_some]
        exact tryLookupId_mono (Nat.le_max_left fuel fuel') hresult
      · refine ⟨fuel', some id, ?_⟩
        simp only [hresult', Option.bind_some]

theorem tryLookupId_returns_of_acc {name : Path}
    (h : Acc (fun b a => Rewrites symtab.Replaces a b) name) :
    Returns (symtab.tryLookupId · name) := by
  induction h with
  | intro name _ ih =>
      rcases symtab.tryLookupStep_cases name with ⟨r, hr⟩ | ⟨head, rest, rfl, hhead, heq⟩
      · exact ⟨1, r, hr _⟩
      · rcases halias : symtab.aliasOf (symtab.single head) with _ | ⟨path, inNamespace⟩
        · refine ⟨2, symtab.root.get (head :: rest), (heq _).trans ?_⟩
          rw [tryLookupId, tryLookupStep_single hhead, Option.bind_some, expand, halias]
        · have hnext : ∀ word, word = inNamespace ++ path ∨ word = path →
              word ++ rest ≠ head :: rest → Returns (symtab.tryLookupId · (word ++ rest)) := by
            intro word hword hne
            refine ih _ (.head rest ⟨hhead, ?_, path, inNamespace, halias, hword⟩)
            rintro rfl
            exact hne rfl
          have hfull' := hnext (inNamespace ++ path) (.inl rfl)
          rw [List.append_assoc] at hfull'
          obtain ⟨fuel, result, hresult⟩ :=
            tryLookupExpanded_returns (hnext path (.inr rfl)) hfull'
          refine ⟨fuel + 2, result, (heq _).trans ?_⟩
          rw [tryLookupId, tryLookupStep_single hhead, Option.bind_some, expand, halias]
          exact tryLookupExpanded_mono (fun _ _ => tryLookupId_mono (Nat.le_succ fuel)) hresult

/-! ### Names that are not in the table -/

/-- A name that is no part of the path of a symbol. -/
def Fresh (symtab : SymbolTable H) (name : String) : Prop :=
  name ≠ "lib" ∧ ∀ scope ∈ symtab.inner ++ [symtab.root], ∀ entry ∈ scope, name ∉ entry.1

variable {fresh : String}

theorem Scope.get_fresh {scope : Scope} (h : ∀ entry ∈ scope, fresh ∉ entry.1) {path : Path}
    (hpath : fresh ∈ path) : scope.get path = none := by
  apply List.lookup_eq_none_iff.mpr
  intro entry hentry
  rw [bne_iff_ne]
  rintro rfl
  exact h entry hentry hpath

theorem Fresh.localId (h : symtab.Fresh fresh) {path : Path} (hpath : fresh ∈ path) :
    symtab.localId path = none := by
  apply List.findSome?_eq_none_iff.mpr
  intro scope hscope
  exact Scope.get_fresh (h.2 scope hscope) hpath

theorem Fresh.root (h : symtab.Fresh fresh) {path : Path} (hpath : fresh ∈ path) :
    symtab.root.get path = none :=
  Scope.get_fresh (h.2 symtab.root (List.mem_append_right _ List.mem_cons_self)) hpath

theorem Fresh.single (h : symtab.Fresh fresh) : symtab.single fresh = none := by
  unfold SymbolTable.single
  rw [h.localId (List.mem_append_right _ List.mem_cons_self), h.root List.mem_cons_self]
  rfl

/-- A fresh name is not replaced. -/
theorem Fresh.mem_of_rewrites (h : symtab.Fresh fresh) {name next : Path}
    (hnext : Rewrites symtab.Replaces name next) (hname : fresh ∈ name) :
    ∃ head rest, name = head :: rest ∧ fresh ∈ rest ∧ fresh ∈ next := by
  cases hnext with
  | @head head word rest hrule =>
      obtain ⟨-, -, path, inNamespace, halias, -⟩ := hrule
      rcases List.mem_cons.mp hname with rfl | hrest
      · rw [h.single] at halias
        exact absurd halias (Option.some_ne_none _).symm
      · exact ⟨head, rest, rfl, hrest, List.mem_append_right _ hrest⟩

theorem exists_fresh (symtab : SymbolTable H) : ∃ fresh, symtab.Fresh fresh := by
  let names : List String := "lib" ::
    (symtab.inner ++ [symtab.root]).flatMap fun scope => scope.flatMap fun entry => entry.1
  obtain ⟨fresh, hfresh⟩ := Infinite.exists_notMem_finset names.toFinset
  rw [List.mem_toFinset, List.mem_cons, not_or] at hfresh
  refine ⟨fresh, hfresh.1, fun scope hscope entry hentry hmem => hfresh.2 ?_⟩
  exact List.mem_flatMap.mpr ⟨scope, hscope, List.mem_flatMap.mpr ⟨entry, hentry, hmem⟩⟩

theorem tryLookupId_single {fuel : ℕ} {name : String} (hname : name ≠ "lib")
    {result : Option NameID} (h : symtab.tryLookupId fuel [name] = some result) :
    result = symtab.single name := by
  rcases fuel with _ | fuel
  · exact absurd h (Option.some_ne_none _).symm
  · rw [SymbolTable.tryLookupId, tryLookupStep_single hname] at h
    exact (Option.some.inj h).symm

/-- What is looked up for a path with a fresh name. -/
theorem Fresh.step (h : symtab.Fresh fresh) {name : Path} (hname : fresh ∈ name)
    (lookup : Path → Option (Option NameID)) :
    symtab.tryLookupStep lookup name = some none ∨
      ∃ head rest, name = head :: rest ∧ head ≠ "lib" ∧
        symtab.tryLookupStep lookup name =
          (lookup [head]).bind (symtab.expand lookup head rest) := by
  rcases hlib : name.libRelative with _ | libRelative
  · rcases name with _ | ⟨head, _ | ⟨restHead, restTail⟩⟩
    · exact absurd hname List.not_mem_nil
    · left
      unfold tryLookupStep
      rw [hlib, h.localId (List.mem_append_right _ hname)]
      exact congrArg some (h.root hname)
    · have hhead : head ≠ "lib" := by
        rintro rfl
        exact Option.some_ne_none _ hlib
      exact .inr ⟨head, _, rfl, hhead, tryLookupStep_expand hhead (List.cons_ne_nil _ _)
        (h.localId (List.mem_append_right _ hname)) lookup⟩
  · left
    have hrest : fresh ∈ libRelative := by
      unfold Path.libRelative at hlib
      split at hlib
      · rw [Option.some.inj hlib] at hname
        exact (List.mem_cons.mp hname).resolve_left h.1
      · exact absurd hlib (Option.some_ne_none _).symm
    unfold tryLookupStep
    rw [hlib]
    exact congrArg some (h.root (List.mem_append_right _ hrest))

theorem tryLookupExpanded_eq_none {lookup : Path → Option (Option NameID)}
    {name full full' : Path} {result : Option NameID}
    (hfull : ∀ r, lookup full = some r → r = none)
    (hfull' : ∀ r, lookup full' = some r → r = none)
    (h : tryLookupExpanded lookup name full full' = some result) : result = none := by
  unfold tryLookupExpanded at h
  split at h
  · split at h
    · exact (Option.some.inj h).symm
    · exact hfull _ h
  · split at h
    · exact hfull' _ h
    · obtain ⟨id, hid, hrest⟩ := Option.bind_eq_some_iff.mp h
      rw [hfull' _ hid] at hrest
      exact hfull _ hrest

/-- If the first path that an alias stands for has no symbol, then both are looked up. -/
theorem tryLookupExpanded_calls {lookup : Path → Option (Option NameID)}
    {name full full' : Path} {result : Option NameID}
    (hfull' : ∀ r, lookup full' = some r → r = none)
    (h : tryLookupExpanded lookup name full full' = some result) :
    (full' ≠ name → ∃ r, lookup full' = some r) ∧ (full ≠ name → ∃ r, lookup full = some r) := by
  unfold tryLookupExpanded at h
  split at h
  · next heq' =>
    refine ⟨fun hne' => absurd heq' hne', fun hne => ?_⟩
    rw [if_neg hne] at h
    exact ⟨_, h⟩
  · split at h
    · next heq => exact ⟨fun _ => ⟨_, h⟩, fun hne => absurd heq hne⟩
    · obtain ⟨id, hid, hrest⟩ := Option.bind_eq_some_iff.mp h
      refine ⟨fun _ => ⟨_, hid⟩, fun _ => ?_⟩
      rw [hfull' _ hid] at hrest
      exact ⟨_, hrest⟩

/-- A path with a fresh name has no symbol. -/
theorem Fresh.tryLookupId (h : symtab.Fresh fresh) {fuel : ℕ} {name : Path}
    {result : Option NameID} (hname : fresh ∈ name)
    (hresult : symtab.tryLookupId fuel name = some result) : result = none := by
  induction fuel generalizing name result with
  | zero => exact absurd hresult (Option.some_ne_none _).symm
  | succ fuel ih =>
      rcases h.step hname (symtab.tryLookupId fuel) with hnone | ⟨head, rest, rfl, hhead, heq⟩
      · exact (Option.some.inj (hnone.symm.trans hresult)).symm
      · obtain ⟨id, hid, hrest⟩ := Option.bind_eq_some_iff.mp (heq.symm.trans hresult)
        rw [tryLookupId_single hhead hid] at hrest
        unfold expand at hrest
        split at hrest
        · next path inNamespace halias =>
          have hmem : fresh ∈ rest := by
            rcases List.mem_cons.mp hname with rfl | hmem
            · rw [h.single] at halias
              exact absurd halias (Option.some_ne_none _).symm
            · exact hmem
          exact tryLookupExpanded_eq_none (fun r => ih (List.mem_append_right _ hmem))
            (fun r => ih (List.mem_append_right _ (List.mem_append_right _ hmem))) hrest
        · rw [h.root hname] at hrest
          exact (Option.some.inj hrest).symm

/-- The lookup of a path with a fresh name looks up all paths that it can be replaced by. -/
theorem Fresh.lookup_rewrites (h : symtab.Fresh fresh) {fuel : ℕ} {name next : Path}
    {result : Option NameID} (hname : fresh ∈ name)
    (hresult : symtab.tryLookupId fuel name = some result)
    (hnext : Rewrites symtab.Replaces name next) :
    ∃ fuel' < fuel, ∃ result', symtab.tryLookupId fuel' next = some result' := by
  obtain ⟨-, -, -, hmem, -⟩ := h.mem_of_rewrites hnext hname
  rcases fuel with _ | fuel
  · exact absurd hresult (Option.some_ne_none _).symm
  refine ⟨fuel, Nat.lt_succ_self fuel, ?_⟩
  cases hnext with
  | @head head word rest hrule =>
      obtain ⟨hhead, hne, path, inNamespace, halias, hword⟩ := hrule
      have hmem : fresh ∈ rest := by
        rcases List.mem_cons.mp hname with rfl | hmem
        · rw [h.single] at halias
          exact absurd halias (Option.some_ne_none _).symm
        · exact hmem
      have hstep := tryLookupStep_expand hhead (List.ne_nil_of_mem hmem)
        (h.localId (List.mem_append_right _ hname)) (symtab.tryLookupId fuel)
      obtain ⟨id, hid, hrest⟩ := Option.bind_eq_some_iff.mp (hstep.symm.trans hresult)
      rw [tryLookupId_single hhead hid, expand, halias] at hrest
      have hcalls := tryLookupExpanded_calls
        (fun r => h.tryLookupId (List.mem_append_right _ (List.mem_append_right _ hmem))) hrest
      have hnext : word ++ rest ≠ head :: rest := fun heq =>
        hne (List.append_cancel_right (heq.trans (List.singleton_append).symm))
      rcases hword with rfl | rfl
      · rw [List.append_assoc] at hnext ⊢
        exact hcalls.1 hnext
      · exact hcalls.2 hnext

theorem Fresh.lookup_transGen (h : symtab.Fresh fresh) {fuel : ℕ} {name next : Path}
    {result : Option NameID} (hname : fresh ∈ name)
    (hresult : symtab.tryLookupId fuel name = some result)
    (hnext : TransGen (Rewrites symtab.Replaces) name next) :
    fresh ∈ next ∧ ∃ fuel' < fuel, ∃ result', symtab.tryLookupId fuel' next = some result' := by
  induction hnext with
  | single hnext =>
      obtain ⟨-, -, -, -, hmem⟩ := h.mem_of_rewrites hnext hname
      exact ⟨hmem, h.lookup_rewrites hname hresult hnext⟩
  | tail _ hnext ih =>
      obtain ⟨hmem, fuel', hlt, result', hresult'⟩ := ih
      obtain ⟨-, -, -, -, hmem'⟩ := h.mem_of_rewrites hnext hmem
      obtain ⟨fuel'', hlt', hresult''⟩ := h.lookup_rewrites hmem hresult' hnext
      exact ⟨hmem', fuel'', hlt'.trans hlt, hresult''⟩

/-- A path whose first name exposes itself is looked up forever. -/
theorem Fresh.lookup_diverges (h : symtab.Fresh fresh) {name : String}
    (hcycle : TransGen (Exposes symtab.Replaces) name name) (fuel : ℕ) :
    ∀ rest, fresh ∈ rest → symtab.tryLookupId fuel (name :: rest) = none := by
  induction fuel using Nat.strongRecOn with
  | ind fuel ih =>
      intro rest hrest
      by_contra hsome
      obtain ⟨result, hresult⟩ := Option.ne_none_iff_exists'.mp hsome
      obtain ⟨after, hafter⟩ := rewrites_of_transGen hcycle rest
      obtain ⟨-, fuel', hlt, result', hresult'⟩ :=
        h.lookup_transGen (List.mem_cons_of_mem _ hrest) hresult hafter
      have hnone := ih fuel' hlt (after ++ rest) (List.mem_append_right _ hrest)
      exact Option.some_ne_none _ (hresult'.symm.trans hnone)

/-! ### Which lookups of ids return -/

theorem things_of_aliasOf {id : Option NameID} {path inNamespace : Path}
    (h : symtab.aliasOf id = some (path, inNamespace)) :
    ∃ key, (key, Thing.alias path inNamespace) ∈ symtab.things := by
  unfold aliasOf at h
  split at h
  · next halias =>
    obtain ⟨rfl, rfl⟩ := Prod.mk.inj (Option.some.inj h)
    obtain ⟨id', -, hthing⟩ := Option.bind_eq_some_iff.mp halias
    obtain ⟨before, after, hthings, -⟩ := List.lookup_eq_some_iff.mp hthing
    exact ⟨id'.id, by rw [hthings]; exact List.mem_append_right _ List.mem_cons_self⟩
  · exact absurd h (Option.some_ne_none _).symm

/-- The names in the targets of an alias. -/
def Thing.aliasNames : Thing H → List String
  | .alias path inNamespace => inNamespace ++ path
  | _ => []

/-- **Lookups of ids.** All of them return exactly when no name exposes itself. -/
theorem tryLookupId_returns_iff :
    (∀ name, Returns (symtab.tryLookupId · name)) ↔
      ∀ name, ¬ TransGen (Exposes symtab.Replaces) name name := by
  constructor
  · intro hreturns name hcycle
    obtain ⟨fresh, hfresh⟩ := exists_fresh symtab
    obtain ⟨fuel, result, hresult⟩ := hreturns [name, fresh]
    have hnone := hfresh.lookup_diverges hcycle fuel [fresh] List.mem_cons_self
    exact Option.some_ne_none _ (hresult.symm.trans hnone)
  · intro hacyclic name
    let names : List String := symtab.things.flatMap fun entry => Thing.aliasNames entry.2
    have hnames : ∀ head word, symtab.Replaces head word → ∀ y ∈ word, y ∈ names := by
      rintro head word ⟨-, -, path, inNamespace, halias, hword⟩ y hy
      obtain ⟨key, hkey⟩ := things_of_aliasOf halias
      refine List.mem_flatMap.mpr ⟨_, hkey, ?_⟩
      rcases hword with rfl | rfl
      · exact hy
      · exact List.mem_append_right _ hy
    exact tryLookupId_returns_of_acc
      ((terminates_of_acyclic_exposes hnames hacyclic).apply name)

end Spade.Hir.SymbolTable

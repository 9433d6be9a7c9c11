import Spade.Hir.AliasChains

/-!
# Hygiene of use declarations

What a `use` stands for, apart from the place of the lookup, and when the lookups from a namespace
come to it.

* **Absolute meaning** (`SymbolTable.UseItem`): the item behind the target of a use, as it is
  written or in the namespace of the use, when no symbol of a looking namespace stands in the way.
* **Hygiene** (`lookups_hygienic`): all lookups through an alias, from all namespaces whose symbols
  do not stand in the way, give this item.
-/

namespace Spade.Hir.SymbolTable

open Relation

variable {H : HeadTypes} {symtab : SymbolTable H} {E R : Type} {seek : Seek H E R}

/-- The same symbols, seen from another namespace and another library. -/
def within (symtab : SymbolTable H) (ns baseNamespace : Path) : SymbolTable H :=
  { symtab with ns := ns, baseNamespace := baseNamespace }

/-! ### Meaning of a use -/

/-- The absolute path names the symbol, or it starts with an alias of the root namespace and the
path that takes its place names the symbol. -/
inductive Denotes (symtab : SymbolTable H) : Path → NameID → Prop
  | root {name : Path} {id : NameID} :
      (∀ head rest, name = head :: rest → rest ≠ [] →
        symtab.aliasOf (symtab.root.get [head]) = none) →
      symtab.root.get name = some id → Denotes symtab name id
  | target {head : String} {rest path inNamespace : Path} {id : NameID} :
      rest ≠ [] → symtab.aliasOf (symtab.root.get [head]) = some (path, inNamespace) →
      Denotes symtab (path ++ rest) id → Denotes symtab (head :: rest) id
  | inNamespace {head : String} {rest path inNamespace : Path} {id : NameID} :
      rest ≠ [] → symtab.aliasOf (symtab.root.get [head]) = some (path, inNamespace) →
      Denotes symtab (inNamespace ++ (path ++ rest)) id → Denotes symtab (head :: rest) id

/-- The target of a use names the symbol, as it is written or in the namespace of the use. -/
def UseDenotes (symtab : SymbolTable H) (path inNamespace : Path) (id : NameID) : Prop :=
  symtab.Denotes path id ∨ symtab.Denotes (inNamespace ++ path) id

/-- The item that a use leads to. -/
inductive UseItem (symtab : SymbolTable H) : Path → Path → NameID → Prop
  | here {path inNamespace : Path} {id : NameID} :
      symtab.UseDenotes path inNamespace id → symtab.aliasOf (some id) = none →
      UseItem symtab path inNamespace id
  | through {path inNamespace path' inNamespace' : Path} {id item : NameID} :
      symtab.UseDenotes path inNamespace id →
      symtab.aliasOf (some id) = some (path', inNamespace') →
      UseItem symtab path' inNamespace' item → UseItem symtab path inNamespace item

/-! ### Namespaces that do not stand in the way -/

/-- A use whose target starts with an alias, or names one, leads to further uses. -/
inductive Leads (symtab : SymbolTable H) : Path × Path → Path × Path → Prop
  | first {path inNamespace path' inNamespace' rest : Path} {head : String} :
      (head :: rest = path ∨ head :: rest = inNamespace ++ path) → rest ≠ [] →
      symtab.aliasOf (symtab.root.get [head]) = some (path', inNamespace') →
      Leads symtab (path, inNamespace) (path' ++ rest, inNamespace')
  | item {path inNamespace path' inNamespace' : Path} {id : NameID} :
      symtab.UseDenotes path inNamespace id →
      symtab.aliasOf (some id) = some (path', inNamespace') →
      Leads symtab (path, inNamespace) (path', inNamespace')

/-- The target of a use has one meaning, which the symbols of the namespace `ns` do not change. -/
structure Clear (symtab : SymbolTable H) (ns path inNamespace : Path) : Prop where
  noLib : ∀ name, name = path ∨ name = inNamespace ++ path → name.libRelative = none
  /-- The target as it is written and in the namespace of the use do not name two symbols. -/
  single : ∀ id id', symtab.UseDenotes path inNamespace id →
    symtab.UseDenotes path inNamespace id' → id = id'
  /-- A symbol of the looking namespace with the path of the target is the symbol that is meant. -/
  captured : ∀ name, name = path ∨ name = inNamespace ++ path → ∀ id,
    symtab.localId (ns ++ name) = some id → symtab.UseDenotes path inNamespace id
  /-- A symbol of the looking namespace with the first name of the target does not take part. -/
  heads : ∀ head rest, head :: rest = path ∨ head :: rest = inNamespace ++ path → rest ≠ [] →
    ∀ id, symtab.localId (ns ++ [head]) = some id →
      symtab.aliasOf (some id) = symtab.aliasOf (symtab.root.get [head])

/-- The namespace does not stand in the way of any use that the use leads to. -/
def Hygienic (symtab : SymbolTable H) (ns path inNamespace : Path) : Prop :=
  ∀ use, ReflTransGen symtab.Leads (path, inNamespace) use → symtab.Clear ns use.1 use.2

theorem Hygienic.clear {ns path inNamespace : Path} (h : symtab.Hygienic ns path inNamespace) :
    symtab.Clear ns path inNamespace :=
  h _ .refl

theorem Hygienic.leads {ns path inNamespace path' inNamespace' : Path}
    (h : symtab.Hygienic ns path inNamespace)
    (hleads : symtab.Leads (path, inNamespace) (path', inNamespace')) :
    symtab.Hygienic ns path' inNamespace' :=
  fun use huse => h use (.head hleads huse)

/-! ### Lookups of ids -/

variable {ns base path inNamespace : Path} {name : Path}

theorem Clear.aliasOf_single {head : String} {rest : Path}
    (h : symtab.Clear ns path inNamespace)
    (hname : head :: rest = path ∨ head :: rest = inNamespace ++ path) (hrest : rest ≠ []) :
    symtab.aliasOf ((symtab.within ns base).single head) =
      symtab.aliasOf (symtab.root.get [head]) := by
  unfold SymbolTable.single
  cases hlocal : (symtab.within ns base).localId ((symtab.within ns base).ns ++ [head]) with
  | none => rfl
  | some id => exact h.heads head rest hname hrest id hlocal

/-- A lookup that no symbol of the namespace answers. -/
theorem tryLookupStep_of_local_none (hlib : name.libRelative = none)
    (hlocal : symtab.localId (symtab.ns ++ name) = none)
    (lookup : Path → Option (Option NameID)) :
    (∀ head rest, name = head :: rest → rest = []) ∧
        symtab.tryLookupStep lookup name = some (symtab.root.get name) ∨
      ∃ head rest, name = head :: rest ∧ head ≠ "lib" ∧ rest ≠ [] ∧
        symtab.tryLookupStep lookup name =
          (lookup [head]).bind (symtab.expand lookup head rest) := by
  rcases name with _ | ⟨head, _ | ⟨second, rest⟩⟩
  · refine .inl ⟨fun head rest h => absurd h.symm (List.cons_ne_nil head rest), ?_⟩
    unfold tryLookupStep
    rw [hlib, hlocal]
  · refine .inl ⟨fun _ _ h => (List.cons.inj h).2.symm, ?_⟩
    unfold tryLookupStep
    rw [hlib, hlocal]
  · have hhead : head ≠ "lib" := by
      rintro rfl
      exact Option.some_ne_none _ hlib
    exact .inr ⟨head, _, rfl, hhead, List.cons_ne_nil _ _,
      tryLookupStep_expand hhead (List.cons_ne_nil _ _) hlocal lookup⟩

theorem tryLookupStep_of_local {id : NameID} (hlib : name.libRelative = none)
    (hlocal : symtab.localId (symtab.ns ++ name) = some id)
    (lookup : Path → Option (Option NameID)) :
    symtab.tryLookupStep lookup name = some (some id) := by
  unfold tryLookupStep
  rw [hlib, hlocal]

theorem tryLookupExpanded_eq_some {lookup : Path → Option (Option NameID)} {full full' : Path}
    {id : NameID} (h : tryLookupExpanded lookup name full full' = some (some id)) :
    lookup full = some (some id) ∨ lookup full' = some (some id) := by
  unfold tryLookupExpanded at h
  split at h
  · split at h
    · exact nomatch h
    · exact .inl h
  · split at h
    · exact .inr h
    · obtain ⟨result, hresult, hrest⟩ := Option.bind_eq_some_iff.mp h
      cases result with
      | none => exact .inl hrest
      | some id' => exact .inr (hresult.trans hrest)

theorem expand_eq_some {lookup : Path → Option (Option NameID)} {head : String} {rest : Path}
    {aliasId : Option NameID} {id : NameID}
    (h : symtab.expand lookup head rest aliasId = some (some id)) :
    (symtab.aliasOf aliasId = none ∧ symtab.root.get (head :: rest) = some id) ∨
      ∃ path inNamespace, symtab.aliasOf aliasId = some (path, inNamespace) ∧
        (lookup (path ++ rest) = some (some id) ∨
          lookup (inNamespace ++ (path ++ rest)) = some (some id)) := by
  unfold expand at h
  split at h
  · next path inNamespace halias =>
    exact .inr ⟨path, inNamespace, halias, tryLookupExpanded_eq_some h⟩
  · next halias => exact .inl ⟨halias, Option.some.inj h⟩

/-- A lookup of the target of a use finds a symbol that the use means. -/
theorem Hygienic.denotes (h : symtab.Hygienic ns path inNamespace)
    (hname : name = path ∨ name = inNamespace ++ path) {fuel : ℕ} {id : NameID}
    (hid : (symtab.within ns base).tryLookupId fuel name = some (some id)) :
    symtab.UseDenotes path inNamespace id := by
  induction fuel generalizing path inNamespace name id with
  | zero => exact absurd hid (Option.some_ne_none _).symm
  | succ fuel ih =>
      have hlib := h.clear.noLib name hname
      have hdenotes : symtab.Denotes name id → symtab.UseDenotes path inNamespace id := by
        rcases hname with rfl | rfl
        · exact .inl
        · exact .inr
      cases hlocal : (symtab.within ns base).localId (ns ++ name) with
      | some id' =>
          have hstep := (tryLookupStep_of_local hlib hlocal _).symm.trans hid
          obtain rfl := Option.some.inj (Option.some.inj hstep)
          exact h.clear.captured name hname _ hlocal
      | none =>
          rcases tryLookupStep_of_local_none hlib hlocal _ with
            ⟨hshort, hstep⟩ | ⟨head, rest, rfl, hhead, hrest, hstep⟩
          · refine hdenotes (.root ?_ (Option.some.inj (hstep.symm.trans hid)))
            exact fun head rest heq hne => absurd (hshort head rest heq) hne
          · obtain ⟨first, hfirst, hexpand⟩ := Option.bind_eq_some_iff.mp (hstep.symm.trans hid)
            rw [tryLookupId_single hhead hfirst] at hexpand
            have hsingle : (symtab.within ns base).aliasOf
                ((symtab.within ns base).single head) = _ := h.clear.aliasOf_single hname hrest
            rcases expand_eq_some hexpand with
              ⟨halias, hroot⟩ | ⟨path', inNamespace', halias, hlookup⟩
            · refine hdenotes (.root ?_ hroot)
              rintro head' rest' ⟨rfl, rfl⟩ -
              exact hsingle.symm.trans halias
            · have hroot := hsingle.symm.trans halias
              have huse : symtab.UseDenotes (path' ++ rest) inNamespace' id := by
                have hnext := h.leads (.first hname hrest hroot)
                rcases hlookup with hlookup | hlookup
                · exact ih hnext (.inl rfl) hlookup
                · exact ih hnext (.inr rfl) hlookup
              rcases huse with huse | huse
              · exact hdenotes (.target hrest hroot huse)
              · exact hdenotes (.inNamespace hrest hroot huse)

theorem tryLookupExpanded_not_found {lookup : Path → Option (Option NameID)} {full full' : Path}
    (h : tryLookupExpanded lookup name full full' = some none) :
    (full ≠ name → lookup full = some none) ∧ (full' ≠ name → lookup full' = some none) := by
  unfold tryLookupExpanded at h
  split at h
  · next heq' =>
    refine ⟨fun hne => ?_, fun hne' => absurd heq' hne'⟩
    rwa [if_neg hne] at h
  · split at h
    · next heq => exact ⟨fun hne => absurd heq hne, fun _ => h⟩
    · obtain ⟨result, hresult, hrest⟩ := Option.bind_eq_some_iff.mp h
      cases result with
      | none => exact ⟨fun _ => hrest, fun _ => hresult⟩
      | some id => exact nomatch hrest

/-- A path without a symbol that starts with an alias: nothing is found for the paths that take its
place. -/
theorem Hygienic.not_found {head : String} {rest path' inNamespace' : Path}
    (h : symtab.Hygienic ns path inNamespace)
    (hname : head :: rest = path ∨ head :: rest = inNamespace ++ path) (hrest : rest ≠ [])
    (halias : symtab.aliasOf (symtab.root.get [head]) = some (path', inNamespace')) {fuel : ℕ}
    (hresult : (symtab.within ns base).tryLookupId (fuel + 1) (head :: rest) = some none) :
    (path' ++ rest ≠ head :: rest →
        (symtab.within ns base).tryLookupId fuel (path' ++ rest) = some none) ∧
      (inNamespace' ++ (path' ++ rest) ≠ head :: rest →
        (symtab.within ns base).tryLookupId fuel (inNamespace' ++ (path' ++ rest)) =
          some none) := by
  have hlib := h.clear.noLib _ hname
  cases hlocal : (symtab.within ns base).localId (ns ++ head :: rest) with
  | some id => exact nomatch (tryLookupStep_of_local hlib hlocal _).symm.trans hresult
  | none =>
      rcases tryLookupStep_of_local_none hlib hlocal _ with
        ⟨hshort, -⟩ | ⟨head', rest', ⟨rfl, rfl⟩, hhead, -, hstep⟩
      · exact absurd (hshort head rest rfl) hrest
      · obtain ⟨first, hfirst, hexpand⟩ := Option.bind_eq_some_iff.mp (hstep.symm.trans hresult)
        rw [tryLookupId_single hhead hfirst] at hexpand
        have hsingle : (symtab.within ns base).aliasOf ((symtab.within ns base).single head) =
            some (path', inNamespace') := (h.clear.aliasOf_single hname hrest).trans halias
        unfold expand at hexpand
        rw [hsingle] at hexpand
        exact tryLookupExpanded_not_found hexpand

/-- A lookup that returns finds a symbol for a path that names one. -/
theorem Hygienic.finds {id : NameID} (hdenotes : symtab.Denotes name id)
    (h : symtab.Hygienic ns path inNamespace)
    (hname : name = path ∨ name = inNamespace ++ path) (fuel : ℕ) :
    (symtab.within ns base).tryLookupId fuel name ≠ some none := by
  intro hresult
  rcases fuel with _ | fuel
  · exact nomatch hresult
  induction hdenotes generalizing path inNamespace fuel with
  | @root name id hfirst hroot =>
      have hlib := h.clear.noLib name hname
      cases hlocal : (symtab.within ns base).localId (ns ++ name) with
      | some id => exact nomatch (tryLookupStep_of_local hlib hlocal _).symm.trans hresult
      | none =>
          rcases tryLookupStep_of_local_none hlib hlocal _ with
            ⟨-, hstep⟩ | ⟨head, rest, rfl, hhead, hrest, hstep⟩
          · exact nomatch (Option.some.inj (hstep.symm.trans hresult)).symm.trans hroot
          · obtain ⟨first, hfound, hexpand⟩ :=
              Option.bind_eq_some_iff.mp (hstep.symm.trans hresult)
            rw [tryLookupId_single hhead hfound] at hexpand
            have hsingle : (symtab.within ns base).aliasOf
                ((symtab.within ns base).single head) = none :=
              (h.clear.aliasOf_single hname hrest).trans (hfirst head rest rfl hrest)
            unfold expand at hexpand
            rw [hsingle] at hexpand
            exact nomatch (Option.some.inj hexpand).symm.trans hroot
  | @target head rest path' inNamespace' id hrest halias _ ih =>
      have hnext := h.leads (.first hname hrest halias)
      by_cases hsame : path' ++ rest = head :: rest
      · exact ih hnext (.inl rfl) fuel (by rwa [hsame])
      · have hnone := (h.not_found hname hrest halias hresult).1 hsame
        rcases fuel with _ | fuel
        · exact nomatch hnone
        · exact ih hnext (.inl rfl) fuel hnone
  | @inNamespace head rest path' inNamespace' id hrest halias _ ih =>
      have hnext := h.leads (.first hname hrest halias)
      by_cases hsame : inNamespace' ++ (path' ++ rest) = head :: rest
      · exact ih hnext (.inr rfl) fuel (by rwa [hsame])
      · have hnone := (h.not_found hname hrest halias hresult).2 hsame
        rcases fuel with _ | fuel
        · exact nomatch hnone
        · exact ih hnext (.inr rfl) fuel hnone

/-- If all lookups of ids return, a path that names a symbol of the use resolves to the symbol. -/
theorem Hygienic.resolves {id : NameID} (h : symtab.Hygienic ns path inNamespace)
    (hids : ∀ name, Returns ((symtab.within ns base).tryLookupId · name))
    (hname : name = path ∨ name = inNamespace ++ path) (hdenotes : symtab.Denotes name id) :
    (symtab.within ns base).Resolves name id := by
  obtain ⟨fuel, result, hresult⟩ := hids name
  cases result with
  | none => exact absurd hresult (h.finds hdenotes hname fuel)
  | some id' =>
      have huse : symtab.UseDenotes path inNamespace id := by
        rcases hname with rfl | rfl
        · exact .inl hdenotes
        · exact .inr hdenotes
      rw [h.clear.single id id' huse (h.denotes hname hresult)]
      exact ⟨fuel, hresult⟩

/-! ### Lookups of items -/

/-- A lookup that follows all aliases and accepts an item whatever the path to it is. -/
structure Seek.Plain (seek : Seek H E R) (symtab : SymbolTable H) : Prop where
  alias_iff : ∀ name id path inNamespace, seek.verdict symtab name id = .alias path inNamespace ↔
    symtab.aliasOf (some id) = some (path, inNamespace)
  accepts : ∀ name name' id found, seek.verdict symtab name id = .done (.ok found) →
    seek.verdict symtab name' id = .done (.ok found)

/-- What the lookup makes of an item. -/
def accepted (symtab : SymbolTable H) (seek : Seek H E R) (id : NameID) : Option R :=
  match seek.verdict symtab [] id with
  | .done (.ok found) => some found
  | _ => none

theorem accepted_eq_some {id : NameID} {found : R} :
    symtab.accepted seek id = some found ↔ seek.verdict symtab [] id = .done (.ok found) := by
  unfold accepted
  split
  · next h => rw [h]; simp
  · next h => exact iff_of_false nofun fun heq => h found heq

theorem UseItem.unique {item item' : NameID} (h : symtab.UseItem path inNamespace item)
    (hclear : symtab.Hygienic ns path inNamespace)
    (h' : symtab.UseItem path inNamespace item') : item = item' := by
  induction h with
  | here huse hnone =>
      cases h' with
      | here huse' hnone' => exact hclear.clear.single _ _ huse huse'
      | through huse' halias' _ =>
          rw [hclear.clear.single _ _ huse huse', halias'] at hnone
          exact nomatch hnone
  | through huse halias _ ih =>
      cases h' with
      | here huse' hnone' =>
          rw [hclear.clear.single _ _ huse huse', hnone'] at halias
          exact nomatch halias
      | through huse' halias' hitem' =>
          rw [hclear.clear.single _ _ huse huse', halias'] at halias
          obtain ⟨rfl, rfl⟩ := Prod.mk.inj (Option.some.inj halias)
          exact ih (hclear.leads (.item huse' halias')) hitem'

/-- A lookup of a path that stands for a use finds the item of the use. -/
theorem Hygienic.follow (hseek : seek.Plain (symtab.within ns base))
    (h : symtab.Hygienic ns path inNamespace)
    (hname : ∀ id, (symtab.within ns base).Resolves name id →
      symtab.UseDenotes path inNamespace id) {fuel : ℕ} {found : R}
    (hfollow : (symtab.within ns base).follow seek fuel name = some (.ok found)) :
    ∃ item, symtab.UseItem path inNamespace item ∧
      (symtab.within ns base).accepted seek item = some found := by
  induction fuel generalizing path inNamespace name found with
  | zero => exact nomatch hfollow
  | succ fuel ih =>
      rcases follow_cases hfollow with ⟨-, herror⟩ | ⟨id, hid, hdone | halias⟩
      · exact nomatch herror
      · refine ⟨id, .here (hname id ⟨fuel, hid⟩) ?_, ?_⟩
        · by_contra hsome
          obtain ⟨⟨path', inNamespace'⟩, halias⟩ := Option.ne_none_iff_exists'.mp hsome
          exact nomatch hdone.symm.trans ((hseek.alias_iff name id _ _).mpr halias)
        · exact accepted_eq_some.mpr (hseek.accepts _ _ _ _ hdone)
      · obtain ⟨path', inNamespace', first, hverdict, hfirst, hresult⟩ := halias
        have huse := hname id ⟨fuel, hid⟩
        have halias := (hseek.alias_iff name id _ _).mp hverdict
        have hnext := h.leads (.item huse halias)
        rcases hresult with ⟨found', rfl, hsame⟩ | ⟨error, second, rfl, hsecond, hresult⟩
        · obtain rfl := Except.ok.inj hsame
          obtain ⟨item, hitem, haccepted⟩ :=
            ih hnext (fun _ ⟨_, hid⟩ => hnext.denotes (.inl rfl) hid) hfirst
          exact ⟨item, .through huse halias hitem, haccepted⟩
        · cases second with
          | error error' => exact nomatch hresult
          | ok found' =>
              obtain rfl := Except.ok.inj hresult
              obtain ⟨item, hitem, haccepted⟩ :=
                ih hnext (fun _ ⟨_, hid⟩ => hnext.denotes (.inr rfl) hid) hsecond
              exact ⟨item, .through huse halias hitem, haccepted⟩

/-- The item of a use is found behind its target. -/
theorem UseItem.finds {item : NameID} {found : R} (hitem : symtab.UseItem path inNamespace item)
    (hseek : seek.Plain (symtab.within ns base)) (h : symtab.Hygienic ns path inNamespace)
    (hids : ∀ name, Returns ((symtab.within ns base).tryLookupId · name))
    (haccepted : (symtab.within ns base).accepted seek item = some found) :
    (symtab.within ns base).Finds seek path ∨
      (symtab.within ns base).Finds seek (inNamespace ++ path) := by
  induction hitem with
  | here huse _ =>
      have haccepts := fun name => hseek.accepts _ name _ _ (accepted_eq_some.mp haccepted)
      rcases huse with huse | huse
      · exact .inl (.here (h.resolves hids (.inl rfl) huse) (haccepts _))
      · exact .inr (.here (h.resolves hids (.inr rfl) huse) (haccepts _))
  | @through path inNamespace path' inNamespace' id item huse halias _ ih =>
      have hverdict := fun name => (hseek.alias_iff name _ _ _).mpr halias
      have hnext := ih (h.leads (.item huse halias)) haccepted
      have hfinds : ∀ {name}, (symtab.within ns base).Resolves name id →
          (symtab.within ns base).Finds seek name := by
        intro name hid
        rcases hnext with hnext | hnext
        · exact .target hid (hverdict _) hnext
        · exact .fallback hid (hverdict _) hnext
      rcases huse with huse | huse
      · exact .inl (hfinds (h.resolves hids (.inl rfl) huse))
      · exact .inr (hfinds (h.resolves hids (.inr rfl) huse))

/-! ### Lookups through an alias -/

/-- The lookup returns, and gives what is expected or fails. -/
def Gives (lookup : ℕ → Option (Except E R)) (expected : Option R) : Prop :=
  ∃ fuel result, lookup fuel = some result ∧ result.toOption = expected

theorem gives_of_item {item : Option NameID} {P : NameID → Prop} (hP : ∀ j, P j ↔ item = some j)
    (hreturns : Returns (symtab.follow seek · name))
    (hsound : ∀ fuel found, symtab.follow seek fuel name = some (.ok found) →
      ∃ j, P j ∧ symtab.accepted seek j = some found)
    (hcomplete : ∀ j found, P j → symtab.accepted seek j = some found → symtab.Finds seek name) :
    Gives (symtab.follow seek · name) (item.bind (symtab.accepted seek)) := by
  obtain ⟨fuel, result, hresult⟩ := hreturns
  refine ⟨fuel, result, hresult, ?_⟩
  cases result with
  | error error =>
      cases hbind : item.bind (symtab.accepted seek) with
      | none => rfl
      | some found =>
          obtain ⟨j, hj, haccepted⟩ := Option.bind_eq_some_iff.mp hbind
          obtain ⟨found', hfound'⟩ :=
            follow_of_finds (hcomplete j found ((hP j).mpr hj) haccepted) hresult
          exact nomatch hfound'
  | ok found =>
      obtain ⟨j, hj, haccepted⟩ := hsound fuel found hresult
      rw [(hP j).mp hj, Option.bind_some, haccepted]
      rfl

/-- The path starts with an alias for the target, and no symbol of the looking namespace has the
whole path. -/
def Through (symtab : SymbolTable H) (ns base name path inNamespace rest : Path) : Prop :=
  ∃ front id, name = front ++ rest ∧ (symtab.within ns base).Resolves front id ∧
    symtab.aliasOf (some id) = some (path, inNamespace) ∧
    (rest ≠ [] → (∃ head, front = [head]) ∧ name.libRelative = none ∧
      symtab.localId (ns ++ name) = none)

variable {rest : Path}

/-- A longer path that starts with an alias resolves to what the target with the rest names. -/
theorem Hygienic.resolves_rest {head : String} {id : NameID}
    (h : symtab.Hygienic ns (path ++ rest) inNamespace)
    (hids : ∀ name, Returns ((symtab.within ns base).tryLookupId · name)) (hrest : rest ≠ [])
    (halias : (symtab.within ns base).aliasOf ((symtab.within ns base).single head) =
      some (path, inNamespace))
    (hlib : Path.libRelative (head :: rest) = none)
    (hlocal : symtab.localId (ns ++ head :: rest) = none) :
    (symtab.within ns base).Resolves (head :: rest) id ↔
      symtab.UseDenotes (path ++ rest) inNamespace id := by
  have hhead : head ≠ "lib" := by
    rintro rfl
    exact nomatch hlib
  have hexpand : ∀ {fuel result},
      (symtab.within ns base).tryLookupId (fuel + 1) (head :: rest) = some result →
      tryLookupExpanded ((symtab.within ns base).tryLookupId fuel) (head :: rest) (path ++ rest)
        (inNamespace ++ (path ++ rest)) = some result := by
    intro fuel result hresult
    have hstep : (symtab.within ns base).tryLookupStep _ (head :: rest) = _ :=
      tryLookupStep_expand hhead hrest hlocal ((symtab.within ns base).tryLookupId fuel)
    obtain ⟨first, hfirst, hnext⟩ := Option.bind_eq_some_iff.mp (hstep.symm.trans hresult)
    rw [tryLookupId_single hhead hfirst] at hnext
    unfold expand at hnext
    rwa [halias] at hnext
  constructor
  · rintro ⟨fuel, hid⟩
    rcases fuel with _ | fuel
    · exact nomatch hid
    rcases tryLookupExpanded_eq_some (hexpand hid) with hfull | hfull
    · exact h.denotes (.inl rfl) hfull
    · exact h.denotes (.inr rfl) hfull
  · intro huse
    obtain ⟨fuel, result, hresult⟩ := hids (head :: rest)
    rcases fuel with _ | fuel
    · exact nomatch hresult
    cases result with
    | some id' =>
        have hid' : symtab.UseDenotes (path ++ rest) inNamespace id' := by
          rcases tryLookupExpanded_eq_some (hexpand hresult) with hfull | hfull
          · exact h.denotes (.inl rfl) hfull
          · exact h.denotes (.inr rfl) hfull
        rw [h.clear.single id id' huse hid']
        exact ⟨_, hresult⟩
    | none =>
        obtain ⟨hfull, hfull'⟩ := tryLookupExpanded_not_found (hexpand hresult)
        rcases huse with huse | huse
        · by_cases hsame : path ++ rest = head :: rest
          · exact absurd (hsame ▸ hresult) (h.finds huse (.inl rfl) _)
          · exact absurd (hfull hsame) (h.finds huse (.inl rfl) _)
        · by_cases hsame : inNamespace ++ (path ++ rest) = head :: rest
          · exact absurd (hsame ▸ hresult) (h.finds huse (.inr rfl) _)
          · exact absurd (hfull' hsame) (h.finds huse (.inr rfl) _)

/-- Through an alias, every lookup gives what it makes of the item of the use. -/
theorem Hygienic.gives {item : Option NameID} (hseek : seek.Plain (symtab.within ns base))
    (h : symtab.Hygienic ns (path ++ rest) inNamespace)
    (hitem : ∀ j, symtab.UseItem (path ++ rest) inNamespace j ↔ item = some j)
    (hids : ∀ name, Returns ((symtab.within ns base).tryLookupId · name))
    (hreturns : Returns ((symtab.within ns base).follow seek · name))
    (hname : symtab.Through ns base name path inNamespace rest) :
    Gives ((symtab.within ns base).follow seek · name)
      (item.bind ((symtab.within ns base).accepted seek)) := by
  obtain ⟨front, id, rfl, hid, halias, hfront⟩ := hname
  by_cases hrest : rest = []
  · subst hrest
    rw [List.append_nil] at h hitem hreturns ⊢
    have hverdict := fun name => (hseek.alias_iff name id _ _).mpr halias
    refine gives_of_item hitem hreturns (fun fuel found hfound => ?_) fun j found hj haccepted => ?_
    · obtain ⟨fuel', first, -, hfirst, hresult⟩ := hid.follow_alias (hverdict _) hfound
      rcases hresult with ⟨found', rfl, hsame⟩ | ⟨error, second, rfl, hsecond, hresult⟩
      · obtain rfl := Except.ok.inj hsame
        exact h.follow hseek (fun _ ⟨_, hid⟩ => h.denotes (.inl rfl) hid) hfirst
      · cases second with
        | error error' => exact nomatch hresult
        | ok found' =>
            obtain rfl := Except.ok.inj hresult
            exact h.follow hseek (fun _ ⟨_, hid⟩ => h.denotes (.inr rfl) hid) hsecond
    · rcases hj.finds hseek h hids haccepted with hfinds | hfinds
      · exact .target hid (hverdict _) hfinds
      · exact .fallback hid (hverdict _) hfinds
  · obtain ⟨⟨head, rfl⟩, hlib, hlocal⟩ := hfront hrest
    have hhead : head ≠ "lib" := by
      rintro rfl
      exact nomatch hlib
    obtain ⟨fuel, hfuel⟩ := hid
    have hsingle : (symtab.within ns base).aliasOf ((symtab.within ns base).single head) =
        some (path, inNamespace) := by
      rw [← tryLookupId_single hhead hfuel]
      exact halias
    have hresolves : ∀ id, (symtab.within ns base).Resolves (head :: rest) id ↔
        symtab.UseDenotes (path ++ rest) inNamespace id := fun id =>
      h.resolves_rest hids hrest hsingle hlib hlocal
    refine gives_of_item hitem hreturns (fun fuel found hfound => ?_) fun j found hj haccepted => ?_
    · exact h.follow hseek (fun id hid => (hresolves id).mp hid) hfound
    · cases hj with
      | here huse _ =>
          exact .here ((hresolves j).mpr huse)
            (hseek.accepts _ _ _ _ (accepted_eq_some.mp haccepted))
      | through huse halias hitem =>
          have hverdict := (hseek.alias_iff (head :: rest) _ _ _).mpr halias
          have hnext := hitem.finds hseek (h.leads (.item huse halias)) hids haccepted
          rcases hnext with hnext | hnext
          · exact .target ((hresolves _).mpr huse) hverdict hnext
          · exact .fallback ((hresolves _).mpr huse) hverdict hnext

/-! ### All lookups -/

theorem aliasOf_eq_some {id : NameID} :
    symtab.aliasOf (some id) = some (path, inNamespace) ↔
      symtab.thing id = some (.alias path inNamespace) := by
  unfold aliasOf
  rw [Option.bind_some]
  constructor
  · intro h
    split at h
    · next heq =>
      obtain ⟨rfl, rfl⟩ := Prod.mk.inj (Option.some.inj h)
      exact heq
    · exact nomatch h
  · intro h
    rw [h]

theorem seekFinalId_plain : seekFinalId.Plain symtab where
  alias_iff name id path inNamespace := by
    rw [aliasOf_eq_some]
    unfold seekFinalId
    dsimp only
    constructor
    · intro hverdict
      split at hverdict
      · next hthing =>
        obtain ⟨rfl, rfl⟩ := Verdict.alias.inj hverdict
        exact hthing
      · exact nomatch hverdict
    · intro hthing
      rw [hthing]
  accepts name name' id found hdone := hdone

theorem seekFinalId_verdict {id : NameID} (h : symtab.aliasOf (some id) = none) (name : Path) :
    seekFinalId.verdict symtab name id = .done (.ok id) := by
  unfold seekFinalId
  dsimp only
  split
  · next hthing => exact nomatch h.symm.trans (aliasOf_eq_some.mpr hthing)
  · rfl

/-- The condition on captured symbols is needed: one that is no alias is what is found. -/
theorem Through.finalId_of_captured {id : NameID}
    (hname : symtab.Through ns base name path inNamespace []) (hlib : path.libRelative = none)
    (hlocal : symtab.localId (ns ++ path) = some id) (hid : symtab.aliasOf (some id) = none) :
    ∃ fuel, (symtab.within ns base).tryLookupFinalId fuel name = some (some id) := by
  obtain ⟨front, aliasId, rfl, ⟨fuel, hfuel⟩, halias, -⟩ := hname
  rw [List.append_nil]
  have htarget : (symtab.within ns base).tryLookupId (fuel + 1) path = some (some id) :=
    tryLookupStep_of_local hlib hlocal _
  have hverdict : seekFinalId.verdict (symtab.within ns base) front aliasId = _ :=
    (seekFinalId_plain.alias_iff front aliasId path inNamespace).mpr halias
  have hdone : (symtab.within ns base).follow seekFinalId (fuel + 2) path = some (.ok id) := by
    have hitem : seekFinalId.verdict (symtab.within ns base) path id = .done (.ok id) :=
      seekFinalId_verdict hid path
    rw [SymbolTable.follow, htarget, Option.bind_some, followStep, hitem]
  refine ⟨fuel + 3, ?_⟩
  rw [tryLookupFinalId, SymbolTable.follow, tryLookupId_mono (Nat.le_add_right fuel 2) hfuel,
    Option.bind_some, followStep, hverdict]
  dsimp only
  rw [hdone]
  rfl

/-! ### Tables without chains of aliases -/

abbrev PlainHeads : HeadTypes := ⟨Unit, Unit, Unit, Unit, Unit, Unit⟩

def entityHead (name : String) : UnitHead PlainHeads where
  name := name
  inputs := ()
  outputType := none
  unitTypeParams := []
  scopeTypeParams := []
  unitKind := .entity
  whereClauses := []

/-- The operations for a module `x` with an entity `f`. -/
theorem Reachable.addModule {t₀ t₁ t₂ t₃ : SymbolTable PlainHeads} (h : t₀.Reachable)
    (hmodule : t₀.addUniqueThing ["x"] (.module "x") = some t₁)
    (hentity : (t₁.pushNamespace "x").addUniqueThing ["f"] (.unit (entityHead "f")) = some t₂)
    (hpop : t₂.popNamespace = some t₃) : t₃.Reachable :=
  .popNamespace (.addUniqueThing (.pushNamespace "x" (.addUniqueThing h hmodule)) hentity) hpop

end Spade.Hir.SymbolTable

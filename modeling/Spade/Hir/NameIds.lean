import Mathlib.Data.Set.Insert
import Mathlib.Data.List.Nodup
import Spade.Hir.SymbolTable

/-!
# Name ids

The operations of `SymbolTable` and `FrozenSymtab` that take name ids from a `NameIdTracker`, with
its `u64`, over the table of `Hir/SymbolTable.lean` with the declarations of variables added. The
builtins have the highest ids, counted downwards by `populate_symtab`.

* **Steps** (`spec_apply`): what an operation takes and which ids it adds to the table.
* **Runs** (`run_issued`): the ids that a run takes are consecutive, across `freeze` and `unfreeze`.
* **Freshness** (`fresh_iff`): no id is used twice until the tracker arrives at the builtins.
-/

namespace Spade.Hir.NameIds

variable {H : HeadTypes}

/-! ### Tables with declarations -/

/-- `DeclarationState`, with locations left out. -/
inductive DeclarationState where
  | undefined (id : NameID)
  | undecleared (id : NameID)
  | defined

/-- `SymbolTable`. The innermost scope of declarations is the first one. -/
structure Table (H : HeadTypes) where
  symtab : SymbolTable H
  declarations : List (List (String × DeclarationState))

/-- What ends a sequence of operations. -/
inductive Stop where
  /-- Duplicate nameID inserted, or Duplicate nameID for types -/
  | duplicateId (id : ℕ)
  /-- There is no such scope, or no namespace to leave. -/
  | noScope
  /-- The lookup of a name does not return. -/
  | noReturn
  /-- The table is frozen, or not frozen, and does not have the operation. -/
  | noOperation
  deriving DecidableEq

/-- `NameIdTracker::next` on the counter, which wraps around. -/
def nextId (id : ℕ) : ℕ := (id + 1) % 2 ^ 64

namespace Table

def new : Table H where
  symtab := .new
  declarations := [[]]

/-- The table behind `self.id_tracker.next()`. -/
def advance (t : Table H) : Table H :=
  { t with symtab := { t.symtab with nextId := NameIds.nextId t.symtab.nextId } }

def newScope (t : Table H) : Table H where
  symtab := t.symtab.newScope
  declarations := [] :: t.declarations

def closeScope (t : Table H) : Except Stop (Table H) :=
  match t.symtab.closeScope with
  | some symtab => .ok ⟨symtab, t.declarations.tail⟩
  | none => .error .noScope

/-- Puts the name into the scope at `current_scope - offset`. -/
def insertSymbol (t : Table H) (offset : ℕ) (path : Path) (id : NameID) : Except Stop (Table H) :=
  match t.symtab.insertSymbol offset path id with
  | some symtab => .ok { t with symtab := symtab }
  | none => .error .noScope

def addThingWithIdAtOffset (t : Table H) (offset id : ℕ) (name : Path) (item : Thing H) :
    Except Stop (Table H) :=
  let fullName := t.symtab.ns ++ name
  let nameId : NameID := ⟨id, fullName.tail⟩
  if (t.symtab.thing nameId).isSome then .error (.duplicateId id)
  else
    { t with symtab := { t.symtab with things := (id, item) :: t.symtab.things } }.insertSymbol
      offset fullName nameId

def addTypeWithId (t : Table H) (id : ℕ) (name : Path) (type : H.TypeSymbol) :
    Except Stop (Table H) :=
  let fullName := t.symtab.ns ++ name
  let nameId : NameID := ⟨id, fullName.tail⟩
  if (t.symtab.typeSymbol nameId).isSome then .error (.duplicateId id)
  else
    { t with symtab := { t.symtab with types := (id, type) :: t.symtab.types } }.insertSymbol
      0 fullName nameId

/-- Without the reasons for a stop these are the operations of the table. -/
theorem addThingWithIdAtOffset_toOption (t : Table H) (offset id : ℕ) (name : Path)
    (item : Thing H) : (t.addThingWithIdAtOffset offset id name item).toOption.map symtab =
      t.symtab.addThingWithIdAtOffset offset id name item := by
  unfold addThingWithIdAtOffset SymbolTable.addThingWithIdAtOffset insertSymbol
  dsimp only
  split
  · rfl
  · split
    · next h => exact h.symm
    · next h => exact h.symm

theorem addTypeWithId_toOption (t : Table H) (id : ℕ) (name : Path) (type : H.TypeSymbol) :
    (t.addTypeWithId id name type).toOption.map symtab = t.symtab.addTypeWithId id name type := by
  unfold addTypeWithId SymbolTable.addTypeWithId insertSymbol
  dsimp only
  split
  · rfl
  · split
    · next h => exact h.symm
    · next h => exact h.symm

/-- Whether `add_declaration` returns an error: a variable of the name is in sight, or the name is
declared in this scope. -/
def isDeclared (t : Table H) (fuel : ℕ) (ident : String) : Except Stop Bool :=
  match t.symtab.tryLookupId fuel [ident] with
  | none => .error .noReturn
  | some id =>
    match id.bind t.symtab.thing with
    | some (.variable _) => .ok true
    | _ => .ok ((t.declarations.headD []).lookup ident).isSome

/-- Adds a declaration to the scope at `current_scope - offset`. -/
def insertDeclaration (t : Table H) (offset : ℕ) (ident : String) (state : DeclarationState) :
    Table H :=
  { t with declarations := t.declarations.modify offset fun scope => (ident, state) :: scope }

/-- The name is in the scope without its namespace, and nothing is defined under it. -/
def addUndeclearedWithId (t : Table H) (offset id : ℕ) (name : String) : Except Stop (Table H) := do
  let nameId : NameID := ⟨id, name⟩
  let t ← t.insertSymbol offset (t.symtab.ns ++ [name]) nameId
  .ok (t.insertDeclaration offset name (.undecleared nameId))

end Table

/-! ### Builtins -/

/-- The types of generic arguments that builtins have. -/
inductive GenericArg where
  | typeName (name : String)
  | uint (name : String)

def GenericArg.name : GenericArg → String
  | .typeName name | .uint name => name

/-- The type symbols of builtins. -/
inductive BuiltinSymbol where
  | declared (args : List GenericArg) (isPort : Bool)
  | genericArg
  | genericMeta

def GenericArg.symbol : GenericArg → BuiltinSymbol
  | .typeName _ => .genericArg
  | .uint _ => .genericMeta

section

variable (symbol : BuiltinSymbol → H.TypeSymbol)

def addArg (arg : GenericArg) (id : ℕ) (t : Table H) : Except Stop (ℕ × Table H) := do
  let t ← t.addTypeWithId id [arg.name] (symbol arg.symbol)
  .ok (id - 1, t)

def addArgs : List GenericArg → ℕ → Table H → Except Stop (ℕ × Table H)
  | [], id, t => .ok (id, t)
  | arg :: args, id, t => do
    let (id, t) ← addArg symbol arg id t
    addArgs args id t

/-- `add_type` of `populate_symtab`. -/
def addPrimitive (path : Path) (args : List GenericArg) (isPort : Bool) (id : ℕ) (t : Table H) :
    Except Stop (ℕ × Table H) := do
  let t ← t.addTypeWithId id path (symbol (.declared args isPort))
  let (id, t) ← addArgs symbol args (id - 1) t.newScope
  let t ← t.closeScope
  .ok (id, t)

def addMarkerTrait (path : Path) (id : ℕ) (t : Table H) : Except Stop (ℕ × Table H) := do
  let t ← t.addThingWithIdAtOffset 0 id path (.trait path.tail)
  .ok (id - 1, t)

def populateSymtab (t : Table H) : Except Stop (Table H) := do
  let id := 2 ^ 64 - 1
  let (id, t) ← addPrimitive symbol ["uint"] [.uint "size"] false id t
  let (id, t) ← addPrimitive symbol ["int"] [.uint "size"] false id t
  let (id, t) ← addPrimitive symbol ["Memory"] [.typeName "D", .uint "AddrWidth"] true id t
  let (id, t) ← addPrimitive symbol ["clock"] [] true id t
  let (id, t) ← addPrimitive symbol ["bool"] [] false id t
  let (id, t) ← addPrimitive symbol ["void"] [] false id t
  let (id, t) ← addPrimitive symbol ["bit"] [] false id t
  let (id, t) ← addPrimitive symbol ["inout"] [.uint "T"] false id t
  let (_, t) ← addMarkerTrait ["Number"] id t
  .ok t

end

/-! ### Operations -/

/-- A table that can be changed, or a `FrozenSymtab` with its own tracker. -/
inductive Session (H : HeadTypes) where
  | thawed (t : Table H)
  | frozen (inner : Table H) (idTracker : ℕ)

inductive Operation (H : HeadTypes) where
  | newScope
  | closeScope
  | pushNamespace (newIdent : String)
  | popNamespace
  | setBaseNamespace (baseNamespace : Path)
  | addThing (name : Path) (item : Thing H)
  | addUniqueThing (name : Path) (item : Thing H)
  | addThingAtOffset (offset : ℕ) (name : Path) (item : Thing H)
  | addType (name : Path) (type : H.TypeSymbol)
  | addUniqueType (name : Path) (type : H.TypeSymbol)
  | addAlias (name target : Path)
  | addLocalVariable (name : String)
  | addLocalVariableAtOffset (offset : ℕ) (name : String)
  /-- The lookup of the name has `fuel` calls. -/
  | addDeclaration (fuel : ℕ) (ident : String)
  | addUndeclearedAtOffset (offset : ℕ) (name : String)
  | freeze
  | newName (description : Path)
  | unfreeze

/-- The id that an operation takes from a tracker, and what it leaves. -/
structure Effect (H : HeadTypes) where
  issued : Option ℕ
  result : Except Stop (Session H)

namespace Table

/-- An operation that takes no id. -/
def quiet (result : Except Stop (Table H)) : Effect H := ⟨none, result.map .thawed⟩

/-- An operation on the id that is taken first. -/
def issue (t : Table H) (result : ℕ → Table H → Except Stop (Table H)) : Effect H :=
  ⟨some t.symtab.nextId, (result t.symtab.nextId t.advance).map .thawed⟩

def addThingAtOffset (t : Table H) (offset : ℕ) (name : Path) (item : Thing H) : Effect H :=
  t.issue fun id t => t.addThingWithIdAtOffset offset id name item

def addThing (t : Table H) (name : Path) (item : Thing H) : Effect H :=
  t.issue fun id t => t.addThingWithIdAtOffset 0 id name item

/-- The table stays as it is when there is something of the name. -/
def addUniqueThing (t : Table H) (name : Path) (item : Thing H) : Effect H :=
  if t.symtab.ensureIsUnique name then t.addThing name item else quiet (.ok t)

def addType (t : Table H) (name : Path) (type : H.TypeSymbol) : Effect H :=
  t.issue fun id t => t.addTypeWithId id name type

def addUniqueType (t : Table H) (name : Path) (type : H.TypeSymbol) : Effect H :=
  if t.symtab.ensureIsUnique name then t.addType name type else quiet (.ok t)

def addAlias (t : Table H) (name target : Path) : Effect H :=
  if t.symtab.ensureIsUnique name then
    let absolutePath :=
      match target.libRelative with
      | some libRelative => t.symtab.baseNamespace ++ libRelative
      | none => target
    t.addThing name (.alias absolutePath t.symtab.ns)
  else quiet (.ok t)

def addLocalVariable (t : Table H) (name : String) : Effect H := t.addThing [name] (.variable name)

def addLocalVariableAtOffset (t : Table H) (offset : ℕ) (name : String) : Effect H :=
  t.addThingAtOffset offset [name] (.variable name)

def addDeclaration (t : Table H) (fuel : ℕ) (ident : String) : Effect H :=
  match t.isDeclared fuel ident with
  | .error stop => quiet (.error stop)
  | .ok true => quiet (.ok t)
  | .ok false =>
    t.issue fun id t => do
      let t ← t.addThingWithIdAtOffset 0 id [ident] (.variable ident)
      .ok (t.insertDeclaration 0 ident (.undefined ⟨id, ident⟩))

def addUndeclearedAtOffset (t : Table H) (offset : ℕ) (name : String) : Effect H :=
  t.issue fun id t => t.addUndeclearedWithId offset id name

def popNamespace (t : Table H) : Effect H :=
  match t.symtab.popNamespace with
  | some symtab => quiet (.ok { t with symtab := symtab })
  | none => quiet (.error .noScope)

/-- `freeze` clones the tracker. -/
def freeze (t : Table H) : Session H := .frozen t t.symtab.nextId

end Table

/-- `unfreeze`: the tracker of the frozen table takes the place of the one in the table. -/
def unfreeze (inner : Table H) (idTracker : ℕ) : Table H :=
  { inner with symtab := { inner.symtab with nextId := idTracker } }

def apply (s : Session H) (op : Operation H) : Effect H :=
  match s, op with
  | .thawed t, .newScope => Table.quiet (.ok t.newScope)
  | .thawed t, .closeScope => Table.quiet t.closeScope
  | .thawed t, .pushNamespace newIdent =>
      Table.quiet (.ok { t with symtab := t.symtab.pushNamespace newIdent })
  | .thawed t, .popNamespace => t.popNamespace
  | .thawed t, .setBaseNamespace baseNamespace =>
      Table.quiet (.ok { t with symtab := t.symtab.setBaseNamespace baseNamespace })
  | .thawed t, .addThing name item => t.addThing name item
  | .thawed t, .addUniqueThing name item => t.addUniqueThing name item
  | .thawed t, .addThingAtOffset offset name item => t.addThingAtOffset offset name item
  | .thawed t, .addType name type => t.addType name type
  | .thawed t, .addUniqueType name type => t.addUniqueType name type
  | .thawed t, .addAlias name target => t.addAlias name target
  | .thawed t, .addLocalVariable name => t.addLocalVariable name
  | .thawed t, .addLocalVariableAtOffset offset name => t.addLocalVariableAtOffset offset name
  | .thawed t, .addDeclaration fuel ident => t.addDeclaration fuel ident
  | .thawed t, .addUndeclearedAtOffset offset name => t.addUndeclearedAtOffset offset name
  | .thawed t, .freeze => ⟨none, .ok t.freeze⟩
  | .frozen inner idTracker, .newName _ => ⟨some idTracker, .ok (.frozen inner (nextId idTracker))⟩
  | .frozen inner idTracker, .unfreeze => ⟨none, .ok (.thawed (unfreeze inner idTracker))⟩
  | _, _ => ⟨none, .error .noOperation⟩

/-- The ids that a sequence of operations takes, and how it ends. -/
def run : List (Operation H) → Session H → List ℕ × Except Stop (Session H)
  | [], s => ([], .ok s)
  | op :: ops, s =>
    match apply s op with
    | ⟨issued, .ok s'⟩ => (issued.toList ++ (run ops s').1, (run ops s').2)
    | ⟨issued, .error stop⟩ => (issued.toList, .error stop)

/-! ### What an operation takes -/

/-- The ids that have a thing or a type. -/
def Table.ids (t : Table H) : Set ℕ :=
  {id | id ∈ t.symtab.things.map Prod.fst ∨ id ∈ t.symtab.types.map Prod.fst}

namespace Session

def tracker : Session H → ℕ
  | .thawed t => t.symtab.nextId
  | .frozen _ idTracker => idTracker

def ids : Session H → Set ℕ
  | .thawed t => t.ids
  | .frozen inner _ => inner.ids

end Session

/-- A use of the id `id` of a table. -/
structure Adds (id : ℕ) (t : Table H) (result : Except Stop (Table H)) : Prop where
  nextId_eq : ∀ t', result = .ok t' → t'.symtab.nextId = t.symtab.nextId
  ids_subset : ∀ t', result = .ok t' → t'.ids ⊆ insert id t.ids
  mem_ids : ∀ id', result = .error (.duplicateId id') → id' = id ∧ id ∈ t.ids

theorem insertSymbol_keeps {symtab symtab' : SymbolTable H} {offset : ℕ} {path : Path} {id : NameID}
    (h : symtab.insertSymbol offset path id = some symtab') :
    symtab'.nextId = symtab.nextId ∧ symtab'.things = symtab.things ∧
      symtab'.types = symtab.types := by
  unfold SymbolTable.insertSymbol at h
  split at h
  · cases h
    exact ⟨rfl, rfl, rfl⟩
  split at h
  · cases h
    exact ⟨rfl, rfl, rfl⟩
  · exact absurd h nofun

theorem insertSymbol_cases (t : Table H) (offset : ℕ) (path : Path) (id : NameID) :
    (∃ t', t.insertSymbol offset path id = .ok t' ∧ t'.symtab.nextId = t.symtab.nextId ∧
      t'.ids = t.ids) ∨ t.insertSymbol offset path id = .error .noScope := by
  unfold Table.insertSymbol
  rcases h : t.symtab.insertSymbol offset path id with _ | symtab
  · exact .inr rfl
  · obtain ⟨hnext, hthings, htypes⟩ := insertSymbol_keeps h
    refine .inl ⟨_, rfl, hnext, ?_⟩
    unfold Table.ids
    rw [hthings, htypes]

/-- A table to which the id has been added, with a name for it. -/
theorem adds_insertSymbol {t added : Table H} {id : ℕ} (offset : ℕ) (path : Path) (nameId : NameID)
    (hnext : added.symtab.nextId = t.symtab.nextId) (hids : added.ids ⊆ insert id t.ids) :
    Adds id t (added.insertSymbol offset path nameId) := by
  obtain ⟨t', h, hnext', hids'⟩ | h := insertSymbol_cases added offset path nameId
  · rw [h]
    refine ⟨?_, ?_, nofun⟩
    · rintro _ ⟨rfl⟩
      exact hnext'.trans hnext
    · rintro _ ⟨rfl⟩
      exact hids'.symm ▸ hids
  · rw [h]
    exact ⟨nofun, nofun, nofun⟩

theorem mem_fst_of_lookup {α : Type} {id : ℕ} {entries : List (ℕ × α)}
    (h : (entries.lookup id).isSome) : id ∈ entries.map Prod.fst := by
  obtain ⟨value, hvalue⟩ := Option.isSome_iff_exists.mp h
  obtain ⟨before, after, heq, -⟩ := List.lookup_eq_some_iff.mp hvalue
  rw [heq]
  simp

theorem adds_addThingWithIdAtOffset (t : Table H) (offset id : ℕ) (name : Path) (item : Thing H) :
    Adds id t (t.addThingWithIdAtOffset offset id name item) := by
  unfold Table.addThingWithIdAtOffset
  dsimp only
  split
  · next hdup =>
    refine ⟨nofun, nofun, ?_⟩
    rintro _ ⟨rfl⟩
    exact ⟨rfl, .inl (mem_fst_of_lookup hdup)⟩
  · refine adds_insertSymbol _ _ _ ?_ ?_
    · rfl
    · rintro id' (hthing | htype)
      · exact (List.mem_cons.mp hthing).imp (fun heq => heq) .inl
      · exact .inr (.inr htype)

theorem adds_addTypeWithId (t : Table H) (id : ℕ) (name : Path) (type : H.TypeSymbol) :
    Adds id t (t.addTypeWithId id name type) := by
  unfold Table.addTypeWithId
  dsimp only
  split
  · next hdup =>
    refine ⟨nofun, nofun, ?_⟩
    rintro _ ⟨rfl⟩
    exact ⟨rfl, .inr (mem_fst_of_lookup hdup)⟩
  · refine adds_insertSymbol _ _ _ ?_ ?_
    · rfl
    · rintro id' (hthing | htype)
      · exact .inr (.inl hthing)
      · exact (List.mem_cons.mp htype).imp (fun heq => heq) .inr

/-- A declaration of the name that has been added. -/
theorem Adds.insertDeclaration {id : ℕ} {t : Table H} {result : Except Stop (Table H)}
    (h : Adds id t result) (offset : ℕ) (ident : String) (state : DeclarationState) :
    Adds id t (result.bind fun t => .ok (t.insertDeclaration offset ident state)) := by
  rcases result with stop | t'
  · refine ⟨nofun, nofun, ?_⟩
    intro id' hstop
    exact h.mem_ids id' (congrArg Except.error (Except.error.inj hstop))
  · refine ⟨?_, ?_, nofun⟩
    · rintro _ ⟨rfl⟩
      exact h.nextId_eq t' rfl
    · rintro _ ⟨rfl⟩
      exact h.ids_subset t' rfl

/-- The id that an operation takes is the one of the tracker, which goes on. No other id is
added, and where it is in the table already the operation panics. -/
structure Spec (s : Session H) (e : Effect H) : Prop where
  issued_eq : ∀ id ∈ e.issued, id = s.tracker
  tracker_eq : ∀ s', e.result = .ok s' →
    s'.tracker = if e.issued.isSome then nextId s.tracker else s.tracker
  ids_subset : ∀ s', e.result = .ok s' → ∀ id ∈ s'.ids, id ∈ s.ids ∨ id ∈ e.issued
  mem_ids : ∀ id, e.result = .error (.duplicateId id) → id ∈ e.issued ∧ id ∈ s.ids

theorem spec_issue {t : Table H} {result : ℕ → Table H → Except Stop (Table H)}
    (h : Adds t.symtab.nextId t.advance (result t.symtab.nextId t.advance)) :
    Spec (.thawed t) (t.issue result) := by
  unfold Table.issue
  generalize result t.symtab.nextId t.advance = r at h
  refine ⟨?_, ?_, ?_, ?_⟩
  · rintro _ ⟨rfl⟩
    rfl
  · rcases r with stop | t'
    · exact nofun
    · rintro _ ⟨rfl⟩
      exact h.nextId_eq t' rfl
  · rcases r with stop | t'
    · exact nofun
    · rintro _ ⟨rfl⟩ id hid
      exact (h.ids_subset t' rfl hid).symm.imp_right fun heq => congrArg some heq.symm
  · rcases r with stop | t'
    · rintro id ⟨rfl⟩
      obtain ⟨rfl, hmem⟩ := h.mem_ids id rfl
      exact ⟨rfl, hmem⟩
    · exact nofun

/-- An operation that takes no id and adds none. -/
theorem spec_quiet {t : Table H} {result : Except Stop (Table H)}
    (hok : ∀ t', result = .ok t' → t'.symtab.nextId = t.symtab.nextId ∧ t'.ids = t.ids)
    (hstop : ∀ id, result ≠ .error (.duplicateId id)) :
    Spec (.thawed t) (Table.quiet result) := by
  refine ⟨nofun, ?_, ?_, ?_⟩
  · rcases result with stop | t'
    · exact nofun
    · rintro _ ⟨rfl⟩
      exact (hok t' rfl).1
  · rcases result with stop | t'
    · exact nofun
    · rintro _ ⟨rfl⟩ id hid
      exact .inl ((hok t' rfl).2.subset hid)
  · rcases result with stop | t'
    · rintro id ⟨rfl⟩
      exact absurd rfl (hstop id)
    · exact nofun

theorem spec_same {t t' : Table H} (hnext : t'.symtab.nextId = t.symtab.nextId)
    (hids : t'.ids = t.ids) : Spec (.thawed t) (Table.quiet (.ok t')) := by
  apply spec_quiet
  · rintro _ ⟨rfl⟩
    exact ⟨hnext, hids⟩
  · exact fun _ => nofun

theorem spec_addThing (t : Table H) (name : Path) (item : Thing H) :
    Spec (.thawed t) (t.addThing name item) :=
  spec_issue (adds_addThingWithIdAtOffset _ _ _ _ _)

theorem spec_addThingAtOffset (t : Table H) (offset : ℕ) (name : Path) (item : Thing H) :
    Spec (.thawed t) (t.addThingAtOffset offset name item) :=
  spec_issue (adds_addThingWithIdAtOffset _ _ _ _ _)

theorem spec_addType (t : Table H) (name : Path) (type : H.TypeSymbol) :
    Spec (.thawed t) (t.addType name type) :=
  spec_issue (adds_addTypeWithId _ _ _ _)

theorem spec_if {t : Table H} {c : Prop} [Decidable c] {e : Effect H} (h : Spec (.thawed t) e) :
    Spec (.thawed t) (if c then e else Table.quiet (.ok t)) := by
  split
  · exact h
  · exact spec_same rfl rfl

theorem spec_addDeclaration (t : Table H) (fuel : ℕ) (ident : String) :
    Spec (.thawed t) (t.addDeclaration fuel ident) := by
  unfold Table.addDeclaration
  split
  · next stop hstop =>
    refine spec_quiet nofun fun id hid => ?_
    cases hid
    unfold Table.isDeclared at hstop
    split at hstop
    · exact absurd hstop nofun
    · split at hstop <;> exact absurd hstop nofun
  · exact spec_same rfl rfl
  · exact spec_issue ((adds_addThingWithIdAtOffset _ _ _ _ _).insertDeclaration _ _ _)

theorem spec_addUndeclearedAtOffset (t : Table H) (offset : ℕ) (name : String) :
    Spec (.thawed t) (t.addUndeclearedAtOffset offset name) := by
  apply spec_issue
  exact (adds_insertSymbol _ _ _ rfl (Set.subset_insert _ _)).insertDeclaration _ _ _

theorem spec_closeScope (t : Table H) : Spec (.thawed t) (Table.quiet t.closeScope) := by
  unfold Table.closeScope SymbolTable.closeScope
  split
  · next symtab hclose =>
    split at hclose
    · exact absurd hclose nofun
    · cases hclose
      exact spec_same rfl rfl
  · exact spec_quiet nofun (fun _ => nofun)

theorem spec_popNamespace (t : Table H) : Spec (.thawed t) t.popNamespace := by
  unfold Table.popNamespace SymbolTable.popNamespace
  split
  · next symtab hpop =>
    split at hpop
    · exact absurd hpop nofun
    · cases hpop
      exact spec_same rfl rfl
  · exact spec_quiet nofun (fun _ => nofun)

theorem spec_freeze (t : Table H) : Spec (.thawed t) ⟨none, .ok t.freeze⟩ := by
  refine ⟨nofun, ?_, ?_, nofun⟩
  · rintro _ ⟨rfl⟩
    rfl
  · rintro _ ⟨rfl⟩ id hid
    exact .inl hid

theorem spec_newName (inner : Table H) (idTracker : ℕ) :
    Spec (.frozen inner idTracker) ⟨some idTracker, .ok (.frozen inner (nextId idTracker))⟩ := by
  refine ⟨?_, ?_, ?_, nofun⟩
  · rintro _ ⟨rfl⟩
    rfl
  · rintro _ ⟨rfl⟩
    rfl
  · rintro _ ⟨rfl⟩ id hid
    exact .inl hid

theorem spec_unfreeze (inner : Table H) (idTracker : ℕ) :
    Spec (.frozen inner idTracker) ⟨none, .ok (.thawed (unfreeze inner idTracker))⟩ := by
  refine ⟨nofun, ?_, ?_, nofun⟩
  · rintro _ ⟨rfl⟩
    rfl
  · rintro _ ⟨rfl⟩ id hid
    exact .inl hid

theorem spec_noOperation (s : Session H) : Spec s ⟨none, .error .noOperation⟩ :=
  ⟨nofun, nofun, nofun, nofun⟩

theorem spec_apply (s : Session H) (op : Operation H) : Spec s (apply s op) := by
  unfold apply
  split
  · exact spec_same rfl rfl
  · exact spec_closeScope _
  · exact spec_same rfl rfl
  · exact spec_popNamespace _
  · exact spec_same rfl rfl
  · exact spec_addThing _ _ _
  · exact spec_if (spec_addThing _ _ _)
  · exact spec_addThingAtOffset _ _ _ _
  · exact spec_addType _ _ _
  · exact spec_if (spec_addType _ _ _)
  · exact spec_if (spec_addThing _ _ _)
  · exact spec_addThing _ _ _
  · exact spec_addThingAtOffset _ _ _ _
  · exact spec_addDeclaration _ _ _
  · exact spec_addUndeclearedAtOffset _ _ _
  · exact spec_freeze _
  · exact spec_newName _ _
  · exact spec_unfreeze _ _
  · exact spec_noOperation _

/-! ### Runs -/

/-- The first step of a run. -/
theorem run_cons (op : Operation H) (ops : List (Operation H)) (s : Session H) :
    (∃ s', (apply s op).result = .ok s' ∧
      run (op :: ops) s = ((apply s op).issued.toList ++ (run ops s').1, (run ops s').2)) ∨
    (∃ stop, (apply s op).result = .error stop ∧
      run (op :: ops) s = ((apply s op).issued.toList, .error stop)) := by
  rw [run]
  obtain ⟨issued, stop | s'⟩ := apply s op
  · exact .inr ⟨stop, rfl, rfl⟩
  · exact .inl ⟨s', rfl, rfl⟩

/-- The id that is `i` steps behind the tracker. -/
def behind (tracker i : ℕ) : ℕ := (tracker + i) % 2 ^ 64

theorem behind_nextId (tracker i : ℕ) : behind (nextId tracker) i = behind tracker (i + 1) := by
  unfold behind nextId
  omega

theorem nextId_lt (tracker : ℕ) : nextId tracker < 2 ^ 64 := Nat.mod_lt _ (by decide)

theorem run_issued {s : Session H} (h : s.tracker < 2 ^ 64) (ops : List (Operation H)) :
    (run ops s).1 = (List.range (run ops s).1.length).map (behind s.tracker) := by
  induction ops generalizing s with
  | nil => rfl
  | cons op ops ih =>
      have hspec := spec_apply s op
      have hzero : behind s.tracker 0 = s.tracker := Nat.mod_eq_of_lt h
      obtain ⟨s', hok, hrun⟩ | ⟨stop, hstop, hrun⟩ := run_cons op ops s
      · have htracker := hspec.tracker_eq s' hok
        rw [hrun]
        rcases hissued : (apply s op).issued with _ | id
        · rw [hissued] at htracker
          rw [← (show s'.tracker = s.tracker from htracker)] at h ⊢
          exact ih h
        · rw [hissued] at htracker
          obtain rfl := hspec.issued_eq id hissued
          have hnext : s'.tracker = nextId s.tracker := htracker
          have hrest := ih (hnext ▸ nextId_lt s.tracker)
          simp only [Option.toList_some, List.singleton_append, List.length_cons,
            List.range_succ_eq_map, List.map_cons, List.map_map, hzero]
          congr 1
          rw [hrest, hnext]
          simp only [List.length_map, List.length_range]
          apply List.map_congr_left
          exact fun i _ => behind_nextId s.tracker i
      · rw [hrun]
        rcases hissued : (apply s op).issued with _ | id
        · rfl
        · obtain rfl := hspec.issued_eq id hissued
          exact congrArg ([·]) hzero.symm

/-! ### Freshness -/

/-- The lowest id of a builtin. -/
def firstBuiltin : ℕ := 2 ^ 64 - 14

/-- The ids of a run on a table of builtins. -/
structure Fresh (builtins : Table H) (outcome : List ℕ × Except Stop (Session H)) : Prop where
  nodup : outcome.1.Nodup
  not_mem : ∀ id ∈ outcome.1, id ∉ builtins.ids
  ne_duplicate : ∀ id, outcome.2 ≠ .error (.duplicateId id)

theorem populateSymtab_new (symbol : BuiltinSymbol → H.TypeSymbol) :
    ∃ t : Table H, populateSymtab symbol .new = .ok t ∧ t.symtab.nextId = 0 ∧
      t.symtab.things.map Prod.fst = [firstBuiltin] ∧
        t.symtab.types.map Prod.fst = (List.range 13).map (firstBuiltin + 1 + ·) :=
  ⟨_, rfl, rfl, rfl, rfl⟩

/-- The ids of the builtins are the highest fourteen. -/
theorem ids_populateSymtab {symbol : BuiltinSymbol → H.TypeSymbol} {t : Table H}
    (h : populateSymtab symbol .new = .ok t) :
    t.symtab.nextId = 0 ∧ ∀ id, id ∈ t.ids ↔ firstBuiltin ≤ id ∧ id < 2 ^ 64 := by
  obtain ⟨t', ht', hnext, hthings, htypes⟩ := populateSymtab_new symbol
  cases h.symm.trans ht'
  refine ⟨hnext, fun id => ?_⟩
  change id ∈ t.symtab.things.map Prod.fst ∨ id ∈ t.symtab.types.map Prod.fst ↔ _
  rw [hthings, htypes, List.mem_singleton, List.mem_map]
  simp only [List.mem_range]
  constructor
  · rintro (rfl | ⟨i, hi, rfl⟩)
    · exact ⟨le_rfl, by decide⟩
    · unfold firstBuiltin
      omega
  · rintro ⟨hle, hlt⟩
    obtain rfl | hne := eq_or_ne id firstBuiltin
    · exact .inl rfl
    · refine .inr ⟨id - firstBuiltin - 1, ?_, ?_⟩
      · unfold firstBuiltin at hle hne ⊢
        omega
      · omega

/-- While the tracker is below the builtins, its id is not in the table. -/
theorem run_ne_duplicate {s : Session H} {ops : List (Operation H)}
    (hids : ∀ id ∈ s.ids, id < s.tracker ∨ firstBuiltin ≤ id)
    (hlength : s.tracker + (run ops s).1.length ≤ firstBuiltin) (id : ℕ) :
    (run ops s).2 ≠ .error (.duplicateId id) := by
  induction ops generalizing s with
  | nil => exact nofun
  | cons op ops ih =>
      have hspec := spec_apply s op
      obtain ⟨s', hok, hrun⟩ | ⟨stop, hstop, hrun⟩ := run_cons op ops s
      · rw [hrun] at hlength ⊢
        have htracker := hspec.tracker_eq s' hok
        have hsubset := hspec.ids_subset s' hok
        rw [List.length_append] at hlength
        have hbound : firstBuiltin < 2 ^ 64 := by decide
        rcases hissued : (apply s op).issued with _ | id'
        · rw [hissued] at htracker hlength hsubset
          have hsame : s'.tracker = s.tracker := htracker
          apply ih
          · intro id' hid'
            rw [hsame]
            exact hids id' ((hsubset id' hid').resolve_right nofun)
          · rw [hsame]
            simpa using hlength
        · rw [hissued] at htracker hlength hsubset
          obtain rfl := hspec.issued_eq id' hissued
          have hnext : s'.tracker = nextId s.tracker := htracker
          have hlen : s.tracker + (1 + (run ops s').1.length) ≤ firstBuiltin := hlength
          have hsucc : nextId s.tracker = s.tracker + 1 := Nat.mod_eq_of_lt (by omega)
          apply ih
          · intro id' hid'
            rw [hnext, hsucc]
            obtain hmem | heq := hsubset id' hid'
            · exact (hids id' hmem).imp_left Nat.lt_succ_of_lt
            · exact .inl (Option.some.inj heq ▸ Nat.lt_succ_self _)
          · rw [hnext, hsucc]
            omega
      · rw [hrun] at hlength ⊢
        intro hdup
        obtain rfl : stop = .duplicateId id := Except.error.inj hdup
        obtain ⟨hissued, hmem⟩ := hspec.mem_ids id hstop
        obtain rfl := hspec.issued_eq id hissued
        rw [Option.mem_def.mp hissued] at hlength
        have hlen : s.tracker + 1 ≤ firstBuiltin := hlength
        have := hids s.tracker hmem
        omega

theorem behind_zero_of_lt {i : ℕ} (h : i < 2 ^ 64) : behind 0 i = i := by
  rw [behind, Nat.zero_add, Nat.mod_eq_of_lt h]

/-- Ids are fresh until the tracker has arrived at the builtins. -/
theorem fresh_iff {symbol : BuiltinSymbol → H.TypeSymbol} {t : Table H}
    (h : populateSymtab symbol .new = .ok t) (ops : List (Operation H)) :
    Fresh t (run ops (.thawed t)) ↔ (run ops (.thawed t)).1.length ≤ 2 ^ 64 - 14 := by
  obtain ⟨hnext, hids⟩ := ids_populateSymtab h
  have htracker : (Session.thawed t).tracker = 0 := hnext
  have hissued := run_issued (s := .thawed t) (htracker ▸ by decide) ops
  rw [htracker] at hissued
  constructor
  · rintro ⟨-, hmem, -⟩
    by_contra hlong
    refine hmem firstBuiltin ?_ ((hids firstBuiltin).mpr ⟨le_rfl, by decide⟩)
    rw [hissued, List.mem_map]
    refine ⟨firstBuiltin, List.mem_range.mpr ?_, behind_zero_of_lt (by decide)⟩
    exact Nat.lt_of_not_le hlong
  · intro hlength
    have hsmall : (run ops (.thawed t)).1 = List.range (run ops (.thawed t)).1.length := by
      refine hissued.trans ?_
      refine (List.map_congr_left fun i hi => ?_).trans (List.map_id _)
      have := List.mem_range.mp hi
      exact behind_zero_of_lt (by omega)
    refine ⟨?_, ?_, ?_⟩
    · rw [hsmall]
      exact List.nodup_range
    · intro id hid hbuiltin
      rw [hsmall, List.mem_range] at hid
      have := ((hids id).mp hbuiltin).1
      unfold firstBuiltin at this
      omega
    · apply run_ne_duplicate
      · exact fun id hid => .inr ((hids id).mp hid).1
      · rw [htracker, Nat.zero_add]
        exact hlength

theorem length_run_le (ops : List (Operation H)) (s : Session H) :
    (run ops s).1.length ≤ ops.length := by
  induction ops generalizing s with
  | nil => exact le_rfl
  | cons op ops ih =>
      have hissued (issued : Option ℕ) : issued.toList.length ≤ 1 := by
        rcases issued with _ | id
        · exact Nat.zero_le 1
        · exact le_rfl
      have hone := hissued (apply s op).issued
      obtain ⟨s', -, hrun⟩ | ⟨stop, -, hrun⟩ := run_cons op ops s
      · have hrest := ih s'
        rw [hrun, List.length_append, List.length_cons]
        omega
      · rw [hrun, List.length_cons]
        exact hone.trans (Nat.le_add_left 1 _)

/-- No payloads. -/
def bareHeads : HeadTypes := ⟨Unit, Unit, Unit, Unit, Unit, Unit⟩

theorem fresh_freeze :
    ∃ t : Table bareHeads, populateSymtab (fun _ => ()) .new = .ok t ∧
      Fresh t (run [.addThing ["x"] (.module "x"), .freeze, .newName ["y"], .unfreeze,
        .addType ["z"] ()] (.thawed t)) := by
  obtain ⟨t, ht, -⟩ := populateSymtab_new (H := bareHeads) fun _ => ()
  exact ⟨t, ht, (fresh_iff ht _).mpr ((length_run_le _ _).trans (by decide))⟩

/-! ### A run that arrives at the builtins -/

theorem run_of_ok {s s' : Session H} {op : Operation H} {issued : Option ℕ}
    (h : apply s op = ⟨issued, .ok s'⟩) (ops : List (Operation H)) :
    (run (op :: ops) s).2 = (run ops s').2 := by
  rw [run, h]

theorem run_of_error {s : Session H} {op : Operation H} {issued : Option ℕ} {stop : Stop}
    (h : apply s op = ⟨issued, .error stop⟩) (ops : List (Operation H)) :
    (run (op :: ops) s).2 = .error stop := by
  rw [run, h]

def newNames (n : ℕ) : List (Operation H) := List.replicate n (.newName [])

theorem run_newNames (inner : Table H) (idTracker n : ℕ) (ops : List (Operation H)) :
    (run (newNames n ++ ops) (.frozen inner idTracker)).2 =
      (run ops (.frozen inner (nextId^[n] idTracker))).2 := by
  induction n generalizing idTracker with
  | zero => rfl
  | succ n ih => exact (run_of_ok rfl _).trans (ih (nextId idTracker))

theorem iterate_nextId {n : ℕ} (h : n < 2 ^ 64) : nextId^[n] 0 = n := by
  induction n with
  | zero => rfl
  | succ n ih =>
      rw [Function.iterate_succ_apply', ih (by omega), nextId]
      omega

/-- `add_thing` of a frozen table. -/
def oneMore : List (Operation bareHeads) := [.unfreeze, .addThing ["x"] (.module "x")]

/-- Intermediate names until the ids below the builtins are used up, and one more thing. -/
def exhausting : List (Operation bareHeads) := .freeze :: (newNames firstBuiltin ++ oneMore)

theorem run_exhausting {t : Table bareHeads} (hnext : t.symtab.nextId = 0)
    (hthing : (t.symtab.things.lookup firstBuiltin).isSome) :
    (run exhausting (.thawed t)).2 = .error (.duplicateId firstBuiltin) := by
  have hadd : apply (.thawed (unfreeze t firstBuiltin)) (.addThing ["x"] (.module "x")) =
      ⟨some firstBuiltin, .error (.duplicateId firstBuiltin)⟩ := by
    have hduplicate : (unfreeze t firstBuiltin).advance.addThingWithIdAtOffset 0 firstBuiltin ["x"]
        (.module "x") = .error (.duplicateId firstBuiltin) := if_pos hthing
    change Effect.mk (some firstBuiltin) (Except.map _ _) = _
    exact congrArg (fun r => Effect.mk (some firstBuiltin) (Except.map Session.thawed r)) hduplicate
  have hfreeze : apply (.thawed t) .freeze = ⟨none, .ok (.frozen t 0)⟩ := by
    rw [← hnext]
    rfl
  rw [exhausting, run_of_ok hfreeze, run_newNames, iterate_nextId (by decide), oneMore,
    run_of_ok rfl, run_of_error hadd]

theorem exhausting_not_fresh :
    ∃ t : Table bareHeads, populateSymtab (fun _ => ()) .new = .ok t ∧
      ¬ Fresh t (run exhausting (.thawed t)) := by
  obtain ⟨t, ht, hnext, hthings, -⟩ := populateSymtab_new (H := bareHeads) fun _ => ()
  refine ⟨t, ht, fun hfresh => hfresh.ne_duplicate firstBuiltin (run_exhausting hnext ?_)⟩
  obtain ⟨entry, hentry⟩ := List.length_eq_one_iff.mp
    ((List.length_map _).symm.trans (congrArg List.length hthings))
  rw [hentry] at hthings ⊢
  obtain ⟨id, item⟩ := entry
  obtain rfl : id = firstBuiltin := (List.cons.inj hthings).1
  rw [List.lookup_cons_self]
  rfl

end Spade.Hir.NameIds

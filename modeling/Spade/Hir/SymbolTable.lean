import Spade.Hir.Pattern

/-!
# The symbol table

`SymbolTable` from `spade-hir`: the operations that add symbols and move between scopes and
namespaces, and the lookups of paths. Locations are left out, as are the declarations of variables,
which no lookup reads. The parts of item heads that lookups only pass on are parameters.

The lookups follow aliases by calling themselves, so they are given fuel: `none` is a lookup that
has not returned, because it is still running or because the compiler panicked.

* **Lookups of an id** (`SymbolTable.tryLookupId`): the ways in which a path can name a symbol.
* **Lookups of an item** (`SymbolTable.follow`): the common part of the lookups that follow aliases
  to an item of one kind.
* **Constructible tables** (`SymbolTable.Reachable`): what the operations build.
-/

namespace Spade.Hir

/-- `Path`. -/
abbrev Path : Type := List String

namespace Path

def libRelative : Path → Option Path
  | "lib" :: rest => some rest
  | _ => none

/-- The last part of a path, which is what is kept of it in a `NameID`. -/
def tail (path : Path) : String := path.getLastD ""

end Path

/-! ### Items -/

/-- The parts of the heads of items that lookups pass on. -/
structure HeadTypes where
  TypeSpec : Type
  ParameterList : Type
  TypeParam : Type
  TypeExpression : Type
  WhereClause : Type
  TypeSymbol : Type

inductive FunctionKind where
  | fn
  | struct
  | enum
  deriving DecidableEq, Repr

inductive UnitKind (H : HeadTypes) where
  | function (kind : FunctionKind)
  | entity
  | pipeline (depth : H.TypeExpression)

structure UnitHead (H : HeadTypes) where
  name : String
  inputs : H.ParameterList
  outputType : Option H.TypeSpec
  unitTypeParams : List H.TypeParam
  scopeTypeParams : List H.TypeParam
  unitKind : UnitKind H
  whereClauses : List H.WhereClause

structure EnumVariant (H : HeadTypes) where
  name : String
  outputType : H.TypeSpec
  option : ℕ
  params : H.ParameterList
  typeParams : List H.TypeParam

def EnumVariant.asUnitHead {H : HeadTypes} (v : EnumVariant H) : UnitHead H where
  name := v.name
  inputs := v.params
  outputType := some v.outputType
  unitTypeParams := v.typeParams
  scopeTypeParams := v.typeParams
  unitKind := .function .enum
  whereClauses := []

structure StructCallable (H : HeadTypes) where
  name : String
  selfType : H.TypeSpec
  params : H.ParameterList
  typeParams : List H.TypeParam

def StructCallable.asUnitHead {H : HeadTypes} (s : StructCallable H) : UnitHead H where
  name := s.name
  inputs := s.params
  outputType := some s.selfType
  unitTypeParams := s.typeParams
  scopeTypeParams := []
  unitKind := .function .struct
  whereClauses := []

structure Patternable (H : HeadTypes) where
  kind : PatternableKind
  params : H.ParameterList

/-- `Thing`. -/
inductive Thing (H : HeadTypes) where
  | struct (s : StructCallable H)
  | enumVariant (v : EnumVariant H)
  | unit (head : UnitHead H)
  | variable (name : String)
  | alias (path : Path) (inNamespace : Path)
  | pipelineStage (name : String)
  | comptimeConfig (value : ℤ)
  | module (name : String)
  | trait (name : String)

/-- `LookupError`. -/
inductive LookupError (H : HeadTypes) where
  | noSuchSymbol (path : Path)
  | notAThing (path : Path)
  | notATypeSymbol (path : Path) (got : Thing H)
  | notAVariable (path : Path) (got : Thing H)
  | notAUnit (path : Path) (got : Thing H)
  | notAnEnumVariant (path : Path) (got : Thing H)
  | notAPatternableType (path : Path) (got : Thing H)
  | notAStruct (path : Path) (got : Thing H)
  | notAComptimeValue (path : Path) (got : Thing H)
  | notATrait (path : Path) (got : Thing H)
  | isAType (path : Path)

namespace LookupError

variable {H : HeadTypes}

def withPath (path : Path) : LookupError H → LookupError H
  | noSuchSymbol _ => noSuchSymbol path
  | notAThing _ => notAThing path
  | notATypeSymbol _ got => notATypeSymbol path got
  | notAVariable _ got => notAVariable path got
  | notAUnit _ got => notAUnit path got
  | notAnEnumVariant _ got => notAnEnumVariant path got
  | notAPatternableType _ got => notAPatternableType path got
  | notAStruct _ got => notAStruct path got
  | notAComptimeValue _ got => notAComptimeValue path got
  | notATrait _ got => notATrait path got
  | isAType _ => isAType path

end LookupError

/-! ### The table -/

/-- The symbols of one scope by their absolute path; a later entry replaces an earlier one. -/
abbrev Scope : Type := List (Path × NameID)

def Scope.get (scope : Scope) (path : Path) : Option NameID := List.lookup path scope

/-- `SymbolTable`. Of the scopes, `root` is the outermost one and `inner` are the other ones, the
innermost first. -/
structure SymbolTable (H : HeadTypes) where
  root : Scope
  inner : List Scope
  nextId : ℕ
  types : List (ℕ × H.TypeSymbol)
  things : List (ℕ × Thing H)
  ns : Path
  baseNamespace : Path

namespace SymbolTable

variable {H : HeadTypes}

def new : SymbolTable H where
  root := []
  inner := []
  nextId := 0
  types := []
  things := []
  ns := []
  baseNamespace := []

def thing (symtab : SymbolTable H) (id : NameID) : Option (Thing H) := symtab.things.lookup id.id

def typeSymbol (symtab : SymbolTable H) (id : NameID) : Option H.TypeSymbol :=
  symtab.types.lookup id.id

/-! ### Operations -/

def newScope (symtab : SymbolTable H) : SymbolTable H := { symtab with inner := [] :: symtab.inner }

/-- `none` is a panic, as in the operations below, or an error. The root scope is never closed. -/
def closeScope (symtab : SymbolTable H) : Option (SymbolTable H) :=
  match symtab.inner with
  | [] => none
  | _ :: inner => some { symtab with inner := inner }

def pushNamespace (symtab : SymbolTable H) (newIdent : String) : SymbolTable H :=
  { symtab with ns := symtab.ns ++ [newIdent] }

def popNamespace (symtab : SymbolTable H) : Option (SymbolTable H) :=
  if symtab.ns = [] then none else some { symtab with ns := symtab.ns.dropLast }

def setBaseNamespace (symtab : SymbolTable H) (baseNamespace : Path) : SymbolTable H :=
  { symtab with baseNamespace := baseNamespace }

/-- Adds a symbol to the scope at `current_scope - offset`. -/
def insertSymbol (symtab : SymbolTable H) (offset : ℕ) (path : Path) (id : NameID) :
    Option (SymbolTable H) :=
  if offset < symtab.inner.length then
    some { symtab with inner := symtab.inner.modify offset fun scope => (path, id) :: scope }
  else if offset = symtab.inner.length then
    some { symtab with root := (path, id) :: symtab.root }
  else none

def addThingWithIdAtOffset (symtab : SymbolTable H) (offset id : ℕ) (name : Path) (item : Thing H) :
    Option (SymbolTable H) :=
  let fullName := symtab.ns ++ name
  let nameId : NameID := ⟨id, fullName.tail⟩
  if (symtab.thing nameId).isSome then none
  else { symtab with things := (id, item) :: symtab.things }.insertSymbol offset fullName nameId

/-- The id must already be in the symbol table. -/
def addThingWithNameId (symtab : SymbolTable H) (nameId : NameID) (item : Thing H) :
    SymbolTable H :=
  { symtab with things := (nameId.id, item) :: symtab.things }

def addThingAtOffset (symtab : SymbolTable H) (offset : ℕ) (name : Path) (item : Thing H) :
    Option (SymbolTable H) :=
  { symtab with nextId := symtab.nextId + 1 }.addThingWithIdAtOffset offset symtab.nextId name item

def addThing (symtab : SymbolTable H) (name : Path) (item : Thing H) : Option (SymbolTable H) :=
  symtab.addThingAtOffset 0 name item

/-- No item is defined under the name in the current namespace. -/
def ensureIsUnique (symtab : SymbolTable H) (name : Path) : Bool :=
  match symtab.root.get (symtab.ns ++ name) with
  | none => true
  | some id => (symtab.thing id).isNone && (symtab.typeSymbol id).isNone

def addUniqueThing (symtab : SymbolTable H) (name : Path) (item : Thing H) :
    Option (SymbolTable H) :=
  if symtab.ensureIsUnique name then symtab.addThing name item else none

def addTypeWithId (symtab : SymbolTable H) (id : ℕ) (name : Path) (t : H.TypeSymbol) :
    Option (SymbolTable H) :=
  let fullName := symtab.ns ++ name
  let nameId : NameID := ⟨id, fullName.tail⟩
  if (symtab.typeSymbol nameId).isSome then none
  else { symtab with types := (id, t) :: symtab.types }.insertSymbol 0 fullName nameId

def addType (symtab : SymbolTable H) (name : Path) (t : H.TypeSymbol) : Option (SymbolTable H) :=
  { symtab with nextId := symtab.nextId + 1 }.addTypeWithId symtab.nextId name t

def addUniqueType (symtab : SymbolTable H) (name : Path) (t : H.TypeSymbol) :
    Option (SymbolTable H) :=
  if symtab.ensureIsUnique name then symtab.addType name t else none

def reAddType (symtab : SymbolTable H) (name : String) (nameId : NameID) :
    Option (SymbolTable H) :=
  if (symtab.typeSymbol nameId).isSome then
    symtab.insertSymbol 0 (symtab.ns ++ [name]) nameId
  else none

/-- A `use` of `target` under the name `name`. -/
def addAlias (symtab : SymbolTable H) (name target : Path) : Option (SymbolTable H) :=
  if symtab.ensureIsUnique name then
    let absolutePath :=
      match target.libRelative with
      | some libRelative => symtab.baseNamespace ++ libRelative
      | none => target
    symtab.addThing name (.alias absolutePath symtab.ns)
  else none

/-- The tables that a sequence of operations builds from an empty one. -/
inductive Reachable : SymbolTable H → Prop
  | new : Reachable new
  | newScope {symtab} : Reachable symtab → Reachable symtab.newScope
  | closeScope {symtab symtab'} :
      Reachable symtab → symtab.closeScope = some symtab' → Reachable symtab'
  | pushNamespace {symtab} (newIdent : String) :
      Reachable symtab → Reachable (symtab.pushNamespace newIdent)
  | popNamespace {symtab symtab'} :
      Reachable symtab → symtab.popNamespace = some symtab' → Reachable symtab'
  | setBaseNamespace {symtab} (baseNamespace : Path) :
      Reachable symtab → Reachable (symtab.setBaseNamespace baseNamespace)
  | addThingWithIdAtOffset {symtab symtab'} {offset id : ℕ} {name : Path} {item : Thing H} :
      Reachable symtab → symtab.addThingWithIdAtOffset offset id name item = some symtab' →
      Reachable symtab'
  | addThingWithNameId {symtab} (nameId : NameID) (item : Thing H) :
      Reachable symtab → Reachable (symtab.addThingWithNameId nameId item)
  | addThingAtOffset {symtab symtab'} {offset : ℕ} {name : Path} {item : Thing H} :
      Reachable symtab → symtab.addThingAtOffset offset name item = some symtab' →
      Reachable symtab'
  | addUniqueThing {symtab symtab'} {name : Path} {item : Thing H} :
      Reachable symtab → symtab.addUniqueThing name item = some symtab' → Reachable symtab'
  | addTypeWithId {symtab symtab'} {id : ℕ} {name : Path} {t : H.TypeSymbol} :
      Reachable symtab → symtab.addTypeWithId id name t = some symtab' → Reachable symtab'
  | addType {symtab symtab'} {name : Path} {t : H.TypeSymbol} :
      Reachable symtab → symtab.addType name t = some symtab' → Reachable symtab'
  | addUniqueType {symtab symtab'} {name : Path} {t : H.TypeSymbol} :
      Reachable symtab → symtab.addUniqueType name t = some symtab' → Reachable symtab'
  | reAddType {symtab symtab'} {name : String} {nameId : NameID} :
      Reachable symtab → symtab.reAddType name nameId = some symtab' → Reachable symtab'
  | addAlias {symtab symtab'} {name target : Path} :
      Reachable symtab → symtab.addAlias name target = some symtab' → Reachable symtab'

/-! ### Lookups of an id -/

/-- The innermost symbol with the path. -/
def localId (symtab : SymbolTable H) (path : Path) : Option NameID :=
  (symtab.inner ++ [symtab.root]).findSome? fun scope => scope.get path

/-- The paths that an alias at the front of `name` stands for are looked up, except for `name`
itself. -/
def tryLookupExpanded (lookup : Path → Option (Option NameID)) (name fullPath : Path)
    (pathInNamespace : Path) : Option (Option NameID) :=
  if pathInNamespace = name then
    if fullPath = name then some none else lookup fullPath
  else if fullPath = name then lookup pathInNamespace
  else
    (lookup pathInNamespace).bind fun id =>
      match id with
      | some id => some (some id)
      | none => lookup fullPath

/-- The body of `try_lookup_id`, where `lookup` stands for the recursive calls. -/
def tryLookupStep (symtab : SymbolTable H) (lookup : Path → Option (Option NameID))
    (name : Path) : Option (Option NameID) :=
  match name.libRelative with
  | some libRelative => some (symtab.root.get (symtab.baseNamespace ++ libRelative))
  | none =>
    match symtab.localId (symtab.ns ++ name) with
    | some id => some (some id)
    | none =>
      match name with
      | baseName :: restHead :: restTail =>
        (lookup [baseName]).bind fun aliasId =>
          match aliasId.bind symtab.thing with
          | some (.alias aliasPath inNamespace) =>
            -- `mod a {use x;}` is `x` in the one, and `a::x` in the other
            let fullPath := aliasPath ++ restHead :: restTail
            let pathInNamespace := inNamespace ++ fullPath
            tryLookupExpanded lookup name fullPath pathInNamespace
          | _ => some (symtab.root.get name)
      | _ => some (symtab.root.get name)

def tryLookupId (symtab : SymbolTable H) : ℕ → Path → Option (Option NameID)
  | 0, _ => none
  | fuel + 1, name => symtab.tryLookupStep (symtab.tryLookupId fuel) name

def lookupId (symtab : SymbolTable H) (fuel : ℕ) (name : Path) :
    Option (Except (LookupError H) NameID) :=
  (symtab.tryLookupId fuel name).map fun id =>
    match id with
    | some id => .ok id
    | none => .error (.noSuchSymbol name)

def hasSymbol (symtab : SymbolTable H) (fuel : ℕ) (name : Path) : Option Bool :=
  (symtab.lookupId fuel name).map Except.isOk

def lookupVariable (symtab : SymbolTable H) (fuel : ℕ) (name : Path) :
    Option (Except (LookupError H) NameID) :=
  (symtab.lookupId fuel name).map fun id =>
    id.bind fun id =>
      match symtab.thing id with
      | some (.variable _) => .ok id
      | some other => .error (.notAVariable name other)
      | none =>
        match symtab.typeSymbol id with
        | some _ => .error (.isAType name)
        | none => .error (.notAThing name)

def tryLookupVariable (symtab : SymbolTable H) (fuel : ℕ) (name : Path) :
    Option (Except (LookupError H) (Option NameID)) :=
  (symtab.tryLookupId fuel name).map fun id =>
    match id with
    | some id =>
      match symtab.thing id with
      | some (.variable _) => .ok (some id)
      | some other => .error (.notAVariable name other)
      | none =>
        match symtab.typeSymbol id with
        | some _ => .error (.isAType name)
        | none => .ok none
    | none => .ok none

/-! ### Lookups of an item -/

/-- What a lookup that follows aliases does with the symbol that it finds. -/
inductive Verdict (E R : Type) where
  | done (result : Except E R)
  | alias (path : Path) (inNamespace : Path)
  | panic

/-- A lookup that follows aliases. -/
structure Seek (H : HeadTypes) (E R : Type) where
  /-- The error for a path without a symbol. -/
  missing : Path → E
  verdict : SymbolTable H → Path → NameID → Verdict E R
  /-- The error of a lookup that failed behind an alias. -/
  rename : Path → E → E

/-- One call of the lookup of `seek`, where `lookup` stands for the recursive calls: the target of
an alias is looked up as it is written, and if that fails from the namespace of the alias. -/
def followStep {E R : Type} (seek : Seek H E R) (symtab : SymbolTable H)
    (lookup : Path → Option (Except E R)) (name : Path) (id : Option NameID) :
    Option (Except E R) :=
  match id with
  | none => some (.error (seek.missing name))
  | some id =>
    match seek.verdict symtab name id with
    | .done result => some result
    | .alias path inNamespace =>
      (lookup path).bind fun result =>
        match result with
        | .ok found => some (.ok found)
        | .error _ => (lookup (inNamespace ++ path)).map (Except.mapError (seek.rename name))
    | .panic => none

def follow {E R : Type} (symtab : SymbolTable H) (seek : Seek H E R) :
    ℕ → Path → Option (Except E R)
  | 0, _ => none
  | fuel + 1, name =>
    (symtab.tryLookupId fuel name).bind (followStep seek symtab (symtab.follow seek fuel) name)

/-- `thing_accessors`: lookups of the things that `convert` accepts. -/
def seekThing {R : Type} (convert : Thing H → Option R)
    (err : Path → Thing H → LookupError H) : Seek H (LookupError H) (NameID × R) where
  missing := .noSuchSymbol
  rename := LookupError.withPath
  verdict symtab name id :=
    match symtab.thing id with
    | some (.alias path inNamespace) => .alias path inNamespace
    | some thing =>
      match convert thing with
      | some result => .done (.ok (id, result))
      | none => .done (.error (err name thing))
    | none =>
      match symtab.typeSymbol id with
      | some _ => .done (.error (.isAType name))
      | none => .done (.error (.notAThing name))

def seekUnit : Seek H (LookupError H) (NameID × UnitHead H) :=
  seekThing
    (fun thing =>
      match thing with
      | .unit head => some head
      | .enumVariant variant => some variant.asUnitHead
      | .struct s => some s.asUnitHead
      | _ => none)
    .notAUnit

def seekEnumVariant : Seek H (LookupError H) (NameID × EnumVariant H) :=
  seekThing
    (fun thing =>
      match thing with
      | .enumVariant variant => some variant
      | _ => none)
    .notAnEnumVariant

def seekPatternableType : Seek H (LookupError H) (NameID × Patternable H) :=
  seekThing
    (fun thing =>
      match thing with
      | .enumVariant variant => some ⟨.enum, variant.params⟩
      | .struct variant => some ⟨.struct, variant.params⟩
      | _ => none)
    .notAPatternableType

def seekStruct : Seek H (LookupError H) (NameID × StructCallable H) :=
  seekThing
    (fun thing =>
      match thing with
      | .struct s => some s
      | _ => none)
    .notAStruct

def seekComptimeConfig : Seek H (LookupError H) (NameID × ℤ) :=
  seekThing
    (fun thing =>
      match thing with
      | .comptimeConfig val => some val
      | _ => none)
    .notAComptimeValue

def seekTrait : Seek H (LookupError H) (NameID × String) :=
  seekThing
    (fun thing =>
      match thing with
      | .trait t => some t
      | _ => none)
    .notATrait

def seekTypeSymbol : Seek H (LookupError H) (NameID × H.TypeSymbol) where
  missing := .noSuchSymbol
  rename _ e := e
  verdict symtab name id :=
    match symtab.typeSymbol id with
    | some tsym => .done (.ok (id, tsym))
    | none =>
      match symtab.thing id with
      | some (.alias path inNamespace) => .alias path inNamespace
      | some thing => .done (.error (.notATypeSymbol name thing))
      | none => .panic

/-- A symbol of any kind behind all aliases. -/
def seekFinalId : Seek H Unit NameID where
  missing _ := ()
  rename _ e := e
  verdict symtab _ id :=
    match symtab.thing id with
    | some (.alias path inNamespace) => .alias path inNamespace
    | _ => .done (.ok id)

def lookupUnit (symtab : SymbolTable H) := symtab.follow seekUnit

def lookupEnumVariant (symtab : SymbolTable H) := symtab.follow seekEnumVariant

def lookupPatternableType (symtab : SymbolTable H) := symtab.follow seekPatternableType

def lookupStruct (symtab : SymbolTable H) := symtab.follow seekStruct

def lookupComptimeConfig (symtab : SymbolTable H) := symtab.follow seekComptimeConfig

def lookupTrait (symtab : SymbolTable H) := symtab.follow seekTrait

def lookupTypeSymbol (symtab : SymbolTable H) := symtab.follow seekTypeSymbol

def tryLookupFinalId (symtab : SymbolTable H) (fuel : ℕ) (name : Path) :
    Option (Option NameID) :=
  (symtab.follow seekFinalId fuel name).map Except.toOption

end SymbolTable

end Spade.Hir

import Spade.AstLowering.Syntax
import Spade.Lib.FailingRuns

/-!
# The context of lowering

`Context` from `spade-ast-lowering`. What the functions of the lowering push and pop by hand is its
`Frame`: the open scopes of the symbol table, its namespace and `self_ctx`. The functions that push
and pop nothing are `Check`s: they may read the whole context, fail or panic, but they are not given
the frame to change. The lowered items are left out, but for the parts that decide what the lowering
does next.
-/

namespace Spade.AstLowering

open Spade.Lib
open Spade.Hir (Path)

/-- A diagnostic, by its message. -/
abbrev Diagnostic : Type := String

inductive TraitName where
  | named (name : NameID)
  | anonymous (id : ℕ)
  deriving DecidableEq, Repr

inductive SelfContext (P : Parts) where
  /-- `self` currently does not refer to anything. -/
  | freeStanding
  /-- `self` refers to a type in an impl block for that type. -/
  | implBlock (target : P.HirTypeSpec)
  /-- `self` refers to a trait implementor. -/
  | traitDefinition (name : TraitName)

/-- What is pushed and popped by hand. -/
@[ext]
structure Frame (P : Parts) where
  /-- The number of open scopes. -/
  scopes : ℕ
  ns : Path
  selfCtx : SelfContext P

/-- `Context`. The ids of names below `nextId` have been given out; `rest` is what the context holds
besides: the symbols, the item list and the other trackers of ids. -/
structure Context (P : Parts) (R : Type) extends Frame P where
  nextId : ℕ
  rest : R

/-- A function that opens and closes nothing: its result, how many ids of names it takes and what it
leaves in the rest of the context. `none` is a panic. -/
def Check (P : Parts) (R α : Type) : Type :=
  Context P R → Option (Except Diagnostic α × ℕ × R)

/-- `TypeSpecKind`. -/
inductive TypeSpecKind where
  | argument | outputType | enumMember | structMember | implTrait | implTarget | bindingType
  | turbofish | pipelineDepth | traitBound
  deriving DecidableEq, Repr

/-- What `visit_unit` reads of a unit in the symbol table. -/
structure UnitSymbol where
  id : NameID
  inputs : List String
  typeParams : List (String × NameID)

/-- The items of `add_unique_thing`. -/
inductive Thing (P : Parts) where
  | module (name : String)
  | comptimeConfig (val : ℤ)
  | alias (path : Path)
  | trait (name : String)
  | unit (head : UnitHead P)

/-- The functions that open and close nothing, under their own names. -/
structure Checks (P : Parts) where
  /-- The context besides its frame. -/
  Rest : Type
  /- The symbol table. -/
  setBaseNamespace : Path → Rest → Rest
  ensureIsUnique : Path → Check P Rest PUnit
  /-- `add_thing_with_id`. -/
  addThingWithId : NameID → Path → Thing P → Check P Rest PUnit
  addUniqueType : Path → TypeDeclaration P → Check P Rest PUnit
  addType : Path → TypeParam P → Check P Rest PUnit
  reAddType : String → NameID → Check P Rest PUnit
  addAlias : Path → Path → Check P Rest PUnit
  addLocalVariable : String → Check P Rest PUnit
  addDeclaration : String → Check P Rest PUnit
  addEnumVariant : TypeDeclaration P → String → Check P Rest PUnit
  addStruct : TypeDeclaration P → Check P Rest PUnit
  lookupId : Path → Check P Rest PUnit
  lookupUnit : Path → Check P Rest UnitSymbol
  lookupCallee : Path → Check P Rest PUnit
  lookupTypeSymbol : Path → Check P Rest PUnit
  lookupTrait : P.TraitSpec → Check P Rest NameID
  lookupComptimeConfig : Path → Check P Rest ℤ
  /-- The type symbol is generic. -/
  isGeneric : Path → Check P Rest Bool
  /- Types and patterns. -/
  visitTypeParam : TypeParam P → Check P Rest PUnit
  reVisitTypeParam : TypeParam P → Check P Rest PUnit
  visitTypeSpec : TypeSpec P → TypeSpecKind → Check P Rest P.HirTypeSpec
  visitTypeExpression : P.TypeExpression → TypeSpecKind → Check P Rest PUnit
  visitTraitSpec : P.TraitSpec → TypeSpecKind → Check P Rest PUnit
  visitWhereClauses : List P.WhereClause → Check P Rest PUnit
  visitPattern : P.Pattern → Check P Rest PUnit
  visitTurbofish : P.Turbofish → Check P Rest PUnit
  isPort : TypeSpec P → Check P Rest Bool
  /- Expressions and units. -/
  /-- `visit_expression` at an identifier. -/
  visitIdentifier : Path → Check P Rest PUnit
  /-- The name of a reference to a pipeline stage. -/
  lookupStageName : String → Check P Rest PUnit
  /-- The state of `#[fsm]` on a pattern. -/
  lookupFsmState : Option String → P.Pattern → Check P Rest PUnit
  checkForUndefined : Check P Rest PUnit
  maybePerformPipeliningTasks : UnitDef P → Check P Rest PUnit
  /- Impl blocks. -/
  nextImplId : Check P Rest ℕ
  checkGenericParamsMatchTraitDef : TraitName → ImplBlock P → Check P Rest PUnit
  checkIsNoFunctionOnPortType : UnitDef P → ImplBlock P → Check P Rest PUnit
  checkTypeParamsForImplMethod : UnitDef P → TraitName → Check P Rest PUnit
  monomorphiseTraitMethod : UnitDef P → TraitName → ImplBlock P → Check P Rest PUnit
  checkOutputTypeForImplMethod : UnitDef P → TraitName → Check P Rest PUnit
  checkParamsForImplMethod : UnitDef P → TraitName → Check P Rest PUnit
  checkNoMissingMethods : ImplBlock P → List String → Check P Rest PUnit
  /- The item list. -/
  addTrait : TraitName → List (UnitHead P) → Check P Rest PUnit
  /-- `get_trait`: the names of the methods of a trait. -/
  getTrait : TraitName → Check P Rest (Option (List String))
  /-- Adds an impl, unless there is one of the same trait for the same target. -/
  addImpl : ImplBlock P → TraitName → Check P Rest PUnit
  addTypeDeclaration : TypeDeclaration P → Check P Rest PUnit
  addModule : String → Check P Rest PUnit
  addExecutable : NameID → Check P Rest PUnit

variable {P : Parts}

/-- Functions of the lowering. -/
abbrev Lower (C : Checks P) : Type → Type := Failing (Context P C.Rest) Diagnostic

namespace Context

variable {R : Type}

def newScope (c : Context P R) : Context P R := { c with scopes := c.scopes + 1 }

def closeScope (c : Context P R) : Context P R := { c with scopes := c.scopes - 1 }

def pushNamespace (c : Context P R) (newIdent : String) : Context P R :=
  { c with ns := c.ns ++ [newIdent] }

/-- `none` is a panic. -/
def popNamespace (c : Context P R) : Option (Context P R) :=
  if c.ns = [] then none else some { c with ns := c.ns.dropLast }

def setSelf (c : Context P R) (selfCtx : SelfContext P) : Context P R :=
  { c with selfCtx := selfCtx }

end Context

variable {C : Checks P}

/-- Runs a check, which leaves the frame alone. -/
def check {α : Type} (f : Check P C.Rest α) : Lower C α :=
  ExceptT.mk fun c => (f c).map fun p =>
    (p.1, { c with nextId := c.nextId + p.2.1, rest := p.2.2 })

def newScope : Lower C PUnit := modify Context.newScope

def closeScope : Lower C PUnit := modify Context.closeScope

/-- `m` between a `newScope` and a `closeScope`. When `m` fails, `closeScope` is not reached. -/
def inScope {α : Type} (m : Lower C α) : Lower C α := do
  newScope
  let result ← m
  closeScope
  return result

def pushNamespace (newIdent : String) : Lower C PUnit := modify (·.pushNamespace newIdent)

def popNamespace : Lower C PUnit :=
  ExceptT.mk fun c => c.popNamespace.map fun d => (.ok ⟨⟩, d)

def setSelf (selfCtx : SelfContext P) : Lower C PUnit := modify (·.setSelf selfCtx)

/-- `add_unique_thing`. -/
def addUniqueThing (name : Path) (item : Thing P) : Lower C NameID := do
  check (C.ensureIsUnique name)
  let c ← get
  let id : NameID := ⟨c.nextId, (c.ns ++ name).tail⟩
  modify fun c => { c with nextId := c.nextId + 1 }
  check (C.addThingWithId id name item)
  return id

/-- `maybe_unpack` of a `ComptimeCondition`. -/
def maybeUnpack {τ : Type} (condition : Condition) (onTrue : τ) (onFalse : Option τ) :
    Lower C (Option τ) := do
  let varVal ← check (C.lookupComptimeConfig condition.var)
  return if condition.op.holds varVal condition.val then some onTrue else onFalse

/-- `maybe_unpack` of a `MaybeComptime`. -/
def MaybeComptime.maybeUnpack {τ : Type} : MaybeComptime τ → Lower C (Option τ)
  | .raw inner => pure (some inner)
  | .comptime condition onTrue onFalse => AstLowering.maybeUnpack condition onTrue onFalse

end Spade.AstLowering

import Spade.AstLowering.Units

/-!
# The passes over a module

The three passes over the items of a module: `gather_types` and `gather_symbols` from
`global_symbols.rs`, and `visit_item` with `visit_module_body` from `lib.rs`. The driver runs one
pass over all modules, each in its namespace, and goes on with the next module when one fails.

* **Contexts that the driver meets** (`Reachable`): what calls of the passes leave, from the first
  context on.
* **Runs of the driver** (`Drives`): the calls of a pass, one module after the other.
-/

namespace Spade.AstLowering

open Spade.Lib Spade.Lib.Failing
open Spade.Hir (Path)

variable {P : Parts} (C : Checks P)

/-- `m` in the namespace `name`, which is left also when `m` fails. -/
def inNamespace {α : Type} (name : String) (m : Lower C α) : Lower C α := do
  pushNamespace name
  let result ← attempt m
  popNamespace
  liftExcept result

mutual

/-- `gather_types`. -/
def gatherTypes : List (Item P) → Lower C PUnit
  | [] => pure ⟨⟩
  | item :: items => do
    gatherItemTypes item
    gatherTypes items

/-- What `gather_types` does at one item. -/
def gatherItemTypes : Item P → Lower C PUnit
  | .type t => visitTypeDeclaration C t
  | .module name members => do
    let _ ← addUniqueThing (C := C) [name] (.module name)
    inNamespace C name (gatherTypes members)
  | .config cfg => do
    let _ ← addUniqueThing (C := C) [cfg.name] (.comptimeConfig cfg.val)
  | .use u => check (C.addAlias [u.aliasName.getD u.path.tail] u.path)
  | .implBlock _ | .unit _ | .traitDef _ => pure ⟨⟩

end

mutual

/-- `gather_symbols`. -/
def gatherSymbols : List (Item P) → Lower C PUnit
  | [] => pure ⟨⟩
  | item :: items => do
    GlobalSymbols.visitItem item
    gatherSymbols items

/-- `visit_item` of the global symbols. -/
def GlobalSymbols.visitItem : Item P → Lower C PUnit
  | .unit e => GlobalSymbols.visitUnit C [] e none
  | .traitDef t => do
    let name ← addUniqueThing (C := C) [t.name] (.trait t.name)
    createTraitFromUnitHeads C (.named name) t.typeParams t.whereClauses t.methods
  | .type t => reVisitTypeDeclaration C t
  | .module name members => inNamespace C name (gatherSymbols members)
  | .implBlock _ | .use _ | .config _ => pure ⟨⟩

end

/-- The lowered items of a member are added to the item list. -/
def addExecutables : List HirItem → Lower C PUnit
  | [] => pure ⟨⟩
  | .unit name :: items | .builtin name :: items => do
    check (C.addExecutable name)
    addExecutables items

/-- What `visit_module` does before the body. -/
def enterModule (name : String) : Lower C PUnit := do
  let c ← get
  check (C.lookupId c.ns)
  check (C.addModule name)

mutual

/-- `visit_item`. -/
def visitItem : Item P → Lower C (List HirItem)
  | .unit u => do
    let item ← visitUnit C [] u none
    return [item]
  | .implBlock block => visitImpl C block
  | .module name members => inNamespace C name do
    enterModule C name
    visitModuleBody members
    return []
  | .use s => do
    check (C.lookupId s.path)
    return []
  | .traitDef _ | .type _ | .config _ => pure []

/-- `visit_module_body`. -/
def visitModuleBody : List (Item P) → Lower C PUnit
  | [] => pure ⟨⟩
  | i :: is => do
    let items ← visitItem i
    addExecutables C items
    visitModuleBody is

end

/-! ### The driver -/

/-- The calls that a pass makes. -/
inductive Call (P : Parts) where
  | gatherTypes (body : ModuleBody P)
  | gatherSymbols (body : ModuleBody P)
  | visitItem (item : Item P)
  | visitModuleBody (body : ModuleBody P)

def Call.run : Call P → Lower C PUnit
  | .gatherTypes body => AstLowering.gatherTypes C body
  | .gatherSymbols body => AstLowering.gatherSymbols C body
  | .visitItem item => do
    let _ ← AstLowering.visitItem C item
  | .visitModuleBody body => AstLowering.visitModuleBody C body

/-- The place of a module: its namespace and the one that `lib` stands for. -/
structure ModuleNamespace where
  ns : Path
  baseNamespace : Path

namespace Context

def enterNamespace (c : Context P C.Rest) (place : ModuleNamespace) : Context P C.Rest :=
  let d := place.ns.foldl pushNamespace c
  { d with rest := C.setBaseNamespace place.baseNamespace d.rest }

/-- Pops as many identifiers as were pushed. -/
def leaveNamespace (c : Context P C.Rest) (place : ModuleNamespace) : Option (Context P C.Rest) :=
  place.ns.foldlM (fun d _ => d.popNamespace) { c with rest := C.setBaseNamespace [] c.rest }

end Context

/-- The contexts in which the passes are called. What the driver does between calls leaves the frame
alone but for the namespace. -/
inductive Reachable : Context P C.Rest → Prop
  | first {c : Context P C.Rest} (hs : c.scopes = 1) (hn : c.ns = [])
      (hself : c.selfCtx = .freeStanding) : Reachable c
  | push {c : Context P C.Rest} (hc : Reachable c) (newIdent : String) :
      Reachable (c.pushNamespace newIdent)
  | pop {c d : Context P C.Rest} (hc : Reachable c) (h : c.popNamespace = some d) : Reachable d
  | other {c : Context P C.Rest} (hc : Reachable c) {nextId : ℕ} (hn : c.nextId ≤ nextId)
      (rest : C.Rest) : Reachable { c with nextId, rest }
  | call {c d : Context P C.Rest} (hc : Reachable c) {call : Call P} {r : Except Diagnostic PUnit}
      (h : Runs (call.run C) c r d) : Reachable d

/-- The driver makes calls in their namespaces, whether they fail or not; `ok` is a condition on the
calls and their contexts. -/
inductive Drives (ok : Context P C.Rest → Call P → Prop) :
    Context P C.Rest → List (ModuleNamespace × Call P) → Context P C.Rest → Prop
  | done (c : Context P C.Rest) : Drives ok c [] c
  | step {c d d' e : Context P C.Rest} {place : ModuleNamespace} {call : Call P}
      {calls : List (ModuleNamespace × Call P)} {r : Except Diagnostic PUnit}
      (hok : ok (c.enterNamespace C place) call)
      (h : Runs (call.run C) (c.enterNamespace C place) r d)
      (hd : d.leaveNamespace C place = some d') (hrest : Drives ok d' calls e) :
      Drives ok c ((place, call) :: calls) e
  | other {c e : Context P C.Rest} {calls : List (ModuleNamespace × Call P)} {nextId : ℕ}
      (hn : c.nextId ≤ nextId) (rest : C.Rest)
      (hrest : Drives ok { c with nextId, rest } calls e) : Drives ok c calls e

end Spade.AstLowering

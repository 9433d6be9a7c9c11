import Spade.AstLowering.Expressions

/-!
# Lowering of units, traits, impl blocks and types

The functions of `spade-ast-lowering` that open a scope for an item. The part of a function that
runs while its scope is open is a definition of its own (`…InScope`). Messages are given without the
names of traits.
-/

namespace Spade.AstLowering

open Spade.Lib Spade.Lib.Failing
open Spade.Hir (Path)

variable {P : Parts} (C : Checks P)

/-! ### Heads of units -/

/-- The parameters of a `visit_parameter_list`; `argNames` are the names met so far. -/
def visitParameters (argNames : List String) : List (String × TypeSpec P) → Lower C PUnit
  | [] => pure ⟨⟩
  | (name, inputType) :: args => do
    if name ∈ argNames then throw "Multiple arguments with the same name"
    let _ ← check (C.visitTypeSpec inputType .argument)
    visitParameters (name :: argNames) args

def visitParameterList (l : ParameterList P) : Lower C PUnit := do
  let c ← get
  match c.selfCtx, l.takesSelf with
  | .implBlock _, false => throw "Method must take 'self' as the first parameter"
  | .freeStanding, true => throw "'self' cannot be used in free standing units"
  | _, _ => visitParameters C [] l.args

/-- The check for ports in the arguments of a function; the last port counts. -/
def checkPorts (portError : Except Diagnostic PUnit) :
    List (String × TypeSpec P) → Lower C (Except Diagnostic PUnit)
  | [] => pure portError
  | (_, ty) :: args => do
    let c ← get
    match c.selfCtx, ty.isSelf with
    | .traitDefinition _, true => checkPorts portError args
    | _, _ =>
      if ← check (C.isPort ty) then checkPorts (.error "Port argument in function") args
      else checkPorts portError args

def visitUnitKind : UnitKind P → Lower C PUnit
  | .function | .entity => pure ⟨⟩
  | .pipeline depth => do
    match ← depth.maybeUnpack (C := C) with
    | none => throw "Missing pipeline depth"
    | some t => check (C.visitTypeExpression t .pipelineDepth)

/-- What `unit_head` holds back until the scope is closed. -/
structure HeadErrors where
  port : Except Diagnostic PUnit
  whereClauses : Except Diagnostic PUnit
  unitKind : Except Diagnostic PUnit

def unitHeadInScope (head : UnitHead P) (scopeTypeParams : Option (List (TypeParam P))) :
    Lower C HeadErrors := do
  forM (scopeTypeParams.getD []) fun p => check (C.reVisitTypeParam p)
  forM (head.typeParams.getD []) fun p => check (C.visitTypeParam p)
  let whereClauses ← attempt (check (C.visitWhereClauses head.whereClauses))
  visitOptionalType C .outputType head.outputType
  visitParameterList C head.inputs
  let port ←
    match head.unitKind with
    | .function => checkPorts C (.ok ⟨⟩) head.inputs.args
    | _ => pure (.ok ⟨⟩)
  let unitKind ← attempt (visitUnitKind C head.unitKind)
  return { port, whereClauses, unitKind }

def unitHead (head : UnitHead P) (scopeTypeParams : Option (List (TypeParam P))) :
    Lower C PUnit := do
  let errors ← inScope (unitHeadInScope C head scopeTypeParams)
  liftExcept errors.port
  liftExcept errors.whereClauses
  liftExcept errors.unitKind

/-- `visit_unit` of the global symbols. -/
def GlobalSymbols.visitUnit (extraPath : Path) (unit : UnitDef P)
    (scopeTypeParams : Option (List (TypeParam P))) : Lower C PUnit := do
  unitHead C unit.head scopeTypeParams
  let _ ← addUniqueThing (C := C) (extraPath ++ [unit.head.name]) (.unit unit.head)

/-! ### Bodies of units -/

/-- `hir::Item`. -/
inductive HirItem where
  | unit (name : NameID)
  | builtin (name : NameID)

def visitUnitAttribute (unit : UnitDef P) (scopeTypeParams : Option (List (TypeParam P)))
    (attr : Attribute P) : Lower C PUnit :=
  match attr with
  | .optimize _ => pure ⟨⟩
  | .noMangle =>
    if unit.head.typeParams.isSome then throw "no_mangle is not allowed on generic units"
    else if scopeTypeParams.isSome then
      throw "no_mangle is not allowed on units inside generic impls"
    else pure ⟨⟩
  | .walSuffix _ =>
    if unit.body.isNone then throw "wal_suffix is not allowed on __builtin__ units" else pure ⟨⟩
  | _ => throw (reportUnused attr "a unit")

/-- Some attribute asks for a suffix on the inputs. -/
def hasWalSuffix (attributes : List (Attribute P)) : Bool :=
  attributes.any fun
    | .walSuffix _ => true
    | _ => false

/-- The part of `visit_unit` that every unit goes through. -/
def unitSymbolInScope (extraPath : Path) (unit : UnitDef P)
    (scopeTypeParams : Option (List (TypeParam P))) : Lower C UnitSymbol := do
  let symbol ← check (C.lookupUnit (extraPath ++ [unit.head.name]))
  forM unit.head.attributes (visitUnitAttribute C unit scopeTypeParams)
  return symbol

def unitBodyInScope (unit : UnitDef P) (symbol : UnitSymbol) (body : Expression P) :
    Lower C PUnit := do
  forM symbol.inputs fun ident => check (C.addLocalVariable ident)
  forM symbol.typeParams fun param => check (C.reAddType param.1 param.2)
  check (C.maybePerformPipeliningTasks unit)
  let kind ← visitExpression C body
  if hasWalSuffix unit.head.attributes && kind ≠ .block then throw "Unit body was not block"
  check C.checkForUndefined

def visitUnit (extraPath : Path) (unit : UnitDef P)
    (scopeTypeParams : Option (List (TypeParam P))) : Lower C HirItem := do
  newScope
  let symbol ← unitSymbolInScope C extraPath unit scopeTypeParams
  match unit.body with
  -- a builtin returns here, and the scope stays open
  | none => return .builtin symbol.id
  | some body =>
    unitBodyInScope C unit symbol body
    closeScope
    return .unit symbol.id

/-! ### Traits -/

/-- `visit_meta_type`. -/
def visitMetaType (metaType : String) : Lower C PUnit :=
  if metaType = "int" ∨ metaType = "uint" ∨ metaType = "type" then pure ⟨⟩
  else throw "\x7bmeta\x7d is not a valid meta-type"

/-- The bounds or the meta type of a type parameter. -/
def visitTypeParamBounds : TypeParam P → Lower C PUnit
  | .typeName _ traits => forM traits fun t => check (C.visitTraitSpec t .traitBound)
  | .typeWithMeta metaType _ => visitMetaType C metaType

def visitTraitTypeParam (param : TypeParam P) : Lower C PUnit := do
  visitTypeParamBounds C param
  check (C.addType [param.name] param)
  visitTypeParamBounds C param

def traitInScope (name : TraitName) (typeParams : Option (List (TypeParam P)))
    (whereClauses : List P.WhereClause) (heads : List (UnitHead P)) : Lower C PUnit := do
  forM (typeParams.getD []) (visitTraitTypeParam C)
  check (C.visitWhereClauses whereClauses)
  setSelf (.traitDefinition name)
  forM heads fun head => unitHead C head typeParams
  check (C.addTrait name heads)

/-- `self_ctx` stays at the trait. -/
def createTraitFromUnitHeads (name : TraitName) (typeParams : Option (List (TypeParam P)))
    (whereClauses : List P.WhereClause) (heads : List (UnitHead P)) : Lower C PUnit :=
  inScope (traitInScope C name typeParams whereClauses heads)

/-! ### Impl blocks -/

/-- The trait that a block implements: the named one or an anonymous one made of its units. -/
def implTrait (block : ImplBlock P) (implBlockId : ℕ) : Lower C TraitName :=
  match block.trait with
  | some traitSpec => do
    let name ← check (C.lookupTrait traitSpec)
    check (C.visitTraitSpec traitSpec .implTrait)
    return .named name
  | none => do
    createTraitFromUnitHeads C (.anonymous implBlockId) block.typeParams block.whereClauses
      (block.units.map (·.head))
    forM (block.typeParams.getD []) fun param => check (C.lookupTypeSymbol [param.name])
    return .anonymous implBlockId

def checkIsTraitMethod (traitMethods : List String) (unit : UnitDef P) : Lower C PUnit :=
  if unit.head.name ∈ traitMethods then pure ⟨⟩
  else throw s!"`{unit.head.name}` is not a member of the trait"

/-- A method has a body and a name of its own. -/
def checkImplItem (previous : List String) (unit : UnitDef P) (item : HirItem) : Lower C PUnit :=
  match item with
  | .unit _ =>
    if unit.head.name ∈ previous then throw s!"Multiple definitions of {unit.head.name}"
    else pure ⟨⟩
  | .builtin _ => throw "Methods cannot be __builtin__"

/-- One method of a block; `previous` are the names of the ones before it. -/
def visitImplUnit (block : ImplBlock P) (implBlockId : ℕ) (traitName : TraitName)
    (traitMethods previous : List String) (unit : UnitDef P) : Lower C HirItem := do
  checkIsTraitMethod C traitMethods unit
  check (C.checkIsNoFunctionOnPortType unit block)
  let pathSuffix : Path := [s!"impl_{implBlockId}"]
  GlobalSymbols.visitUnit C pathSuffix unit block.typeParams
  let item ← visitUnit C pathSuffix unit block.typeParams
  checkImplItem C previous unit item
  check (C.checkTypeParamsForImplMethod unit traitName)
  check (C.monomorphiseTraitMethod unit traitName block)
  check (C.checkOutputTypeForImplMethod unit traitName)
  check (C.checkParamsForImplMethod unit traitName)
  return item

def visitImplUnits (block : ImplBlock P) (implBlockId : ℕ) (traitName : TraitName)
    (traitMethods previous : List String) : List (UnitDef P) → Lower C (List HirItem)
  | [] => pure []
  | unit :: units => do
    let item ← visitImplUnit C block implBlockId traitName traitMethods previous unit
    let items ← visitImplUnits block implBlockId traitName traitMethods
      (unit.head.name :: previous) units
    return item :: items

/-- The target of an impl block gets the name `Self`. -/
def implTarget (block : ImplBlock P) : Lower C Path :=
  match block.target with
  | .named path _ => do
    check (C.addAlias ["Self"] path)
    return path
  | _ => throw "Impl target is not a named type"

def checkImplTarget (targetPath : Path) : Lower C PUnit := do
  if ← check (C.isGeneric targetPath) then
    throw "Impl blocks cannot currently be used on generic types"

/-- The part of `visit_impl` that runs when the trait is known. -/
def implMethods (block : ImplBlock P) (implBlockId : ℕ) (traitName : TraitName) (targetPath : Path)
    (traitMethods : List String) : Lower C (List HirItem) := do
  check (C.checkGenericParamsMatchTraitDef traitName block)
  checkImplTarget C targetPath
  let targetTypeSpec ← check (C.visitTypeSpec block.target .implTarget)
  setSelf (.implBlock targetTypeSpec)
  let result ← visitImplUnits C block implBlockId traitName traitMethods [] block.units
  check (C.checkNoMissingMethods block
    (traitMethods.filter fun m => m ∉ block.units.map (·.head.name)))
  let _ ← check (C.visitTypeSpec block.target .implTarget)
  check (C.addImpl block traitName)
  return result

def implInScope (block : ImplBlock P) : Lower C (List HirItem) := do
  let targetPath ← implTarget C block
  forM (block.typeParams.getD []) fun param => check (C.visitTypeParam param)
  check (C.visitWhereClauses block.whereClauses)
  let implBlockId ← check C.nextImplId
  let traitName ← implTrait C block implBlockId
  match ← check (C.getTrait traitName) with
  | none => throw "Failed to find trait in the item list"
  | some traitMethods => implMethods C block implBlockId traitName targetPath traitMethods

def visitImpl (block : ImplBlock P) : Lower C (List HirItem) :=
  inScope do
    let result ← implInScope C block
    setSelf .freeStanding
    return result

/-! ### Type declarations -/

/-- `visit_type_declaration`. -/
def visitTypeDeclaration (t : TypeDeclaration P) : Lower C PUnit := do
  forM (t.genericArgs.getD []) (visitTypeParamBounds C)
  check (C.addUniqueType [t.name] t)

/-- The members of a variant of an enum. -/
def visitEnumMembers : List (String × TypeSpec P) → Lower C PUnit
  | [] => pure ⟨⟩
  | (_, ty) :: args => do
    let _ ← check (C.visitTypeSpec ty .enumMember)
    if ← check (C.isPort ty) then throw "Port in enum"
    visitEnumMembers args

def visitEnumOption (t : TypeDeclaration P) (option : String × Option (ParameterList P)) :
    Lower C PUnit := do
  match option.2 with
  | none => pure ⟨⟩
  | some l =>
    visitParameterList C l
    if l.takesSelf then throw "enum member contains self"
    visitEnumMembers C l.args
  check (C.addEnumVariant t option.1)

def visitEnumOptions (t : TypeDeclaration P) (memberNames : List String) :
    List (String × Option (ParameterList P)) → Lower C PUnit
  | [] => pure ⟨⟩
  | option :: options => do
    if option.1 ∈ memberNames then throw s!"Multiple options called {option.1}"
    visitEnumOption C t option
    visitEnumOptions t (option.1 :: memberNames) options

/-- The members of a struct are ports exactly if the struct is one. -/
def visitStructMembers (structIsPort : Bool) : List (String × TypeSpec P) → Lower C PUnit
  | [] => pure ⟨⟩
  | (_, ty) :: args => do
    let _ ← check (C.visitTypeSpec ty .structMember)
    let isPort ← check (C.isPort ty)
    match structIsPort, isPort with
    | true, false => throw "Non-port in port struct"
    | false, true => throw "Port in non-port struct"
    | _, _ => visitStructMembers structIsPort args

def visitStructAttribute (attr : Attribute P) : Lower C PUnit :=
  match attr with
  | .walTraceable .. => pure ⟨⟩
  | _ => throw (reportUnused attr "struct")

def visitTypeDeclKind (t : TypeDeclaration P) : Lower C PUnit :=
  match t.kind with
  | .enum _ options => visitEnumOptions C t [] options
  | .struct attributes _ members isPort => do
    if members.takesSelf then
      throw "struct contains self member which was let through parser"
    visitStructMembers C isPort members.args
    visitParameterList C members
    check (C.addStruct t)
    forM attributes (visitStructAttribute C)

def typeInScope (t : TypeDeclaration P) : Lower C PUnit := do
  forM (t.genericArgs.getD []) fun param => do
    visitTypeParamBounds C param
    check (C.addType [param.name] param)
  forM (t.genericArgs.getD []) fun arg => do
    check (C.lookupTypeSymbol [arg.name])
    visitTypeParamBounds C arg
  visitTypeDeclKind C t

/-- `re_visit_type_declaration`. -/
def reVisitTypeDeclaration (t : TypeDeclaration P) : Lower C PUnit := do
  check (C.lookupTypeSymbol [t.name])
  inScope (typeInScope C t)
  check (C.addTypeDeclaration t)

end Spade.AstLowering

import Spade.Hir.SymbolTable
import Spade.Hir.TypeSubstitution

/-!
# Methods of trait implementations

How `visit_impl` of `spade-ast-lowering/src/lib.rs` checks a method of an impl block against the
method of the trait: `monomorphise_trait_method` and the functions that compare the two heads. A
diagnostic is kept by its message.

* **Monomorphisation** (`monomorphiseTypeSpec_spec`): the trait's type is the one in which the
  generics stand for what the trait specification and the method say, and `Self` is left, unless
  something else than a type stands for a generic.
* **Methods** (`checkImplMethod_iff`): the check of a method is right unless an integer stands for a
  generic, `Self` is inside of a type of a method that matches, or a method differs from the trait's
  in nothing but the arguments of the target.
-/

namespace Spade.Hir

/-- `TraitDef`, without its methods. -/
structure TraitDef where
  typeParams : Option (List TypeParam)

/-- `TraitSpec`. -/
structure TraitSpec where
  name : Spade.TraitName
  typeParams : Option (List TypeExpression)

end Spade.Hir

namespace Spade.AstLowering

open Hir (HeadTypes TraitSpec TypeExpression)

/-! ### Heads -/

/-- `Parameter`. -/
structure Parameter where
  name : String
  ty : Hir.TypeSpec

/-- What the heads of methods are made of. -/
abbrev methodTypes : HeadTypes where
  TypeSpec := Hir.TypeSpec
  ParameterList := List Parameter
  TypeParam := Hir.TypeParam
  TypeExpression := TypeExpression
  WhereClause := PUnit
  TypeSymbol := PUnit

/-- The `UnitHead` of a method. -/
abbrev MethodHead := Hir.UnitHead methodTypes

namespace MethodHead

/-- `output_type`. -/
def resultType (head : MethodHead) : Hir.TypeSpec := head.outputType.getD .unit

/-- The types of the parameters and of the result. -/
def types (head : MethodHead) : List Hir.TypeSpec :=
  head.resultType :: head.inputs.map Parameter.ty

end MethodHead

/-- A refused method: by an internal error (`Diagnostic::bug`), by an error of the user or by a
panic. -/
inductive Refusal where
  | bug (message : String)
  | error (message : String)
  | panics
  deriving DecidableEq, Repr

/-- Not an error of the user. -/
def Refusal.IsInternal : Refusal → Prop
  | error _ => False
  | bug _ | panics => True

/-! ### Generics -/

/-- `check_generic_params_match_trait_def`. -/
def checkGenericParamsMatchTraitDef (traitDef : Hir.TraitDef) (traitSpec : TraitSpec) :
    Except Refusal Unit :=
  match traitDef.typeParams, traitSpec.typeParams with
  | some genericParams, some genericSpec =>
      if genericParams.length ≠ genericSpec.length then
        .error (.error "Wrong number of generic type parameters")
      else .ok ()
  | some _, none =>
      match traitSpec.name with
      | .named name => .error (.error ("Raw use of generic trait " ++ name.tail))
      | .anonymous _ =>
          .error (.bug "Generic anonymous trait found, which should not be possible here")
  | none, some _ =>
      match traitSpec.name with
      | .named _ =>
          .error (.error "Generic type parameters specified for non-generic trait")
      | .anonymous _ =>
          .error (.bug ("Generic type parameters specified for anonymous trait, " ++
            "which should not be possible"))
  | none, none => .ok ()

/-- The type parameters of the trait and of its method, and what stands for them by position. -/
structure TypeParams where
  traitTypeParams : List Hir.TypeParam
  traitMethodTypeParams : List Hir.TypeParam
  implTypeParams : List TypeExpression
  implMethodTypeParams : List TypeExpression

/-- The type that an expression for a generic has to be. -/
def expectTypeSpec : Option TypeExpression → Except Refusal Hir.TypeSpec
  | some (.typeSpec spec) => .ok spec
  | some (.integer _) =>
      .error (.bug "Expected a TypeExpression::TypeSpec, found TypeExpression::Integer")
  | some (.constGeneric _) => .error (.bug "Const generic in impl head")
  | none => .error .panics

/-- The branch of `monomorphise_type_spec` for a generic. -/
def monomorphiseGeneric (ps : TypeParams) (name : NameID) : Except Refusal Hir.TypeSpec :=
  match ps.traitTypeParams.findIdx? fun tp => decide (tp.nameId = name) with
  | some paramIdx => expectTypeSpec ps.implTypeParams[paramIdx]?
  | none =>
      match ps.traitMethodTypeParams.findIdx? fun tp => decide (tp.nameId = name) with
      | some paramIdx => expectTypeSpec ps.implMethodTypeParams[paramIdx]?
      | none => .error (.bug ("Could not find type parameter " ++ name.tail ++
          " in trait or trait method."))

mutual

/-- `monomorphise_type_spec`. -/
def monomorphiseTypeSpec (ps : TypeParams) : Hir.TypeSpec → Except Refusal Hir.TypeSpec
  | .declared name te => do return .declared name (← monomorphiseTypeExprs ps te)
  | .generic name => monomorphiseGeneric ps name
  | .tuple specs => do return .tuple (← monomorphiseTypeSpecs ps specs)
  | .array inner size => do
      let monoInner ← monomorphiseTypeSpec ps inner
      let monoSize ← monomorphiseTypeExpr ps size
      return .array monoInner monoSize
  | .backward inner => do return .backward (← monomorphiseTypeSpec ps inner)
  | .inverted inner => do return .inverted (← monomorphiseTypeSpec ps inner)
  | .wire inner => do return .wire (← monomorphiseTypeSpec ps inner)
  | ty => return ty

/-- `monomorphise_type_expr`. -/
def monomorphiseTypeExpr (ps : TypeParams) : TypeExpression → Except Refusal TypeExpression
  | .integer val => return .integer val
  | .typeSpec s => do return .typeSpec (← monomorphiseTypeSpec ps s)
  | .constGeneric _ => .error (.bug "Const generic in impl head")

def monomorphiseTypeSpecs (ps : TypeParams) :
    List Hir.TypeSpec → Except Refusal (List Hir.TypeSpec)
  | [] => return []
  | spec :: specs => do
      return (← monomorphiseTypeSpec ps spec) :: (← monomorphiseTypeSpecs ps specs)

def monomorphiseTypeExprs (ps : TypeParams) :
    List TypeExpression → Except Refusal (List TypeExpression)
  | [] => return []
  | te :: tes => do return (← monomorphiseTypeExpr ps te) :: (← monomorphiseTypeExprs ps tes)

end

/-- The parameter with its type monomorphised. -/
def monomorphiseParameter (ps : TypeParams) (param : Parameter) : Except Refusal Parameter := do
  return { param with ty := ← monomorphiseTypeSpec ps param.ty }

/-- The type parameters that `monomorphise_trait_method` replaces, and by what. -/
def methodTypeParams (traitMethod implMethod : MethodHead) (traitDef : Hir.TraitDef)
    (traitSpec : TraitSpec) : TypeParams where
  traitTypeParams := traitDef.typeParams.getD []
  traitMethodTypeParams := traitMethod.unitTypeParams
  implTypeParams := traitSpec.typeParams.getD []
  implMethodTypeParams :=
    implMethod.unitTypeParams.map fun param => .typeSpec (.generic param.nameId)

/-- The output type of a method, monomorphised. -/
def monomorphiseOutput (ps : TypeParams) :
    Option Hir.TypeSpec → Except Refusal (Option Hir.TypeSpec)
  | some ty => do return some (← monomorphiseTypeSpec ps ty)
  | none => return none

/-- `monomorphise_trait_method`. -/
def monomorphiseTraitMethod (traitMethod implMethod : MethodHead) (traitDef : Hir.TraitDef)
    (traitSpec : TraitSpec) : Except Refusal MethodHead := do
  let ps := methodTypeParams traitMethod implMethod traitDef traitSpec
  let inputs ← traitMethod.inputs.mapM (monomorphiseParameter ps)
  let outputType ← monomorphiseOutput ps traitMethod.outputType
  return { traitMethod with inputs := inputs, outputType := outputType }

/-! ### Checks -/

/-- The ending of a noun after the number. -/
def pluralSuffix (n : ℕ) : String := if n ≠ 1 then "s" else ""

/-- `check_type_params_for_impl_method_and_trait_method_match`. -/
def checkTypeParams (implMethod traitMethod : MethodHead) : Except Refusal Unit :=
  if implMethod.unitTypeParams.length ≠ traitMethod.unitTypeParams.length then
    if implMethod.unitTypeParams.isEmpty then
      .error (.error ("Missing type parameter" ++ pluralSuffix traitMethod.unitTypeParams.length ++
        " on impl of generic method"))
    else if traitMethod.unitTypeParams.isEmpty then
      .error (.error ("Unexpected type parameter" ++
        pluralSuffix implMethod.unitTypeParams.length ++ " on impl of non-generic method"))
    else .error (.error "Wrong number of generic type parameters")
  else .ok ()

/-- `check_output_type_for_impl_method_and_trait_method_matches`. -/
def checkOutputType (implMethod traitMethod : MethodHead) (targetName : NameID) :
    Except Refusal Unit :=
  if implMethod.resultType ≠ traitMethod.resultType then
    let returnsTraitSelf := traitMethod.resultType = .traitSelf
    let implOutputType :=
      match implMethod.resultType with
      | .declared name _ => some name
      | .generic name => some name
      | _ => none
    if ¬(returnsTraitSelf ∧ implOutputType = some targetName) then
      .error (.error "Return type does not match trait")
    else .ok ()
  else .ok ()

/-- The name of a declared type. -/
def declaredName : Hir.TypeSpec → Option NameID
  | .declared name _ => some name
  | _ => none

/-- `check_params_for_impl_method_and_trait_method_match`. -/
def checkParams (targetName : NameID) : List Parameter → List Parameter → Except Refusal Unit
  | i :: is, t :: ts =>
      if i.name ≠ t.name then .error (.error "Argument name mismatch")
      else if ¬(t.ty = .traitSelf ∧ declaredName i.ty = some targetName) ∧ t.ty ≠ i.ty then
        .error (.error "Argument type mismatch")
      else checkParams targetName is ts
  | _ :: _, [] => .error (.error "Trait method does not have this argument")
  | [], t :: _ => .error (.error ("Missing argument " ++ t.name))
  | [], [] => .ok ()

/-- The checks that `visit_impl` makes for a method of the impl block. -/
def checkImplMethod (traitDef : Hir.TraitDef) (traitSpec : TraitSpec) (targetName : NameID)
    (traitMethod implMethod : MethodHead) : Except Refusal Unit := do
  checkTypeParams implMethod traitMethod
  let traitMethodMono ← monomorphiseTraitMethod traitMethod implMethod traitDef traitSpec
  checkOutputType implMethod traitMethodMono targetName
  checkParams targetName implMethod.inputs traitMethodMono.inputs

/-! ### What monomorphisation does -/

/-- What stands for a generic in the impl block. -/
def TypeParams.assigned (ps : TypeParams) (name : NameID) : Option TypeExpression :=
  match ps.traitTypeParams.findIdx? fun tp => decide (tp.nameId = name) with
  | some paramIdx => ps.implTypeParams[paramIdx]?
  | none =>
      match ps.traitMethodTypeParams.findIdx? fun tp => decide (tp.nameId = name) with
      | some paramIdx => ps.implMethodTypeParams[paramIdx]?
      | none => none

/-- The assignment of the generics, with a type for `Self`. -/
def TypeParams.assignment (ps : TypeParams) (self : Hir.TypeSpec) : Hir.Assignment where
  generic := ps.assigned
  self := self

variable {ps : TypeParams}

theorem expectTypeSpec_cases (e : Option TypeExpression) :
    (∃ spec, e = some (.typeSpec spec) ∧ expectTypeSpec e = .ok spec) ∨
      (∀ spec, e ≠ some (.typeSpec spec)) ∧
        ∃ refusal, expectTypeSpec e = .error refusal ∧ refusal.IsInternal := by
  rcases e with _ | val | spec | inner
  · exact Or.inr ⟨by simp, _, rfl, trivial⟩
  · exact Or.inr ⟨by simp, _, rfl, trivial⟩
  · exact Or.inl ⟨spec, rfl, rfl⟩
  · exact Or.inr ⟨by simp, _, rfl, trivial⟩

theorem monomorphiseGeneric_cases (ps : TypeParams) (name : NameID) :
    (∃ spec, ps.assigned name = some (.typeSpec spec) ∧ monomorphiseGeneric ps name = .ok spec) ∨
      (∀ spec, ps.assigned name ≠ some (.typeSpec spec)) ∧
        ∃ refusal, monomorphiseGeneric ps name = .error refusal ∧ refusal.IsInternal := by
  rw [monomorphiseGeneric, TypeParams.assigned]
  cases ps.traitTypeParams.findIdx? fun tp => decide (tp.nameId = name) with
  | some paramIdx => exact expectTypeSpec_cases _
  | none =>
      cases ps.traitMethodTypeParams.findIdx? fun tp => decide (tp.nameId = name) with
      | some paramIdx => exact expectTypeSpec_cases _
      | none => exact Or.inr ⟨by simp, _, rfl, trivial⟩

/-- No const generic is a part, and the parts that are generics stand for types. -/
def TypeParams.AssignsTypes (ps : TypeParams) (parts : List TypeExpression) : Prop :=
  (∀ name, .typeSpec (.generic name) ∈ parts → ∃ spec, ps.assigned name = some (.typeSpec spec)) ∧
    ∀ inner, .constGeneric inner ∉ parts

/-- The result is what the substitution gives if all generics stand for types, or else an internal
error. -/
def Monomorphises {α : Type} (ps : TypeParams) (parts : List TypeExpression)
    (result : Except Refusal α) (subst : Option α) : Prop :=
  (ps.AssignsTypes parts ∧ ∃ a, result = .ok a ∧ subst = some a) ∨
    ¬ ps.AssignsTypes parts ∧ ∃ refusal, result = .error refusal ∧ refusal.IsInternal

namespace Monomorphises

variable {α β γ : Type} {parts parts' : List TypeExpression}

theorem ok (a : α) (h : ps.AssignsTypes parts) : Monomorphises ps parts (.ok a) (some a) :=
  Or.inl ⟨h, a, rfl, rfl⟩

theorem map {result : Except Refusal α} {subst : Option α} (h : Monomorphises ps parts result subst)
    (hparts : ps.AssignsTypes parts' ↔ ps.AssignsTypes parts) (f : α → β) :
    Monomorphises ps parts' (do return f (← result)) (subst.map f) := by
  rw [Monomorphises, hparts]
  rcases h with ⟨h, a, rfl, rfl⟩ | ⟨h, refusal, rfl, hinternal⟩
  · exact Or.inl ⟨h, f a, rfl, rfl⟩
  · exact Or.inr ⟨h, refusal, rfl, hinternal⟩

theorem map₂ {left : Except Refusal α} {right : Except Refusal β} {subst : Option α}
    {subst' : Option β} {whole : List TypeExpression} (h : Monomorphises ps parts left subst)
    (h' : Monomorphises ps parts' right subst')
    (hparts : ps.AssignsTypes whole ↔ ps.AssignsTypes parts ∧ ps.AssignsTypes parts')
    (f : α → β → γ) :
    Monomorphises ps whole (do return f (← left) (← right))
      (do some (f (← subst) (← subst'))) := by
  rw [Monomorphises, hparts]
  rcases h with ⟨h, a, rfl, rfl⟩ | ⟨h, refusal, rfl, hinternal⟩
  · rcases h' with ⟨h', b, rfl, rfl⟩ | ⟨h', refusal, rfl, hinternal⟩
    · exact Or.inl ⟨⟨h, h'⟩, f a b, rfl, rfl⟩
    · exact Or.inr ⟨fun hboth => h' hboth.2, refusal, rfl, hinternal⟩
  · exact Or.inr ⟨fun hboth => h hboth.1, refusal, rfl, hinternal⟩

end Monomorphises

theorem assignsTypes_cons {e : TypeExpression} {parts : List TypeExpression}
    (hgeneric : ∀ name, e ≠ .typeSpec (.generic name)) (hconst : ∀ inner, e ≠ .constGeneric inner) :
    ps.AssignsTypes (e :: parts) ↔ ps.AssignsTypes parts := by
  simp [TypeParams.AssignsTypes, (hgeneric _).symm, (hconst _).symm]

theorem assignsTypes_append {parts parts' : List TypeExpression} :
    ps.AssignsTypes (parts ++ parts') ↔ ps.AssignsTypes parts ∧ ps.AssignsTypes parts' := by
  simp only [TypeParams.AssignsTypes, List.mem_append, not_or, or_imp, forall_and]
  exact and_and_and_comm

theorem assignsTypes_singleton {e : TypeExpression}
    (hgeneric : ∀ name, e ≠ .typeSpec (.generic name))
    (hconst : ∀ inner, e ≠ .constGeneric inner) : ps.AssignsTypes [e] := by
  rw [assignsTypes_cons hgeneric hconst]
  exact ⟨fun _ h => absurd h List.not_mem_nil, fun _ => List.not_mem_nil⟩

mutual

/-- **Monomorphisation.** -/
theorem monomorphiseTypeSpec_spec (ps : TypeParams) : ∀ ty : Hir.TypeSpec,
    Monomorphises ps ty.parts (monomorphiseTypeSpec ps ty) (ty.subst (ps.assignment .traitSelf))
  | .declared name te =>
      (monomorphiseTypeExprs_spec ps te).map (assignsTypes_cons (by simp) (by simp)) _
  | .generic name => by
      rcases monomorphiseGeneric_cases ps name with ⟨spec, hassigned, hmono⟩ | ⟨hnone, hmono⟩
      · refine Or.inl ⟨⟨fun name' hname => ?_, by simp [Hir.TypeSpec.parts]⟩, spec, hmono, ?_⟩
        · obtain rfl : name' = name := by simpa [Hir.TypeSpec.parts] using hname
          exact ⟨spec, hassigned⟩
        · simp [Hir.TypeSpec.subst, TypeParams.assignment, hassigned]
      · refine Or.inr ⟨fun h => ?_, hmono⟩
        obtain ⟨spec, hassigned⟩ := h.1 name (List.mem_singleton_self _)
        exact hnone spec hassigned
  | .tuple specs =>
      (monomorphiseTypeSpecs_spec ps specs).map (assignsTypes_cons (by simp) (by simp)) _
  | .array inner size =>
      (monomorphiseTypeSpec_spec ps inner).map₂ (monomorphiseTypeExpr_spec ps size)
        ((assignsTypes_cons (by simp) (by simp)).trans assignsTypes_append) _
  | .unit => .ok _ (assignsTypes_singleton (by simp) (by simp))
  | .backward inner =>
      (monomorphiseTypeSpec_spec ps inner).map (assignsTypes_cons (by simp) (by simp)) _
  | .inverted inner =>
      (monomorphiseTypeSpec_spec ps inner).map (assignsTypes_cons (by simp) (by simp)) _
  | .wire inner =>
      (monomorphiseTypeSpec_spec ps inner).map (assignsTypes_cons (by simp) (by simp)) _
  | .traitSelf => .ok _ (assignsTypes_singleton (by simp) (by simp))
  | .wildcard => .ok _ (assignsTypes_singleton (by simp) (by simp))

theorem monomorphiseTypeExpr_spec (ps : TypeParams) : ∀ te : TypeExpression,
    Monomorphises ps te.parts (monomorphiseTypeExpr ps te) (te.subst (ps.assignment .traitSelf))
  | .integer val => .ok _ (assignsTypes_singleton (by simp) (by simp))
  | .typeSpec s => by
      rcases monomorphiseTypeSpec_spec ps s with
        ⟨h, spec, hmono, hsubst⟩ | ⟨h, refusal, hmono, hinternal⟩
      · refine Or.inl ⟨h, .typeSpec spec, ?_, TypeExpression.subst_typeSpec hsubst⟩
        rw [monomorphiseTypeExpr, hmono]
        rfl
      · refine Or.inr ⟨h, refusal, ?_, hinternal⟩
        rw [monomorphiseTypeExpr, hmono]
        rfl
  | .constGeneric inner =>
      Or.inr ⟨fun h => h.2 inner (List.mem_singleton_self _), _, rfl, trivial⟩

theorem monomorphiseTypeSpecs_spec (ps : TypeParams) : ∀ specs : List Hir.TypeSpec,
    Monomorphises ps (Hir.TypeSpec.partsAll specs) (monomorphiseTypeSpecs ps specs)
      (Hir.TypeSpec.substAll (ps.assignment .traitSelf) specs)
  | [] => .ok _ ⟨fun _ h => absurd h List.not_mem_nil, fun _ => List.not_mem_nil⟩
  | spec :: specs =>
      (monomorphiseTypeSpec_spec ps spec).map₂ (monomorphiseTypeSpecs_spec ps specs)
        assignsTypes_append _

theorem monomorphiseTypeExprs_spec (ps : TypeParams) : ∀ tes : List TypeExpression,
    Monomorphises ps (TypeExpression.partsAll tes) (monomorphiseTypeExprs ps tes)
      (TypeExpression.substAll (ps.assignment .traitSelf) tes)
  | [] => .ok _ ⟨fun _ h => absurd h List.not_mem_nil, fun _ => List.not_mem_nil⟩
  | te :: tes =>
      (monomorphiseTypeExpr_spec ps te).map₂ (monomorphiseTypeExprs_spec ps tes)
        assignsTypes_append _

end

/-! ### The head of a method -/

/-- Two heads have parameters of the same names whose types are related, and so are the types of the
results. -/
def HeadsMatch (R : Hir.TypeSpec → Hir.TypeSpec → Prop) (implMethod traitMethod : MethodHead) :
    Prop :=
  R implMethod.resultType traitMethod.resultType ∧
    List.Forall₂ (fun i t => i.name = t.name ∧ R i.ty t.ty) implMethod.inputs traitMethod.inputs

theorem monomorphiseParameters_spec (ps : TypeParams) (params : List Parameter) :
    (ps.AssignsTypes (Hir.TypeSpec.partsAll (params.map Parameter.ty)) ∧
      ∃ params', params.mapM (monomorphiseParameter ps) = .ok params' ∧
        List.Forall₂ (fun p p' => p'.name = p.name ∧
          p.ty.subst (ps.assignment .traitSelf) = some p'.ty) params params') ∨
    ¬ ps.AssignsTypes (Hir.TypeSpec.partsAll (params.map Parameter.ty)) ∧
      ∃ refusal, params.mapM (monomorphiseParameter ps) = .error refusal ∧ refusal.IsInternal := by
  induction params with
  | nil =>
      exact Or.inl ⟨⟨fun _ h => absurd h List.not_mem_nil, fun _ => List.not_mem_nil⟩,
        [], rfl, .nil⟩
  | cons param params ih =>
      rw [List.map_cons, Hir.TypeSpec.partsAll, assignsTypes_append, List.mapM_cons,
        monomorphiseParameter]
      rcases monomorphiseTypeSpec_spec ps param.ty with
        ⟨h, ty, hmono, hsubst⟩ | ⟨h, refusal, hmono, hinternal⟩
      · rcases ih with ⟨hs, params', hmonos, hsubsts⟩ | ⟨hs, refusal, hmonos, hinternal⟩
        · exact Or.inl ⟨⟨h, hs⟩, { param with ty := ty } :: params', by rw [hmono, hmonos]; rfl,
            .cons ⟨rfl, hsubst⟩ hsubsts⟩
        · exact Or.inr ⟨fun hboth => hs hboth.2, refusal, by rw [hmono, hmonos]; rfl, hinternal⟩
      · exact Or.inr ⟨fun hboth => h hboth.1, refusal, by rw [hmono]; rfl, hinternal⟩

theorem monomorphiseOutput_spec (ps : TypeParams) (output : Option Hir.TypeSpec) :
    (ps.AssignsTypes (output.getD .unit).parts ∧ ∃ output', monomorphiseOutput ps output =
      .ok output' ∧ (output.getD .unit).subst (ps.assignment .traitSelf) =
        some (output'.getD .unit)) ∨
    ¬ ps.AssignsTypes (output.getD .unit).parts ∧
      ∃ refusal, monomorphiseOutput ps output = .error refusal ∧ refusal.IsInternal := by
  cases output with
  | none => exact Or.inl ⟨assignsTypes_singleton (by simp) (by simp), none, rfl, rfl⟩
  | some ty =>
      rw [monomorphiseOutput]
      rcases monomorphiseTypeSpec_spec ps ty with
        ⟨h, ty', hmono, hsubst⟩ | ⟨h, refusal, hmono, hinternal⟩
      · exact Or.inl ⟨h, some ty', by rw [hmono]; rfl, hsubst⟩
      · exact Or.inr ⟨h, refusal, by rw [hmono]; rfl, hinternal⟩

variable {traitDef : Hir.TraitDef} {traitSpec : TraitSpec} {targetName : NameID}
  {traitMethod implMethod : MethodHead}

/-- The head that the impl method is compared with. -/
theorem monomorphiseTraitMethod_spec (ps : TypeParams)
    (hps : methodTypeParams traitMethod implMethod traitDef traitSpec = ps) :
    (ps.AssignsTypes (Hir.TypeSpec.partsAll traitMethod.types) ∧
      ∃ mono, monomorphiseTraitMethod traitMethod implMethod traitDef traitSpec = .ok mono ∧
        HeadsMatch (fun m t => t.subst (ps.assignment .traitSelf) = some m) mono traitMethod) ∨
    ¬ ps.AssignsTypes (Hir.TypeSpec.partsAll traitMethod.types) ∧
      ∃ refusal, monomorphiseTraitMethod traitMethod implMethod traitDef traitSpec =
        .error refusal ∧ refusal.IsInternal := by
  rw [MethodHead.types, Hir.TypeSpec.partsAll, assignsTypes_append, monomorphiseTraitMethod, hps]
  rcases monomorphiseParameters_spec ps traitMethod.inputs with
    ⟨hs, params', hmonos, hsubsts⟩ | ⟨hs, refusal, hmonos, hinternal⟩
  · have hinputs : List.Forall₂ (fun p t => p.name = t.name ∧
        t.ty.subst (ps.assignment .traitSelf) = some p.ty) params' traitMethod.inputs :=
      hsubsts.flip
    rcases monomorphiseOutput_spec ps traitMethod.outputType with
      ⟨h, output, hmono, hsubst⟩ | ⟨h, refusal, hmono, hinternal⟩
    · exact Or.inl ⟨⟨h, hs⟩, { traitMethod with inputs := params', outputType := output },
        by rw [hmonos]; exact congrArg (fun r => do
          return { traitMethod with inputs := params', outputType := ← r }) hmono, hsubst, hinputs⟩
    · exact Or.inr ⟨fun hboth => h hboth.1, refusal, by rw [hmonos]; exact congrArg (fun r => do
        return { traitMethod with inputs := params', outputType := ← r }) hmono, hinternal⟩
  · exact Or.inr ⟨fun hboth => hs hboth.2, refusal, by rw [hmonos]; rfl, hinternal⟩

/-! ### Comparing two heads -/

/-- A type of the impl method is accepted for the type of the monomorphised trait method. -/
def Accepted (targetName : NameID) (i m : Hir.TypeSpec) : Prop :=
  i = m ∨ m = .traitSelf ∧ declaredName i = some targetName

theorem checkTypeParams_eq
    (h : implMethod.unitTypeParams.length = traitMethod.unitTypeParams.length) :
    checkTypeParams implMethod traitMethod = .ok () := by
  rw [checkTypeParams, if_neg (not_not.mpr h)]

theorem checkOutputType_cases {mono : MethodHead}
    (hgeneric : implMethod.resultType ≠ .generic targetName) :
    (Accepted targetName implMethod.resultType mono.resultType ∧
      checkOutputType implMethod mono targetName = .ok ()) ∨
    ¬ Accepted targetName implMethod.resultType mono.resultType ∧
      ∃ message, checkOutputType implMethod mono targetName = .error (.error message) := by
  rw [checkOutputType, Accepted]
  by_cases heq : implMethod.resultType = mono.resultType
  · exact Or.inl ⟨Or.inl heq, if_neg (not_not.mpr heq)⟩
  · rw [if_pos heq]
    have hname : (match implMethod.resultType with
        | .declared name _ => some name
        | .generic name => some name
        | _ => none) = some targetName ↔ declaredName implMethod.resultType = some targetName := by
      generalize implMethod.resultType = i at hgeneric
      cases i <;> simp_all [declaredName]
    by_cases h : mono.resultType = .traitSelf ∧ declaredName implMethod.resultType = some targetName
    · exact Or.inl ⟨Or.inr h, if_neg (not_not.mpr ⟨h.1, hname.mpr h.2⟩)⟩
    · refine Or.inr ⟨fun haccepted => ?_, _, if_pos fun hboth => h ⟨hboth.1, hname.mp hboth.2⟩⟩
      exact haccepted.elim heq h

theorem checkParams_cases (is ts : List Parameter) :
    (List.Forall₂ (fun i t => i.name = t.name ∧ Accepted targetName i.ty t.ty) is ts ∧
      checkParams targetName is ts = .ok ()) ∨
    ¬ List.Forall₂ (fun i t => i.name = t.name ∧ Accepted targetName i.ty t.ty) is ts ∧
      ∃ message, checkParams targetName is ts = .error (.error message) := by
  induction is generalizing ts with
  | nil =>
      cases ts with
      | nil => exact Or.inl ⟨.nil, rfl⟩
      | cons t ts => exact Or.inr ⟨by simp, _, rfl⟩
  | cons i is ih =>
      cases ts with
      | nil => exact Or.inr ⟨by simp, _, rfl⟩
      | cons t ts =>
          rw [List.forall₂_cons, checkParams]
          by_cases hname : i.name = t.name
          · rw [if_neg (not_not.mpr hname)]
            by_cases haccepted : Accepted targetName i.ty t.ty
            · rw [if_neg fun h => haccepted.elim (fun heq => h.2 heq.symm) h.1]
              rcases ih ts with ⟨h, hcheck⟩ | ⟨h, hcheck⟩
              · exact Or.inl ⟨⟨⟨hname, haccepted⟩, h⟩, hcheck⟩
              · exact Or.inr ⟨fun hboth => h hboth.2, hcheck⟩
            · rw [if_pos ⟨fun h => haccepted (Or.inr h), fun heq => haccepted (Or.inl heq.symm)⟩]
              exact Or.inr ⟨fun hboth => haccepted hboth.1.2, _, rfl⟩
          · rw [if_pos hname]
            exact Or.inr ⟨fun hboth => hname hboth.1.1, _, rfl⟩

/-! ### Methods -/

/-- What the lowering of the two heads and of the trait specification guarantees for a method whose
number of type parameters is right. -/
structure Checkable (traitDef : Hir.TraitDef) (traitSpec : TraitSpec) (targetName : NameID)
    (traitMethod implMethod : MethodHead) : Prop where
  /-- As `visit_impl` checks before. -/
  traitParams : checkGenericParamsMatchTraitDef traitDef traitSpec = .ok ()
  methodParams : implMethod.unitTypeParams.length = traitMethod.unitTypeParams.length
  /-- The generics in the head of the trait's method are those of the trait and of the method. -/
  declared : ∀ name, .typeSpec (.generic name) ∈ Hir.TypeSpec.partsAll traitMethod.types →
    (∃ tp ∈ traitDef.typeParams.getD [], tp.nameId = name) ∨
      ∃ tp ∈ traitMethod.unitTypeParams, tp.nameId = name
  /-- Types of parameters, return types and implemented traits cannot have const generics. -/
  noConstGeneric : ∀ inner, .constGeneric inner ∉ Hir.TypeSpec.partsAll traitMethod.types ∧
    .constGeneric inner ∉ traitSpec.typeParams.getD []
  /-- Outside of a trait `Self` is a name for the target. -/
  noSelf : .typeSpec .traitSelf ∉ Hir.TypeSpec.partsAll implMethod.types ∧
    .typeSpec .traitSelf ∉ traitSpec.typeParams.getD []
  /-- The target is a declared type. -/
  target : .typeSpec (.generic targetName) ∉ Hir.TypeSpec.partsAll implMethod.types

/-- What the generics of the trait and of its method, and `Self`, stand for in an impl method. -/
def methodAssignment (traitDef : Hir.TraitDef) (traitSpec : TraitSpec) (target : Hir.TypeSpec)
    (traitMethod implMethod : MethodHead) : Hir.Assignment :=
  (methodTypeParams traitMethod implMethod traitDef traitSpec).assignment target

/-- The head of the impl method is the one of the trait's method after the substitution. -/
def SignatureMatches (σ : Hir.Assignment) : MethodHead → MethodHead → Prop :=
  HeadsMatch fun i t => t.subst σ = some i

/-- The same, but for the arguments of the target where the trait has `Self`. -/
def SignatureMatchesButArgs (σ : Hir.Assignment) (targetName : NameID) :
    MethodHead → MethodHead → Prop :=
  HeadsMatch fun i t => t.subst σ = some i ∨ t = .traitSelf ∧ ∃ args, i = .declared targetName args

/-- No integer stands for a generic in the head of the trait's method. -/
def NoIntegers (σ : Hir.Assignment) (traitMethod : MethodHead) : Prop :=
  ∀ name, .typeSpec (.generic name) ∈ Hir.TypeSpec.partsAll traitMethod.types →
    ∀ val, σ.generic name ≠ some (.integer val)

/-- `Self` stands inside of a type in the head of the trait's method. -/
def SelfInside (traitMethod : MethodHead) : Prop :=
  ∃ ty ∈ traitMethod.types, ty.SelfInside

/-- What a method and the trait's method must be for the check to be right: no integer stands for a
generic, a signature with `Self` inside of a type does not match, and any other one does not differ
in nothing but the arguments of the target. -/
structure CheckCondition (σ : Hir.Assignment) (targetName : NameID)
    (implMethod traitMethod : MethodHead) : Prop where
  noIntegers : NoIntegers σ traitMethod
  selfInside : SelfInside traitMethod → ¬ SignatureMatches σ implMethod traitMethod
  args : ¬ SelfInside traitMethod → SignatureMatchesButArgs σ targetName implMethod traitMethod →
    SignatureMatches σ implMethod traitMethod

/-- The check of a method is right: it accepts exactly the methods whose signature matches, and no
refusal is an internal error. -/
def CheckedExactly (traitDef : Hir.TraitDef) (traitSpec : TraitSpec) (targetName : NameID)
    (targetArgs : List TypeExpression) (traitMethod implMethod : MethodHead) : Prop :=
  (checkImplMethod traitDef traitSpec targetName traitMethod implMethod = .ok () ↔
    SignatureMatches (methodAssignment traitDef traitSpec (.declared targetName targetArgs)
      traitMethod implMethod) implMethod traitMethod) ∧
  ∀ refusal, checkImplMethod traitDef traitSpec targetName traitMethod implMethod =
    .error refusal → ¬ refusal.IsInternal

theorem mem_partsAll {specs : List Hir.TypeSpec} {spec : Hir.TypeSpec} {e : TypeExpression}
    (hspec : spec ∈ specs) (he : e ∈ spec.parts) : e ∈ Hir.TypeSpec.partsAll specs := by
  induction specs with
  | nil => exact absurd hspec List.not_mem_nil
  | cons spec' specs ih =>
      rcases List.mem_cons.mp hspec with rfl | hspec
      · exact List.mem_append_left _ he
      · exact List.mem_append_right _ (ih hspec)

/-- The parameters of the trait and of a checked method have something that stands for them. -/
theorem exists_assigned (h : Checkable traitDef traitSpec targetName traitMethod implMethod)
    {name : NameID}
    (hname : .typeSpec (.generic name) ∈ Hir.TypeSpec.partsAll traitMethod.types) :
    ∃ e, (methodTypeParams traitMethod implMethod traitDef traitSpec).assigned name = some e ∧
      (e ∈ traitSpec.typeParams.getD [] ∨ ∃ param, e = .typeSpec (.generic param)) := by
  have hlen : (traitSpec.typeParams.getD []).length = (traitDef.typeParams.getD []).length := by
    have hparams := h.traitParams
    rw [checkGenericParamsMatchTraitDef] at hparams
    rcases hdef : traitDef.typeParams with _ | params <;>
      rcases hspec : traitSpec.typeParams with _ | specs <;> rw [hdef, hspec] at hparams
    · rfl
    · cases hname : traitSpec.name <;> simp [hname] at hparams
    · cases hname : traitSpec.name <;> simp [hname] at hparams
    · simp only [ne_eq, ite_not] at hparams
      split_ifs at hparams with hlen
      simpa using hlen.symm
  rw [TypeParams.assigned]
  cases htrait : (methodTypeParams traitMethod implMethod traitDef
      traitSpec).traitTypeParams.findIdx? fun tp => decide (tp.nameId = name) with
  | some idx =>
      obtain ⟨hidx, -, -⟩ := List.findIdx?_eq_some_iff_getElem.mp htrait
      have hlt : idx < (traitSpec.typeParams.getD []).length := by
        rw [hlen]
        exact hidx
      exact ⟨_, List.getElem?_eq_getElem hlt, Or.inl (List.getElem_mem hlt)⟩
  | none =>
      have hnone : ∀ tp ∈ traitDef.typeParams.getD [], tp.nameId ≠ name := fun tp htp => by
        simpa using List.findIdx?_eq_none_iff.mp htrait tp htp
      obtain ⟨tp, htp, rfl⟩ := (h.declared name hname).resolve_left fun ⟨tp, htp, heq⟩ =>
        hnone tp htp heq
      cases hmethod : (methodTypeParams traitMethod implMethod traitDef
          traitSpec).traitMethodTypeParams.findIdx? fun tp' => decide (tp'.nameId = tp.nameId) with
      | none =>
          have := List.findIdx?_eq_none_iff.mp hmethod tp htp
          exact absurd this (by simp)
      | some idx =>
          obtain ⟨hidx, -, -⟩ := List.findIdx?_eq_some_iff_getElem.mp hmethod
          have hlt : idx < implMethod.unitTypeParams.length := by
            rw [h.methodParams]
            exact hidx
          refine ⟨.typeSpec (.generic implMethod.unitTypeParams[idx].nameId), ?_,
            Or.inr ⟨_, rfl⟩⟩
          simp [methodTypeParams, List.getElem?_eq_getElem hlt]

/-- A generic is an integer, or all generics stand for types. -/
theorem assignsTypes_iff (h : Checkable traitDef traitSpec targetName traitMethod implMethod)
    (target : Hir.TypeSpec) :
    (methodTypeParams traitMethod implMethod traitDef traitSpec).AssignsTypes
      (Hir.TypeSpec.partsAll traitMethod.types) ↔
    NoIntegers (methodAssignment traitDef traitSpec target traitMethod implMethod) traitMethod := by
  constructor
  · intro hassigns name hname val hval
    obtain ⟨spec, hspec⟩ := hassigns.1 name hname
    exact absurd (hspec.symm.trans hval) (by simp)
  · refine fun hnone => ⟨fun name hname => ?_, fun inner => (h.noConstGeneric inner).1⟩
    obtain ⟨e, he, hmem | ⟨param, rfl⟩⟩ := exists_assigned h hname
    · cases e with
      | integer val => exact absurd he (hnone name hname val)
      | typeSpec spec => exact ⟨spec, he⟩
      | constGeneric inner => exact absurd hmem (h.noConstGeneric inner).2
    · exact ⟨_, he⟩

/-- No generic stands for `Self`. -/
theorem assigned_ne_traitSelf
    (h : Checkable traitDef traitSpec targetName traitMethod implMethod) (name : NameID) :
    (methodTypeParams traitMethod implMethod traitDef traitSpec).assigned name ≠
      some (.typeSpec .traitSelf) := by
  intro hname
  rw [TypeParams.assigned] at hname
  split at hname
  · exact h.noSelf.2 (List.mem_of_getElem? hname)
  · split at hname
    · obtain ⟨param, -, heq⟩ := List.mem_map.mp (List.mem_of_getElem? hname)
      exact absurd heq (by simp)
    · exact absurd hname (by simp)

/-- When a type of the impl method is accepted for a type of the trait's method. -/
theorem accepted_iff (h : Checkable traitDef traitSpec targetName traitMethod implMethod)
    (targetArgs : List TypeExpression) {i m t : Hir.TypeSpec} (hi : ¬ i.HasSelf)
    (hm : t.subst ((methodTypeParams traitMethod implMethod traitDef traitSpec).assignment
      .traitSelf) = some m) :
    Accepted targetName i m ↔ ¬ t.SelfInside ∧
      (t.subst (methodAssignment traitDef traitSpec (.declared targetName targetArgs) traitMethod
        implMethod) = some i ∨ t = .traitSelf ∧ ∃ args, i = .declared targetName args) := by
  have hdeclared : declaredName i = some targetName ↔ ∃ args, i = .declared targetName args := by
    cases i <;> simp [declaredName]
  rw [Accepted, hdeclared]
  by_cases hself : t.HasSelf
  · have hmself : m.HasSelf :=
      Hir.TypeSpec.hasSelf_of_subst (List.mem_singleton_self _) t m hm hself
    have hne : i ≠ m := fun heq => hi (heq ▸ hmself)
    by_cases ht : t = .traitSelf
    · subst ht
      obtain rfl : Hir.TypeSpec.traitSelf = m := Option.some.inj hm
      have hinside : ¬ Hir.TypeSpec.traitSelf.SelfInside := fun h => h.2 rfl
      simp only [hne, hinside, Hir.TypeSpec.subst, methodAssignment, TypeParams.assignment,
        Option.some.injEq, true_and, false_or, not_false_eq_true]
      refine ⟨Or.inr, ?_⟩
      rintro (rfl | hargs)
      · exact ⟨targetArgs, rfl⟩
      · exact hargs
    · have hm' : m ≠ .traitSelf := fun heq => ht
        (Hir.TypeSpec.eq_traitSelf_of_subst (heq ▸ hm) (assigned_ne_traitSelf h))
      have hinside : t.SelfInside := ⟨hself, ht⟩
      simp [hne, hm', hinside]
  · have ht : t ≠ .traitSelf := fun heq => hself (heq ▸ List.mem_singleton_self _)
    have hm' : m ≠ .traitSelf := fun heq => ht
      (Hir.TypeSpec.eq_traitSelf_of_subst (heq ▸ hm) (assigned_ne_traitSelf h))
    have hinside : ¬ t.SelfInside := fun h => hself h.1
    have hcongr : t.subst (methodAssignment traitDef traitSpec (.declared targetName targetArgs)
        traitMethod implMethod) = some m := by
      rw [← hm]
      exact Hir.TypeSpec.subst_congr (by rfl) t hself
    simp [hm', hinside, hcongr, ht, eq_comm]

/-- The parameters and results of heads are related through a third head. -/
theorem headsMatch_congr {R R' S : Hir.TypeSpec → Hir.TypeSpec → Prop} {mono : MethodHead}
    (hmono : HeadsMatch S mono traitMethod)
    (h : ∀ i ∈ implMethod.types, ∀ m t, S m t → (R i m ↔ R' i t)) :
    HeadsMatch R implMethod mono ↔ HeadsMatch R' implMethod traitMethod := by
  refine and_congr (h _ List.mem_cons_self _ _ hmono.1) ?_
  have hinputs : ∀ i ∈ implMethod.inputs, ∀ m t, S m t → (R i.ty m ↔ R' i.ty t) :=
    fun i hi => h _ (List.mem_cons_of_mem _ (List.mem_map.mpr ⟨i, hi, rfl⟩))
  have hforall := hmono.2
  generalize implMethod.inputs = is at hinputs
  revert hforall
  generalize mono.inputs = ms
  generalize traitMethod.inputs = ts
  intro hforall
  induction hforall generalizing is with
  | nil => cases is <;> simp
  | cons hhead _ ih =>
      cases is with
      | nil => simp
      | cons i is =>
          rw [List.forall_mem_cons] at hinputs
          rw [List.forall₂_cons, List.forall₂_cons, hhead.1, hinputs.1 _ _ hhead.2]
          exact and_congr Iff.rfl (ih is hinputs.2)

theorem headsMatch_and {Q : Hir.TypeSpec → Prop} {R : Hir.TypeSpec → Hir.TypeSpec → Prop} :
    HeadsMatch (fun i t => Q t ∧ R i t) implMethod traitMethod ↔
      (∀ ty ∈ traitMethod.types, Q ty) ∧ HeadsMatch R implMethod traitMethod := by
  have hinputs : ∀ is ts : List Parameter,
      List.Forall₂ (fun i t => i.name = t.name ∧ Q t.ty ∧ R i.ty t.ty) is ts ↔
        (∀ t ∈ ts, Q t.ty) ∧ List.Forall₂ (fun i t => i.name = t.name ∧ R i.ty t.ty) is ts := by
    intro is ts
    induction is generalizing ts with
    | nil => cases ts <;> simp
    | cons i is ih =>
        cases ts with
        | nil => simp
        | cons t ts =>
            rw [List.forall₂_cons, List.forall₂_cons, ih, List.forall_mem_cons]
            tauto
  rw [HeadsMatch, HeadsMatch, hinputs, MethodHead.types, List.forall_mem_cons]
  simp only [List.forall_mem_map]
  tauto

theorem result_of_cases {P : Prop} {result : Except Refusal Unit}
    (h : (P ∧ result = .ok ()) ∨ ¬ P ∧ ∃ message, result = .error (.error message)) :
    (result = .ok () ↔ P) ∧ ∀ refusal, result = .error refusal → ¬ refusal.IsInternal := by
  rcases h with ⟨hP, rfl⟩ | ⟨hP, message, rfl⟩
  · exact ⟨iff_of_true rfl hP, fun refusal hrefusal => absurd hrefusal (by simp)⟩
  · refine ⟨iff_of_false (by simp) hP, fun refusal hrefusal => ?_⟩
    obtain rfl := Except.error.inj hrefusal
    exact id

/-- The result of the check when all generics stand for types. -/
theorem checkImplMethod_cases (h : Checkable traitDef traitSpec targetName traitMethod implMethod)
    (targetArgs : List TypeExpression)
    (hnone : NoIntegers (methodAssignment traitDef traitSpec (.declared targetName targetArgs)
      traitMethod implMethod) traitMethod) :
    (checkImplMethod traitDef traitSpec targetName traitMethod implMethod = .ok () ↔
      ¬ SelfInside traitMethod ∧ SignatureMatchesButArgs (methodAssignment traitDef traitSpec
        (.declared targetName targetArgs) traitMethod implMethod) targetName implMethod
          traitMethod) ∧
    ∀ refusal, checkImplMethod traitDef traitSpec targetName traitMethod implMethod =
      .error refusal → ¬ refusal.IsInternal := by
  obtain ⟨-, mono, hmono, hmatch⟩ | ⟨hassigns, -⟩ :=
    @monomorphiseTraitMethod_spec traitDef traitSpec traitMethod implMethod _ rfl
  case inr => exact absurd ((assignsTypes_iff h _).mpr hnone) hassigns
  have hself : ∀ i ∈ implMethod.types, ¬ i.HasSelf := fun i hi hself =>
    h.noSelf.1 (mem_partsAll hi hself)
  have hiff : HeadsMatch (Accepted targetName) implMethod mono ↔
      HeadsMatch (fun i t => ¬ t.SelfInside ∧ (t.subst (methodAssignment traitDef traitSpec
        (.declared targetName targetArgs) traitMethod implMethod) = some i ∨
          t = .traitSelf ∧ ∃ args, i = .declared targetName args)) implMethod traitMethod :=
    headsMatch_congr hmatch fun i hi m t hm => accepted_iff h targetArgs (hself i hi) hm
  have hselfInside : ¬ SelfInside traitMethod ↔ ∀ ty ∈ traitMethod.types, ¬ ty.SelfInside := by
    simp [SelfInside]
  rw [SignatureMatchesButArgs, hselfInside, ← headsMatch_and, ← hiff]
  have hrun : checkImplMethod traitDef traitSpec targetName traitMethod implMethod = (do
      checkOutputType implMethod mono targetName
      checkParams targetName implMethod.inputs mono.inputs) := by
    rw [checkImplMethod, checkTypeParams_eq h.methodParams, hmono]
    rfl
  have hgeneric : implMethod.resultType ≠ .generic targetName := fun heq =>
    h.target (mem_partsAll List.mem_cons_self (by rw [heq]; exact List.mem_singleton_self _))
  rw [hrun]
  apply result_of_cases
  rcases checkOutputType_cases hgeneric with ⟨houtput, hcheck⟩ | ⟨houtput, message, hcheck⟩
  · rw [hcheck]
    rcases checkParams_cases implMethod.inputs mono.inputs with
      ⟨hparams, hcheck⟩ | ⟨hparams, message, hcheck⟩
    · exact Or.inl ⟨⟨houtput, hparams⟩, hcheck⟩
    · exact Or.inr ⟨fun hboth => hparams hboth.2, message, hcheck⟩
  · rw [hcheck]
    exact Or.inr ⟨fun hboth => houtput hboth.1, message, rfl⟩

/-- **Methods.** -/
theorem checkImplMethod_iff (h : Checkable traitDef traitSpec targetName traitMethod implMethod)
    (targetArgs : List TypeExpression) :
    CheckedExactly traitDef traitSpec targetName targetArgs traitMethod implMethod ↔
      CheckCondition (methodAssignment traitDef traitSpec (.declared targetName targetArgs)
        traitMethod implMethod) targetName implMethod traitMethod := by
  have hloose : SignatureMatches (methodAssignment traitDef traitSpec
      (.declared targetName targetArgs) traitMethod implMethod) implMethod traitMethod →
      SignatureMatchesButArgs (methodAssignment traitDef traitSpec
        (.declared targetName targetArgs) traitMethod implMethod) targetName implMethod
          traitMethod := fun hmatch =>
    ⟨Or.inl hmatch.1, hmatch.2.imp fun _ _ hpair => ⟨hpair.1, Or.inl hpair.2⟩⟩
  by_cases hnone : NoIntegers (methodAssignment traitDef traitSpec
      (.declared targetName targetArgs) traitMethod implMethod) traitMethod
  · obtain ⟨hiff, hinternal⟩ := checkImplMethod_cases h targetArgs hnone
    rw [CheckedExactly, hiff]
    refine ⟨fun ⟨hexact, _⟩ => ⟨hnone, fun hinside hmatch => ?_, fun hinside hbut => ?_⟩,
      fun ⟨_, hinside, hargs⟩ => ⟨⟨fun ⟨hno, hbut⟩ => hargs hno hbut, fun hmatch => ?_⟩, hinternal⟩⟩
    · exact (hexact.mpr hmatch).1 hinside
    · exact hexact.mp ⟨hinside, hbut⟩
    · exact ⟨fun hself => hinside hself hmatch, hloose hmatch⟩
  · refine iff_of_false (fun hexact => ?_) fun hcond => hnone hcond.noIntegers
    obtain ⟨hassigns, -⟩ | ⟨-, refusal, hmono, hinternal⟩ := @monomorphiseTraitMethod_spec traitDef
      traitSpec traitMethod implMethod _ rfl
    · exact hnone ((assignsTypes_iff h _).mp hassigns)
    · refine hexact.2 refusal ?_ hinternal
      rw [checkImplMethod, checkTypeParams_eq h.methodParams, hmono]
      rfl

/-! ### Two methods -/

section Examples

/-- The method `fn f<U>(self, a: (T, U)) -> Self` of a trait with the parameter `T`. -/
def pairMethod : MethodHead where
  name := "f"
  inputs := [⟨"self", .traitSelf⟩, ⟨"a", .tuple [.generic ⟨1, "T"⟩, .generic ⟨2, "U"⟩]⟩]
  outputType := some .traitSelf
  unitTypeParams := [⟨⟨2, "U"⟩, .type⟩]
  scopeTypeParams := [⟨⟨1, "T"⟩, .type⟩]
  unitKind := .function .fn
  whereClauses := []

/-- The method `fn f<V>(self, a: (bool, V)) -> S<bool>` of an impl block for `S<bool>`. -/
def boolMethod : MethodHead where
  name := "f"
  inputs := [⟨"self", .declared ⟨3, "S"⟩ [.typeSpec (.declared ⟨4, "bool"⟩ [])]⟩,
    ⟨"a", .tuple [.declared ⟨4, "bool"⟩ [], .generic ⟨5, "V"⟩]⟩]
  outputType := some (.declared ⟨3, "S"⟩ [.typeSpec (.declared ⟨4, "bool"⟩ [])])
  unitTypeParams := [⟨⟨5, "V"⟩, .type⟩]
  scopeTypeParams := []
  unitKind := .function .fn
  whereClauses := []

theorem checkImplMethod_bool :
    CheckedExactly ⟨some [⟨⟨1, "T"⟩, .type⟩]⟩
      ⟨.named ⟨0, "Trait"⟩, some [.typeSpec (.declared ⟨4, "bool"⟩ [])]⟩ ⟨3, "S"⟩
      [.typeSpec (.declared ⟨4, "bool"⟩ [])] pairMethod boolMethod := by
  refine (checkImplMethod_iff ?_ _).mpr ⟨?_, ?_, ?_⟩
  · refine ⟨rfl, rfl, ?_, ?_, ?_, ?_⟩ <;>
      simp [MethodHead.types, MethodHead.resultType, pairMethod, boolMethod,
        Hir.TypeSpec.partsAll, Hir.TypeSpec.parts, TypeExpression.partsAll, TypeExpression.parts]
  · simp [NoIntegers, MethodHead.types, MethodHead.resultType, pairMethod, boolMethod,
      Hir.TypeSpec.partsAll, Hir.TypeSpec.parts, methodAssignment, methodTypeParams,
      TypeParams.assignment, TypeParams.assigned]
  · rintro ⟨ty, hty, hself, hne⟩
    simp [MethodHead.types, MethodHead.resultType, pairMethod] at hty
    rcases hty with rfl | rfl
    · exact absurd rfl hne
    · simp [Hir.TypeSpec.HasSelf, Hir.TypeSpec.parts, Hir.TypeSpec.partsAll] at hself
  · intro _ _
    simp [SignatureMatches, HeadsMatch, MethodHead.resultType, pairMethod, boolMethod,
      Hir.TypeSpec.subst, Hir.TypeSpec.substAll, methodAssignment, methodTypeParams,
      TypeParams.assignment, TypeParams.assigned]

/-- The method `fn f(self, a: uint<N>)` of a trait with the parameter `#uint N` and its
implementation for the trait specification `Trait<8>`. -/
def uintMethod (self : Hir.TypeSpec) (size : TypeExpression) : MethodHead where
  name := "f"
  inputs := [⟨"self", self⟩, ⟨"a", .declared ⟨4, "uint"⟩ [size]⟩]
  outputType := none
  unitTypeParams := []
  scopeTypeParams := []
  unitKind := .function .fn
  whereClauses := []

/-- An integer that stands for a parameter of the trait is an internal error. -/
theorem not_checkImplMethod_iff : ¬ ∀ (traitDef : Hir.TraitDef) (traitSpec : TraitSpec)
    (targetName : NameID) (targetArgs : List TypeExpression) (traitMethod implMethod : MethodHead),
    Checkable traitDef traitSpec targetName traitMethod implMethod →
      CheckedExactly traitDef traitSpec targetName targetArgs traitMethod implMethod := by
  intro h
  have hchecked := h ⟨some [⟨⟨1, "N"⟩, .uint⟩]⟩ ⟨.named ⟨0, "Trait"⟩, some [.integer 8]⟩ ⟨3, "S"⟩ []
    (uintMethod .traitSelf (.typeSpec (.generic ⟨1, "N"⟩)))
    (uintMethod (.declared ⟨3, "S"⟩ []) (.integer 8)) ⟨rfl, rfl, ?_, ?_, ?_, ?_⟩
  · exact hchecked.2 _ rfl trivial
  all_goals simp [MethodHead.types, MethodHead.resultType, uintMethod, Hir.TypeSpec.partsAll,
    Hir.TypeSpec.parts, TypeExpression.partsAll, TypeExpression.parts]

end Examples

end Spade.AstLowering

import Spade.AstLowering.Passes

/-!
# What lowering does to the frame

A function that succeeds leaves the frame as it was; one that fails may leave scopes open, and
nothing else. This holds of every function up to the bodies of units; the functions that set
`self_ctx` come last.

* **Expressions** (`visitExpression_keeps`): for every nesting of blocks and match arms.
* **Heads and types** (`unitHead_keeps`, `reVisitTypeDeclaration_keeps`).
-/

namespace Spade.AstLowering

open Spade.Lib Spade.Lib.Failing
open Spade.Hir (Path)

variable {P : Parts} {R : Type}

/-! ### The two relations -/

/-- The frame is the same, and ids of names are only given out. -/
structure Kept (c d : Context P R) : Prop where
  frame : d.toFrame = c.toFrame
  nextId : c.nextId ≤ d.nextId

/-- Scopes may have been left open. -/
structure Left (c d : Context P R) : Prop where
  scopes : c.scopes ≤ d.scopes
  ns : d.ns = c.ns
  selfCtx : d.selfCtx = c.selfCtx
  nextId : c.nextId ≤ d.nextId

namespace Kept

variable {c d e : Context P R}

theorem scopes (h : Kept c d) : d.scopes = c.scopes := congrArg Frame.scopes h.frame

theorem ns (h : Kept c d) : d.ns = c.ns := congrArg Frame.ns h.frame

theorem selfCtx (h : Kept c d) : d.selfCtx = c.selfCtx := congrArg Frame.selfCtx h.frame

theorem refl (c : Context P R) : Kept c c := ⟨rfl, le_rfl⟩

theorem trans (h : Kept c d) (h' : Kept d e) : Kept c e :=
  ⟨h'.frame.trans h.frame, h.nextId.trans h'.nextId⟩

theorem left (h : Kept c d) : Left c d := ⟨h.scopes.ge, h.ns, h.selfCtx, h.nextId⟩

theorem trans_left (h : Kept c d) (h' : Left d e) : Left c e where
  scopes := h.scopes.ge.trans h'.scopes
  ns := h'.ns.trans h.ns
  selfCtx := h'.selfCtx.trans h.selfCtx
  nextId := h.nextId.trans h'.nextId

/-- Closing the scope that was opened before. -/
theorem closeScope (h : Kept c.newScope d) : Kept c d.closeScope := by
  obtain ⟨hf, hn⟩ := h
  refine ⟨?_, hn⟩
  have hs : d.scopes = c.scopes + 1 := congrArg Frame.scopes hf
  have hns : d.ns = c.newScope.ns := congrArg Frame.ns hf
  have hself : d.selfCtx = c.newScope.selfCtx := congrArg Frame.selfCtx hf
  unfold Context.closeScope
  rw [hs, hns, hself]
  rfl

end Kept

theorem composes : Composes (Kept (P := P) (R := R)) Left where
  refl := .refl
  refl_error c := (Kept.refl c).left
  trans := .trans
  trans_error := Kept.trans_left

variable {C : Checks P} {α β : Type}

/-! ### Runs of the basic functions -/

theorem newScope_runs {c d : Context P C.Rest} {r : Except Diagnostic PUnit}
    (h : Runs newScope c r d) : r = .ok ⟨⟩ ∧ d = c.newScope := modify_runs h

theorem closeScope_runs {c d : Context P C.Rest} {r : Except Diagnostic PUnit}
    (h : Runs closeScope c r d) : r = .ok ⟨⟩ ∧ d = c.closeScope := modify_runs h

theorem setSelf_runs {c d : Context P C.Rest} {selfCtx : SelfContext P}
    {r : Except Diagnostic PUnit} (h : Runs (setSelf selfCtx) c r d) :
    r = .ok ⟨⟩ ∧ d = c.setSelf selfCtx := modify_runs h

theorem check_runs {f : Check P C.Rest α} {c d : Context P C.Rest} {r : Except Diagnostic α}
    (h : Runs (check f) c r d) : Kept c d := by
  unfold Runs at h
  change (f c).map _ = _ at h
  obtain ⟨⟨q, n, rest⟩, -, h⟩ := Option.map_eq_some_iff.mp h
  cases h
  exact ⟨rfl, Nat.le_add_right _ _⟩

/-- A scope is closed exactly if what runs in it succeeds. -/
theorem inScope_runs {m : Lower C α} {c d : Context P C.Rest} {r : Except Diagnostic α}
    (h : Runs (inScope m) c r d) :
    (∃ a u, r = .ok a ∧ Runs m c.newScope (.ok a) u ∧ d = u.closeScope) ∨
      ∃ e, r = .error e ∧ Runs m c.newScope (.error e) d := by
  unfold inScope at h
  rcases bind_runs h with ⟨_, c', h₁, h⟩ | ⟨e, -, h₁⟩
  · obtain ⟨-, rfl⟩ := newScope_runs h₁
    rcases bind_runs h with ⟨a, u, h₂, h⟩ | ⟨e, he, h₂⟩
    · refine .inl ⟨a, u, ?_⟩
      rcases bind_runs h with ⟨_, u', h₃, h⟩ | ⟨e, -, h₃⟩
      · obtain ⟨-, rfl⟩ := closeScope_runs h₃
        obtain ⟨rfl, rfl⟩ := pure_runs h
        exact ⟨rfl, h₂, rfl⟩
      · nomatch (closeScope_runs h₃).1
    · exact .inr ⟨e, he, h₂⟩
  · nomatch (newScope_runs h₁).1

/-! ### Functions that keep the frame -/

/-- The frame is kept on success; on an error, scopes may be left open. -/
abbrev Keeps (m : Lower C α) : Prop := Moves Kept Left m

namespace Keeps

theorem pure (a : α) : Keeps (Pure.pure a : Lower C α) := Moves.pure composes a

theorem throw (e : Diagnostic) : Keeps (MonadExcept.throw e : Lower C α) :=
  Moves.throw composes e

theorem get : Keeps (MonadState.get : Lower C (Context P C.Rest)) := Moves.get composes

theorem ofExcept (q : Except Diagnostic α) : Keeps (liftExcept q : Lower C α) :=
  Moves.liftExcept composes q

theorem check (f : Check P C.Rest α) : Keeps (AstLowering.check f : Lower C α) :=
  ⟨check_runs, fun h => (check_runs h).left⟩

theorem bind {m : Lower C α} {f : α → Lower C β} (hm : Keeps m) (hf : ∀ a, Keeps (f a)) :
    Keeps (m >>= f) := Moves.bind composes hm hf

theorem forM {ι : Type} (xs : List ι) {g : ι → Lower C PUnit} (hg : ∀ x, Keeps (g x)) :
    Keeps (forM xs g) := Moves.forM composes xs fun x _ => hg x

theorem inScope {m : Lower C α} (hm : Keeps m) : Keeps (AstLowering.inScope m) where
  ok h := by
    rcases inScope_runs h with ⟨a, u, -, hu, rfl⟩ | ⟨e, he, -⟩
    · exact (hm.ok hu).closeScope
    · nomatch he
  error h := by
    rcases inScope_runs h with ⟨a, u, he, -⟩ | ⟨e, -, h⟩
    · nomatch he
    · obtain ⟨hs, hn, hself, hid⟩ := hm.error h
      exact ⟨(Nat.le_succ _).trans hs, hn, hself, hid⟩

theorem attempt {m : Lower C α} (hm : Moves Kept Kept m) : Keeps (Failing.attempt m) :=
  Moves.attempt hm

end Keeps

/-! ### Expressions -/

/-- An error in what opens no scope keeps the frame too. -/
theorem composes_kept : Composes (Kept (P := P) (R := R)) Kept where
  refl := .refl
  refl_error := .refl
  trans := .trans
  trans_error := .trans

theorem check_kept (f : Check P C.Rest α) : Moves Kept Kept (check f : Lower C α) :=
  ⟨check_runs, check_runs⟩

theorem MaybeComptime.maybeUnpack_kept {τ : Type} (t : MaybeComptime τ) :
    Moves Kept Kept (t.maybeUnpack : Lower C (Option τ)) :=
  match t with
  | .raw _ => .pure composes_kept _
  | .comptime .. => .bind composes_kept (check_kept _) fun _ => .pure composes_kept _

theorem MaybeComptime.maybeUnpack_keeps {τ : Type} (t : MaybeComptime τ) :
    Keeps (t.maybeUnpack : Lower C (Option τ)) :=
  t.maybeUnpack_kept.mono id Kept.left

theorem visitCallKind_keeps (kind : CallKind P) : Keeps (visitCallKind C kind) :=
  match kind with
  | .function | .entity => .pure _
  | .pipeline depth => .bind depth.maybeUnpack_keeps fun
    | none => .throw _
    | some _ => .check _

theorem visitTurbofish_keeps (t : Option P.Turbofish) : Keeps (visitTurbofish C t) :=
  match t with
  | none => .pure _
  | some _ => .check _

theorem visitOptionalType_keeps (kind : TypeSpecKind) (t : Option (TypeSpec P)) :
    Keeps (visitOptionalType C kind t) :=
  match t with
  | none => .pure _
  | some _ => .bind (.check _) fun _ => .pure _

theorem visitStage_keeps (stage : PipelineStageReference P) : Keeps (visitStage C stage) :=
  match stage with
  | .relative _ => .check _
  | .absolute _ => .check _

theorem visitRegisterAttribute_keeps (pattern : P.Pattern) (attr : Attribute P) :
    Keeps (visitRegisterAttribute C pattern attr) :=
  match attr with
  | .fsm _ => .check _
  | .walSuffix _ => .pure _
  | .optimize _ | .noMangle | .walTraceable .. | .walTrace .. => .throw _

mutual

theorem visitExpression_keeps (e : Expression P) : Keeps (visitExpression C e) :=
  match e with
  | .intLiteral _ | .boolLiteral _ | .bitLiteral _ | .createPorts | .stageReady | .stageValid =>
    .pure _
  | .identifier _ => .bind (.check _) fun _ => .pure _
  | .binaryOperator lhs _ rhs =>
    .bind (visitExpression_keeps lhs) fun _ => .bind (visitExpression_keeps rhs) fun _ => .pure _
  | .unaryOperator _ operand => .bind (visitExpression_keeps operand) fun _ => .pure _
  | .tupleLiteral exprs | .arrayLiteral exprs =>
    .bind (visitExpressions_keeps exprs) fun _ => .pure _
  | .arrayShorthandLiteral expr _ => .bind (visitExpression_keeps expr) fun _ => .pure _
  | .index target idx =>
    .bind (visitExpression_keeps target) fun _ => .bind (visitExpression_keeps idx) fun _ => .pure _
  | .rangeIndex target _ _ | .tupleIndex target _ | .fieldAccess target _ =>
    .bind (visitExpression_keeps target) fun _ => .pure _
  | .methodCall target _ args kind turbofish =>
    .bind (visitExpression_keeps target) fun _ => .bind (visitArgumentList_keeps args) fun _ =>
      .bind (visitCallKind_keeps kind) fun _ => .bind (visitTurbofish_keeps turbofish) fun _ =>
        .pure _
  | .ite cond onTrue onFalse =>
    .bind (visitExpression_keeps cond) fun _ => .bind (visitExpression_keeps onTrue) fun _ =>
      .bind (visitExpression_keeps onFalse) fun _ => .pure _
  | .matchOn expression branches => by
    apply Keeps.bind (visitExpression_keeps expression)
    intro _
    split
    · exact .bind (.throw _) fun _ => .bind (visitBranches_keeps branches) fun _ => .pure _
    · exact .bind (visitBranches_keeps branches) fun _ => .pure _
  | .block statements result =>
    .bind (.inScope (.bind (visitStatements_keeps statements) fun _ =>
      .bind (visitOptional_keeps result) fun _ => .check _)) fun _ => .pure _
  | .call kind _ args turbofish =>
    .bind (.check _) fun _ => .bind (visitArgumentList_keeps args) fun _ =>
      .bind (visitCallKind_keeps kind) fun _ => .bind (visitTurbofish_keeps turbofish) fun _ =>
        .pure _
  | .pipelineReference stage _ =>
    .bind (visitStage_keeps stage) fun _ => .bind (.check _) fun _ => .pure _
  | .comptime condition onTrue onFalse => by
    apply Keeps.bind (.check _)
    intro _
    split
    · exact visitExpression_keeps onTrue
    · exact visitOnFalse_keeps onFalse

theorem visitOnFalse_keeps (e : Option (Expression P)) : Keeps (visitOnFalse C e) :=
  match e with
  | some inner => visitExpression_keeps inner
  | none => .throw _

theorem visitExpressions_keeps (es : List (Expression P)) : Keeps (visitExpressions C es) :=
  match es with
  | [] => .pure _
  | e :: es => .bind (visitExpression_keeps e) fun _ => visitExpressions_keeps es

theorem visitOptional_keeps (e : Option (Expression P)) : Keeps (visitOptional C e) :=
  match e with
  | none => .pure _
  | some e => .bind (visitExpression_keeps e) fun _ => .pure _

theorem visitArgumentList_keeps (args : Ast.ArgumentList (Expression P)) :
    Keeps (visitArgumentList C args) :=
  match args with
  | .positional args => visitExpressions_keeps args
  | .named args => visitNamedArguments_keeps args

theorem visitNamedArguments_keeps (args : List (Ast.NamedArgument (Expression P))) :
    Keeps (visitNamedArguments C args) :=
  match args with
  | [] => .pure _
  | arg :: args => .bind (visitNamedArgument_keeps arg) fun _ => visitNamedArguments_keeps args

theorem visitNamedArgument_keeps (arg : Ast.NamedArgument (Expression P)) :
    Keeps (visitNamedArgument C arg) :=
  match arg with
  | .full _ e => .bind (visitExpression_keeps e) fun _ => .pure _
  | .short _ => .check _

theorem visitBranches_keeps (branches : List (P.Pattern × Expression P)) :
    Keeps (visitBranches C branches) :=
  match branches with
  | [] => .pure _
  | branch :: branches => .bind (visitBranch_keeps branch) fun _ => visitBranches_keeps branches

theorem visitBranch_keeps (branch : P.Pattern × Expression P) : Keeps (visitBranch C branch) :=
  match branch with
  | (_, result) =>
    .inScope (.bind (.check _) fun _ => .bind (visitExpression_keeps result) fun _ => .pure _)

theorem visitStatements_keeps (ss : List (Statement P)) : Keeps (visitStatements C ss) :=
  match ss with
  | [] => .pure _
  | s :: ss => .bind (visitStatement_keeps s) fun _ => visitStatements_keeps ss

theorem visitStatement_keeps (s : Statement P) : Keeps (visitStatement C s) :=
  match s with
  | .declaration names => .forM names fun _ => .check _
  | .binding _ ty value attrs =>
    .bind (visitOptionalType_keeps _ ty) fun _ => .bind (visitExpression_keeps value) fun _ =>
      .bind (.check _) fun _ => visitBindingAttributes_keeps attrs
  | .register pattern clock reset initial value valueType attributes =>
    .bind (.check _) fun _ => .bind (visitExpression_keeps clock) fun _ =>
      .bind (visitReset_keeps reset) fun _ => .bind (visitOptional_keeps initial) fun _ =>
        .bind (visitExpression_keeps value) fun _ =>
          .bind (visitOptionalType_keeps _ valueType) fun _ =>
            .forM attributes fun attr => visitRegisterAttribute_keeps pattern attr
  | .pipelineRegMarker count cond =>
    .bind (visitOptional_keeps cond) fun _ =>
      match count, cond with
      | none, _ => .pure _
      | some _, none => .check _
      | some _, some _ => .throw _
  | .label _ => .check _
  | .assert expr => .bind (visitExpression_keeps expr) fun _ => .pure _
  | .comptime condition onTrue onFalse => by
    apply Keeps.bind (.check _)
    intro _
    split
    · exact visitStatements_keeps onTrue
    · exact visitStatementsOnFalse_keeps onFalse
  | .set target value =>
    .bind (visitExpression_keeps target) fun _ => .bind (visitExpression_keeps value) fun _ =>
      .pure _

theorem visitStatementsOnFalse_keeps (ss : Option (List (Statement P))) :
    Keeps (visitStatementsOnFalse C ss) :=
  match ss with
  | some statements => visitStatements_keeps statements
  | none => .pure _

theorem visitReset_keeps (reset : Option (Expression P × Expression P)) :
    Keeps (visitReset C reset) :=
  match reset with
  | none => .pure _
  | some (trig, value) =>
    .bind (visitExpression_keeps trig) fun _ => .bind (visitExpression_keeps value) fun _ =>
      .pure _

theorem visitBindingAttributes_keeps (attrs : List (Attribute P)) :
    Keeps (visitBindingAttributes C attrs) :=
  match attrs with
  | [] => .pure _
  | attr :: attrs =>
    .bind (visitBindingAttribute_keeps attr) fun _ => visitBindingAttributes_keeps attrs

theorem visitBindingAttribute_keeps (attr : Attribute P) :
    Keeps (visitBindingAttribute C attr) :=
  match attr with
  | .walTrace clk rst =>
    .bind (visitOptional_keeps clk) fun _ => visitOptional_keeps rst
  | .walSuffix _ => .pure _
  | .noMangle | .fsm _ | .optimize _ | .walTraceable .. => .throw _

end

/-! ### Heads of units -/

theorem visitParameters_keeps (argNames : List String) (args : List (String × TypeSpec P)) :
    Keeps (visitParameters C argNames args) := by
  induction args generalizing argNames with
  | nil => exact .pure _
  | cons arg args ih =>
      unfold visitParameters
      split
      · exact .bind (.throw _) fun _ => .bind (.check _) fun _ => ih _
      · exact .bind (.check _) fun _ => ih _

theorem visitParameterList_keeps (l : ParameterList P) : Keeps (visitParameterList C l) := by
  unfold visitParameterList
  apply Keeps.bind .get
  intro c
  split
  · exact .throw _
  · exact .throw _
  · exact visitParameters_keeps [] l.args

theorem checkPorts_keeps (portError : Except Diagnostic PUnit)
    (args : List (String × TypeSpec P)) : Keeps (checkPorts C portError args) := by
  induction args generalizing portError with
  | nil => exact .pure _
  | cons arg args ih =>
      unfold checkPorts
      apply Keeps.bind .get
      intro c
      split
      · exact ih _
      · apply Keeps.bind (.check _)
        intro isPort
        split
        · exact ih _
        · exact ih _

theorem visitUnitKind_kept (kind : UnitKind P) : Moves Kept Kept (visitUnitKind C kind) :=
  match kind with
  | .function | .entity => .pure composes_kept _
  | .pipeline depth => .bind composes_kept depth.maybeUnpack_kept fun
    | none => .throw composes_kept _
    | some _ => check_kept _

theorem unitHeadInScope_keeps (head : UnitHead P) (scopeTypeParams : Option (List (TypeParam P))) :
    Keeps (unitHeadInScope C head scopeTypeParams) := by
  unfold unitHeadInScope
  apply Keeps.bind (.forM _ fun _ => .check _)
  intro _
  apply Keeps.bind (.forM _ fun _ => .check _)
  intro _
  apply Keeps.bind (.attempt (check_kept _))
  intro whereClauses
  apply Keeps.bind (visitOptionalType_keeps _ _)
  intro _
  apply Keeps.bind (visitParameterList_keeps _)
  intro _
  have hkind := Keeps.attempt (visitUnitKind_kept (C := C) head.unitKind)
  split
  · exact .bind (checkPorts_keeps _ _) fun _ => .bind hkind fun _ => .pure _
  · exact .bind (.pure _) fun _ => .bind hkind fun _ => .pure _

theorem unitHead_keeps (head : UnitHead P) (scopeTypeParams : Option (List (TypeParam P))) :
    Keeps (unitHead C head scopeTypeParams) :=
  .bind (.inScope (unitHeadInScope_keeps head scopeTypeParams)) fun _ =>
    .bind (.ofExcept _) fun _ => .bind (.ofExcept _) fun _ => .ofExcept _

theorem addUniqueThing_kept (name : Path) (item : Thing P) :
    Moves Kept Kept (addUniqueThing name item : Lower C NameID) :=
  .bind composes_kept (check_kept _) fun _ => .bind composes_kept (.get composes_kept) fun _ =>
    .bind composes_kept (Moves.modify fun c => ⟨rfl, Nat.le_succ c.nextId⟩) fun _ =>
      .bind composes_kept (check_kept _) fun _ => .pure composes_kept _

theorem addUniqueThing_keeps (name : Path) (item : Thing P) :
    Keeps (addUniqueThing name item : Lower C NameID) :=
  (addUniqueThing_kept name item).mono id Kept.left

theorem GlobalSymbols.visitUnit_keeps (extraPath : Path) (unit : UnitDef P)
    (scopeTypeParams : Option (List (TypeParam P))) :
    Keeps (GlobalSymbols.visitUnit C extraPath unit scopeTypeParams) :=
  .bind (unitHead_keeps _ _) fun _ => .bind (addUniqueThing_keeps _ _) fun _ => .pure _

/-! ### Bodies of units -/

theorem visitUnitAttribute_keeps (unit : UnitDef P) (scopeTypeParams : Option (List (TypeParam P)))
    (attr : Attribute P) : Keeps (visitUnitAttribute C unit scopeTypeParams attr) := by
  unfold visitUnitAttribute
  split
  · exact .pure _
  · split
    · exact .throw _
    · split
      · exact .throw _
      · exact .pure _
  · split
    · exact .throw _
    · exact .pure _
  · exact .throw _

theorem unitSymbolInScope_keeps (extraPath : Path) (unit : UnitDef P)
    (scopeTypeParams : Option (List (TypeParam P))) :
    Keeps (unitSymbolInScope C extraPath unit scopeTypeParams) :=
  .bind (.check _) fun _ => .bind (.forM _ fun attr => visitUnitAttribute_keeps unit _ attr)
    fun _ => .pure _

theorem unitBodyInScope_keeps (unit : UnitDef P) (symbol : UnitSymbol) (body : Expression P) :
    Keeps (unitBodyInScope C unit symbol body) := by
  unfold unitBodyInScope
  apply Keeps.bind (.forM _ fun _ => .check _)
  intro _
  apply Keeps.bind (.forM _ fun _ => .check _)
  intro _
  apply Keeps.bind (.check _)
  intro _
  apply Keeps.bind (visitExpression_keeps body)
  intro kind
  split
  · exact .bind (.throw _) fun _ => .check _
  · exact .check _

/-! ### Types -/

theorem visitTypeParamBounds_kept (param : TypeParam P) :
    Moves Kept Kept (visitTypeParamBounds C param) := by
  unfold visitTypeParamBounds visitMetaType
  split
  · exact .forM composes_kept _ fun _ _ => check_kept _
  · split
    · exact .pure composes_kept _
    · exact .throw composes_kept _

theorem visitTypeParamBounds_keeps (param : TypeParam P) :
    Keeps (visitTypeParamBounds C param) :=
  (visitTypeParamBounds_kept param).mono id Kept.left

theorem visitEnumMembers_keeps (args : List (String × TypeSpec P)) :
    Keeps (visitEnumMembers C args) := by
  induction args with
  | nil => exact .pure _
  | cons arg args ih =>
      unfold visitEnumMembers
      apply Keeps.bind (.check _)
      intro _
      apply Keeps.bind (.check _)
      intro isPort
      split
      · exact .bind (.throw _) fun _ => ih
      · exact ih

theorem visitEnumOption_keeps (t : TypeDeclaration P) (option : String × Option (ParameterList P)) :
    Keeps (visitEnumOption C t option) := by
  unfold visitEnumOption
  split
  · exact .bind (.pure _) fun _ => .check _
  · apply Keeps.bind (visitParameterList_keeps _)
    intro _
    split
    · exact .bind (.throw _) fun _ => .bind (visitEnumMembers_keeps _) fun _ => .check _
    · exact .bind (visitEnumMembers_keeps _) fun _ => .check _

theorem visitEnumOptions_keeps (t : TypeDeclaration P) (memberNames : List String)
    (options : List (String × Option (ParameterList P))) :
    Keeps (visitEnumOptions C t memberNames options) := by
  induction options generalizing memberNames with
  | nil => exact .pure _
  | cons option options ih =>
      unfold visitEnumOptions
      split
      · exact .bind (.throw _) fun _ => .bind (visitEnumOption_keeps t option) fun _ => ih _
      · exact .bind (visitEnumOption_keeps t option) fun _ => ih _

theorem visitStructMembers_keeps (structIsPort : Bool) (args : List (String × TypeSpec P)) :
    Keeps (visitStructMembers C structIsPort args) := by
  induction args with
  | nil => exact .pure _
  | cons arg args ih =>
      unfold visitStructMembers
      apply Keeps.bind (.check _)
      intro _
      apply Keeps.bind (.check _)
      intro isPort
      split
      · exact .throw _
      · exact .throw _
      · exact ih

theorem visitStructAttribute_keeps (attr : Attribute P) :
    Keeps (visitStructAttribute C attr) := by
  unfold visitStructAttribute
  split
  · exact .pure _
  · exact .throw _

theorem visitTypeDeclKind_keeps (t : TypeDeclaration P) : Keeps (visitTypeDeclKind C t) := by
  unfold visitTypeDeclKind
  split
  · exact visitEnumOptions_keeps t _ _
  · rename_i attributes _ members isPort _
    have hmembers : Keeps (do
        visitStructMembers C isPort members.args
        visitParameterList C members
        check (C.addStruct t)
        forM attributes (visitStructAttribute C)) :=
      .bind (visitStructMembers_keeps _ _) fun _ => .bind (visitParameterList_keeps _) fun _ =>
        .bind (.check _) fun _ => .forM _ visitStructAttribute_keeps
    split
    · exact .bind (.throw _) fun _ => hmembers
    · exact hmembers

theorem typeInScope_keeps (t : TypeDeclaration P) : Keeps (typeInScope C t) :=
  .bind (.forM _ fun param => .bind (visitTypeParamBounds_keeps param) fun _ => .check _) fun _ =>
    .bind (.forM _ fun arg => .bind (.check _) fun _ => visitTypeParamBounds_keeps arg) fun _ =>
      visitTypeDeclKind_keeps t

theorem reVisitTypeDeclaration_keeps (t : TypeDeclaration P) :
    Keeps (reVisitTypeDeclaration C t) :=
  .bind (.check _) fun _ => .bind (.inScope (typeInScope_keeps t)) fun _ => .check _

end Spade.AstLowering

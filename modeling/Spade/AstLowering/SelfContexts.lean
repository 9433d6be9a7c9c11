import Spade.AstLowering.Frames

/-!
# What lowering does to `self_ctx`

Two functions set `self_ctx`. A trait definition leaves it at the trait. An impl block that succeeds
leaves `self` free standing, and one that fails leaves it anywhere, but for the trait definitions of
the program.

* **Traits** (`createTraitFromUnitHeads_ok`, `createTraitFromUnitHeads_error`).
* **Units** (`visitUnit_kept`, `visitUnit_left`): a builtin leaves its scope open.
* **Impl blocks** (`visitImpl_ok`, `visitImpl_error`).
-/

namespace Spade.AstLowering

open Spade.Lib Spade.Lib.Failing
open Spade.Hir (Path)

variable {P : Parts} {R : Type}

/-! ### Relations that allow changes of `self_ctx` -/

/-- As `Kept`, but `self_ctx` may have changed by `Q`. -/
structure KeptBut (Q : SelfContext P → SelfContext P → Prop) (c d : Context P R) : Prop where
  scopes : d.scopes = c.scopes
  ns : d.ns = c.ns
  selfCtx : Q c.selfCtx d.selfCtx
  nextId : c.nextId ≤ d.nextId

/-- As `Left`, but `self_ctx` may have changed by `Q`. -/
structure LeftBut (Q : SelfContext P → SelfContext P → Prop) (c d : Context P R) : Prop where
  scopes : c.scopes ≤ d.scopes
  ns : d.ns = c.ns
  selfCtx : Q c.selfCtx d.selfCtx
  nextId : c.nextId ≤ d.nextId

section

variable {Q Q' : SelfContext P → SelfContext P → Prop} {c d e : Context P R}

theorem KeptBut.mono (hQ : ∀ s t, Q s t → Q' s t) (h : KeptBut Q c d) : KeptBut Q' c d :=
  ⟨h.scopes, h.ns, hQ _ _ h.selfCtx, h.nextId⟩

theorem LeftBut.mono (hQ : ∀ s t, Q s t → Q' s t) (h : LeftBut Q c d) : LeftBut Q' c d :=
  ⟨h.scopes, h.ns, hQ _ _ h.selfCtx, h.nextId⟩

theorem Kept.but (hrefl : ∀ s, Q s s) (h : Kept c d) : KeptBut Q c d :=
  ⟨h.scopes, h.ns, h.selfCtx ▸ hrefl _, h.nextId⟩

theorem Left.but (hrefl : ∀ s, Q s s) (h : Left c d) : LeftBut Q c d :=
  ⟨h.scopes, h.ns, h.selfCtx ▸ hrefl _, h.nextId⟩

theorem composes_but (hrefl : ∀ s, Q s s) (htrans : ∀ {s t u}, Q s t → Q t u → Q s u) :
    Composes (KeptBut (R := R) Q) (LeftBut Q) where
  refl c := (Kept.refl c).but hrefl
  refl_error c := (Kept.refl c).left.but hrefl
  trans h h' := ⟨h'.scopes.trans h.scopes, h'.ns.trans h.ns, htrans h.selfCtx h'.selfCtx,
    h.nextId.trans h'.nextId⟩
  trans_error h h' := ⟨h.scopes.ge.trans h'.scopes, h'.ns.trans h.ns, htrans h.selfCtx h'.selfCtx,
    h.nextId.trans h'.nextId⟩

end

variable {C : Checks P} {α : Type}

theorem Keeps.but {Q : SelfContext P → SelfContext P → Prop} (hrefl : ∀ s, Q s s) {m : Lower C α}
    (hm : Keeps m) : Moves (KeptBut Q) (LeftBut Q) m :=
  hm.mono (Kept.but hrefl) (Left.but hrefl)

theorem setSelf_moves {Q : SelfContext P → SelfContext P → Prop} {selfCtx : SelfContext P}
    (hQ : ∀ s, Q s selfCtx) : Moves (KeptBut Q) (LeftBut Q) (setSelf selfCtx : Lower C PUnit) :=
  .modify fun _ => ⟨rfl, rfl, hQ _, le_rfl⟩

/-- A scope around changes of `self_ctx`: it is closed on success and open on an error. -/
theorem inScope_but {Q : SelfContext P → SelfContext P → Prop} {m : Lower C α}
    (hm : Moves (KeptBut Q) (LeftBut Q) m) : Moves (KeptBut Q) (LeftBut Q) (inScope m) where
  ok h := by
    rcases inScope_runs h with ⟨a, u, -, hu, rfl⟩ | ⟨e, he, -⟩
    · obtain ⟨hs, hn, hself, hid⟩ := hm.ok hu
      exact ⟨congrArg (· - 1) hs, hn, hself, hid⟩
    · nomatch he
  error h := by
    rcases inScope_runs h with ⟨a, u, he, -⟩ | ⟨e, -, hu⟩
    · nomatch he
    · obtain ⟨hs, hn, hself, hid⟩ := hm.error hu
      exact ⟨(Nat.le_succ _).trans hs, hn, hself, hid⟩

/-- An error in a scope leaves the scope open. -/
theorem inScope_error {Q : SelfContext P → SelfContext P → Prop} {m : Lower C α}
    (hm : Moves (KeptBut Q) (LeftBut Q) m) {c d : Context P C.Rest} {e : Diagnostic}
    (h : Runs (inScope m) c (.error e) d) : c.scopes < d.scopes := by
  rcases inScope_runs h with ⟨a, u, he, -⟩ | ⟨e', -, hu⟩
  · nomatch he
  · exact (hm.error hu).scopes

/-! ### Traits -/

/-- `self_ctx` is as before or at the trait. -/
def AtTrait (name : TraitName) (s t : SelfContext P) : Prop := t = s ∨ t = .traitDefinition name

theorem AtTrait.refl (name : TraitName) (s : SelfContext P) : AtTrait name s s := .inl rfl

theorem AtTrait.trans {name : TraitName} {s t u : SelfContext P} (h : AtTrait name s t)
    (h' : AtTrait name t u) : AtTrait name s u := by
  rcases h' with rfl | h'
  · exact h
  · exact .inr h'

section

variable (name : TraitName) (typeParams : Option (List (TypeParam P)))
  (whereClauses : List P.WhereClause) (heads : List (UnitHead P))

theorem traitPrologue_keeps : Keeps (do
    forM (typeParams.getD []) (visitTraitTypeParam C)
    check (C.visitWhereClauses whereClauses)) :=
  .bind (.forM _ fun _ => .bind (visitTypeParamBounds_keeps _) fun _ => .bind (.check _) fun _ =>
    visitTypeParamBounds_keeps _) fun _ => .check _

theorem traitMembers_keeps : Keeps (do
    forM heads fun head => unitHead C head typeParams
    check (C.addTrait name heads)) :=
  .bind (.forM _ fun head => unitHead_keeps head typeParams) fun _ => .check _

theorem traitInScope_eq : traitInScope C name typeParams whereClauses heads = (do
    (do
      forM (typeParams.getD []) (visitTraitTypeParam C)
      check (C.visitWhereClauses whereClauses))
    setSelf (.traitDefinition name)
    (do
      forM heads fun head => unitHead C head typeParams
      check (C.addTrait name heads))) := by
  unfold traitInScope
  simp only [bind_assoc]

theorem traitInScope_moves : Moves (KeptBut (AtTrait name)) (LeftBut (AtTrait name))
    (traitInScope C name typeParams whereClauses heads) := by
  have hc := composes_but (R := C.Rest) (AtTrait.refl (P := P) name) AtTrait.trans
  rw [traitInScope_eq]
  apply Moves.bind hc ((traitPrologue_keeps typeParams whereClauses).but (AtTrait.refl name))
  intro _
  apply Moves.bind hc (setSelf_moves fun _ => .inr rfl)
  intro _
  exact (traitMembers_keeps name typeParams heads).but (AtTrait.refl name)

theorem createTraitFromUnitHeads_moves : Moves (KeptBut (AtTrait name)) (LeftBut (AtTrait name))
    (createTraitFromUnitHeads C name typeParams whereClauses heads) :=
  inScope_but (traitInScope_moves name typeParams whereClauses heads)

/-- A trait definition that is accepted leaves `self_ctx` at the trait. -/
theorem createTraitFromUnitHeads_ok {c d : Context P C.Rest} {a : PUnit}
    (h : Runs (createTraitFromUnitHeads C name typeParams whereClauses heads) c (.ok a) d) :
    d.selfCtx = .traitDefinition name := by
  rcases inScope_runs h with ⟨_, u, -, hu, rfl⟩ | ⟨e, he, -⟩
  · rw [traitInScope_eq] at hu
    obtain ⟨_, u₁, -, hu⟩ := bind_ok hu
    obtain ⟨_, u₂, hset, hu⟩ := bind_ok hu
    obtain ⟨-, rfl⟩ := setSelf_runs hset
    exact ((traitMembers_keeps name typeParams heads).ok hu).selfCtx
  · nomatch he

end

/-! ### Units -/

theorem Left.trans {c d e : Context P R} (h : Left c d) (h' : Left d e) : Left c e where
  scopes := h.scopes.trans h'.scopes
  ns := h'.ns.trans h.ns
  selfCtx := h'.selfCtx.trans h.selfCtx
  nextId := h.nextId.trans h'.nextId

/-- What runs in the scope of a unit with a body. -/
def unitInScope (C : Checks P) (extraPath : Path) (unit : UnitDef P)
    (scopeTypeParams : Option (List (TypeParam P))) (body : Expression P) :
    Lower C UnitSymbol := do
  let symbol ← unitSymbolInScope C extraPath unit scopeTypeParams
  unitBodyInScope C unit symbol body
  return symbol

theorem unitInScope_keeps (extraPath : Path) (unit : UnitDef P)
    (scopeTypeParams : Option (List (TypeParam P))) (body : Expression P) :
    Keeps (unitInScope C extraPath unit scopeTypeParams body) :=
  .bind (unitSymbolInScope_keeps _ _ _) fun _ => .bind (unitBodyInScope_keeps _ _ _) fun _ =>
    .pure _

section

variable {extraPath : Path} {unit : UnitDef P} {scopeTypeParams : Option (List (TypeParam P))}
  {c d : Context P C.Rest}

/-- A unit with a body closes its scope at the end. -/
theorem visitUnit_body {body : Expression P} (hbody : unit.body = some body) :
    visitUnit C extraPath unit scopeTypeParams = do
      let symbol ← inScope (unitInScope C extraPath unit scopeTypeParams body)
      return .unit symbol.id := by
  unfold visitUnit inScope unitInScope
  rw [hbody]
  simp only [bind_assoc, pure_bind]

/-- A builtin unit returns before its scope is closed. -/
theorem visitUnit_builtin (hbody : unit.body = none) :
    visitUnit C extraPath unit scopeTypeParams = do
      newScope
      let symbol ← unitSymbolInScope C extraPath unit scopeTypeParams
      return .builtin symbol.id := by
  unfold visitUnit
  rw [hbody]

theorem visitUnit_builtin_runs (hbody : unit.body = none) {r : Except Diagnostic HirItem}
    (h : Runs (visitUnit C extraPath unit scopeTypeParams) c r d) :
    Left c.newScope d ∧ ∀ item, r = .ok item → ∃ name, item = .builtin name := by
  rw [visitUnit_builtin hbody] at h
  rcases bind_runs h with ⟨_, u, h₁, h⟩ | ⟨e, -, h₁⟩
  · obtain ⟨-, rfl⟩ := newScope_runs h₁
    rcases bind_runs h with ⟨symbol, v, h₂, h⟩ | ⟨e, rfl, h₂⟩
    · obtain ⟨rfl, rfl⟩ := pure_runs h
      refine ⟨((unitSymbolInScope_keeps _ _ _).ok h₂).left, fun item hitem => ?_⟩
      cases hitem
      exact ⟨_, rfl⟩
    · exact ⟨(unitSymbolInScope_keeps _ _ _).error h₂, fun item hitem => nomatch hitem⟩
  · nomatch (newScope_runs h₁).1

theorem visitUnit_body_keeps {body : Expression P} (hbody : unit.body = some body) :
    Keeps (visitUnit C extraPath unit scopeTypeParams) := by
  rw [visitUnit_body hbody]
  exact .bind (.inScope (unitInScope_keeps _ _ _ _)) fun _ => .pure _

theorem visitUnit_left {r : Except Diagnostic HirItem}
    (h : Runs (visitUnit C extraPath unit scopeTypeParams) c r d) : Left c d := by
  cases hbody : unit.body with
  | none =>
      obtain ⟨⟨hs, hn, hself, hid⟩, -⟩ := visitUnit_builtin_runs hbody h
      exact ⟨(Nat.le_succ _).trans hs, hn, hself, hid⟩
  | some body =>
      cases r with
      | ok item => exact ((visitUnit_body_keeps hbody).ok h).left
      | error e => exact (visitUnit_body_keeps hbody).error h

theorem visitUnit_kept {name : NameID}
    (h : Runs (visitUnit C extraPath unit scopeTypeParams) c (.ok (.unit name)) d) : Kept c d := by
  cases hbody : unit.body with
  | none =>
      obtain ⟨_, hname⟩ := (visitUnit_builtin_runs hbody h).2 _ rfl
      nomatch hname
  | some body => exact (visitUnit_body_keeps hbody).ok h

end

/-! ### Impl blocks -/

theorem checkImplItem_keeps (previous : List String) (unit : UnitDef P) (item : HirItem) :
    Keeps (checkImplItem C previous unit item) := by
  unfold checkImplItem
  split
  · split
    · exact .throw _
    · exact .pure _
  · exact .throw _

theorem checkImplItem_ok {previous : List String} {unit : UnitDef P} {item : HirItem}
    {c d : Context P C.Rest} {a : PUnit}
    (h : Runs (checkImplItem C previous unit item) c (.ok a) d) : ∃ name, item = .unit name := by
  cases item with
  | unit name => exact ⟨name, rfl⟩
  | builtin name => nomatch (throw_runs h).1

/-- A method that is a builtin is an error, so that the scope it left open is not met on success. -/
theorem visitMethod_keeps (extraPath : Path) (unit : UnitDef P)
    (scopeTypeParams : Option (List (TypeParam P))) (previous : List String)
    {f : HirItem → Lower C α} (hf : ∀ item, Keeps (f item)) :
    Keeps (do
      let item ← visitUnit C extraPath unit scopeTypeParams
      checkImplItem C previous unit item
      f item) where
  ok h := by
    obtain ⟨item, u, hu, h⟩ := bind_ok h
    obtain ⟨_, v, hv, h⟩ := bind_ok h
    obtain ⟨name, rfl⟩ := checkImplItem_ok hv
    have hkept := (visitUnit_kept hu).trans ((checkImplItem_keeps _ _ _).ok hv)
    exact hkept.trans ((hf _).ok h)
  error h := by
    rcases bind_runs h with ⟨item, u, hu, h⟩ | ⟨e, -, hu⟩
    · have hleft := visitUnit_left hu
      rcases bind_runs h with ⟨_, v, hv, h⟩ | ⟨e, -, hv⟩
      · exact (hleft.trans ((checkImplItem_keeps _ _ _).ok hv).left).trans ((hf _).error h)
      · exact hleft.trans ((checkImplItem_keeps _ _ _).error hv)
    · exact visitUnit_left hu

theorem checkIsTraitMethod_keeps (traitMethods : List String) (unit : UnitDef P) :
    Keeps (checkIsTraitMethod C traitMethods unit) := by
  unfold checkIsTraitMethod
  split
  · exact .pure _
  · exact .throw _

theorem visitImplUnit_keeps (block : ImplBlock P) (implBlockId : ℕ) (traitName : TraitName)
    (traitMethods previous : List String) (unit : UnitDef P) :
    Keeps (visitImplUnit C block implBlockId traitName traitMethods previous unit) := by
  apply Keeps.bind (checkIsTraitMethod_keeps traitMethods unit)
  intro _
  apply Keeps.bind (.check _)
  intro _
  apply Keeps.bind (GlobalSymbols.visitUnit_keeps _ _ _)
  intro _
  apply visitMethod_keeps
  intro item
  exact .bind (.check _) fun _ => .bind (.check _) fun _ => .bind (.check _) fun _ =>
    .bind (.check _) fun _ => .pure _

theorem visitImplUnits_keeps (block : ImplBlock P) (implBlockId : ℕ) (traitName : TraitName)
    (traitMethods previous : List String) (units : List (UnitDef P)) :
    Keeps (visitImplUnits C block implBlockId traitName traitMethods previous units) := by
  induction units generalizing previous with
  | nil => exact .pure _
  | cons unit units ih =>
      exact .bind (visitImplUnit_keeps _ _ _ _ _ _) fun _ => .bind (ih _) fun _ => .pure _

/-- No trait of the program is entered. -/
def EntersNoTrait (s t : SelfContext P) : Prop :=
  ∀ name, t = .traitDefinition (.named name) → s = .traitDefinition (.named name)

theorem EntersNoTrait.refl (s : SelfContext P) : EntersNoTrait s s := fun _ h => h

theorem EntersNoTrait.trans {s t u : SelfContext P} (h : EntersNoTrait s t)
    (h' : EntersNoTrait t u) : EntersNoTrait s u := fun name hu => h name (h' name hu)

theorem AtTrait.entersNoTrait {id : ℕ} {s t : SelfContext P} (h : AtTrait (.anonymous id) s t) :
    EntersNoTrait s t := by
  intro name ht
  rcases h with rfl | rfl
  · exact ht
  · nomatch ht

theorem entersNoTrait_freeStanding (s : SelfContext P) : EntersNoTrait s .freeStanding := by
  intro name h
  cases h

theorem entersNoTrait_implBlock (target : P.HirTypeSpec) (s : SelfContext P) :
    EntersNoTrait s (.implBlock target) := by
  intro name h
  cases h

/-- An impl block enters anonymous traits only. -/
abbrev ImplMoves (m : Lower C α) : Prop := Moves (KeptBut EntersNoTrait) (LeftBut EntersNoTrait) m

theorem composes_impl :
    Composes (KeptBut (P := P) (R := R) EntersNoTrait) (LeftBut EntersNoTrait) :=
  composes_but .refl .trans

theorem Keeps.impl {m : Lower C α} (hm : Keeps m) : ImplMoves m := hm.but .refl

theorem implTrait_moves (block : ImplBlock P) (implBlockId : ℕ) :
    ImplMoves (implTrait C block implBlockId) := by
  unfold implTrait
  split
  · exact Keeps.impl (.bind (.check _) fun _ => .bind (.check _) fun _ => .pure _)
  · have htrait := (createTraitFromUnitHeads_moves (C := C) (.anonymous implBlockId)
      block.typeParams block.whereClauses (block.units.map (·.head))).mono
      (KeptBut.mono fun _ _ => AtTrait.entersNoTrait)
      (LeftBut.mono fun _ _ => AtTrait.entersNoTrait)
    apply Moves.bind composes_impl htrait
    intro _
    exact Keeps.impl (.bind (.forM _ fun _ => .check _) fun _ => .pure _)

theorem implTarget_keeps (block : ImplBlock P) : Keeps (implTarget C block) := by
  unfold implTarget
  split
  · exact .bind (.check _) fun _ => .pure _
  · exact .throw _

theorem checkImplTarget_keeps (targetPath : Path) : Keeps (checkImplTarget C targetPath) := by
  apply Keeps.bind (.check _)
  intro isGeneric
  split
  · exact .throw _
  · exact .pure _

theorem implMethods_moves (block : ImplBlock P) (implBlockId : ℕ) (traitName : TraitName)
    (targetPath : Path) (traitMethods : List String) :
    ImplMoves (implMethods C block implBlockId traitName targetPath traitMethods) := by
  apply Moves.bind composes_impl (Keeps.check _).impl
  intro _
  apply Moves.bind composes_impl (checkImplTarget_keeps targetPath).impl
  intro _
  apply Moves.bind composes_impl (Keeps.check _).impl
  intro targetTypeSpec
  apply Moves.bind composes_impl (setSelf_moves (entersNoTrait_implBlock targetTypeSpec))
  intro _
  apply Keeps.impl
  exact .bind (visitImplUnits_keeps _ _ _ _ _ _) fun _ => .bind (.check _) fun _ =>
    .bind (.check _) fun _ => .bind (.check _) fun _ => .pure _

theorem implInScope_moves (block : ImplBlock P) : ImplMoves (implInScope C block) := by
  apply Moves.bind composes_impl (implTarget_keeps block).impl
  intro targetPath
  apply Moves.bind composes_impl (Keeps.forM _ fun _ => .check _).impl
  intro _
  apply Moves.bind composes_impl (Keeps.check _).impl
  intro _
  apply Moves.bind composes_impl (Keeps.check _).impl
  intro implBlockId
  apply Moves.bind composes_impl (implTrait_moves block implBlockId)
  intro traitName
  apply Moves.bind composes_impl (Keeps.check _).impl
  intro traitMethods
  split
  · exact (Keeps.throw _).impl
  · exact implMethods_moves block implBlockId traitName targetPath _

theorem implReset_moves (block : ImplBlock P) : ImplMoves (do
    let result ← implInScope C block
    setSelf .freeStanding
    return result) := by
  apply Moves.bind composes_impl (implInScope_moves block)
  intro _
  apply Moves.bind composes_impl (setSelf_moves entersNoTrait_freeStanding)
  intro _
  exact (Keeps.pure _).impl

theorem visitImpl_moves (block : ImplBlock P) : ImplMoves (visitImpl C block) :=
  inScope_but (implReset_moves block)

section

variable {block : ImplBlock P} {c d : Context P C.Rest}

/-- An impl block that succeeds leaves `self` free standing, whatever it was before. -/
theorem visitImpl_ok {items : List HirItem} (h : Runs (visitImpl C block) c (.ok items) d) :
    d.selfCtx = .freeStanding := by
  rcases inScope_runs h with ⟨_, u, -, hu, rfl⟩ | ⟨e, he, -⟩
  · obtain ⟨_, v, -, hv⟩ := bind_ok hu
    obtain ⟨_, w, hw, hv⟩ := bind_ok hv
    obtain ⟨-, rfl⟩ := setSelf_runs hw
    obtain ⟨-, rfl⟩ := pure_runs hv
    rfl
  · nomatch he

theorem visitImpl_error {e : Diagnostic} (h : Runs (visitImpl C block) c (.error e) d) :
    c.scopes < d.scopes :=
  inScope_error (implReset_moves block) h

/-- An impl block that fails does so while its scope is open. -/
theorem implInScope_error {e : Diagnostic} (h : Runs (visitImpl C block) c (.error e) d) :
    Runs (implInScope C block) c.newScope (.error e) d := by
  rcases inScope_runs h with ⟨_, u, he, -⟩ | ⟨e', he, hu⟩
  · nomatch he
  · cases he
    rcases bind_runs hu with ⟨_, v, -, hv⟩ | ⟨e', he, hu⟩
    · rcases bind_runs hv with ⟨_, w, -, hw⟩ | ⟨e', -, hw⟩
      · nomatch (pure_runs hw).1
      · nomatch (setSelf_runs hw).1
    · cases he
      exact hu

theorem implInScope_ok {items : List HirItem} (h : Runs (visitImpl C block) c (.ok items) d) :
    Passes (implInScope C block) c.newScope := by
  rcases inScope_runs h with ⟨_, u, -, hu, -⟩ | ⟨e, he, -⟩
  · obtain ⟨result, v, hv, -⟩ := bind_ok hu
    exact ⟨result, v, hv⟩
  · nomatch he

end

end Spade.AstLowering

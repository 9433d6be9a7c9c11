import Spade.AstLowering.SelfContexts

/-!
# The frame after gathering types and symbols

`gather_types` restores the frame whatever it meets. `gather_symbols` restores it exactly if no
item that it reaches has an error between a `newScope` and its `closeScope`, or is a trait definition
that is accepted.

* **Types** (`gatherTypes_kept`).
* **Symbols** (`gatherSymbols_frame_iff`): by induction on the modules, from one lemma for each kind
  of item.
-/

namespace Spade.AstLowering

open Spade.Lib Spade.Lib.Failing
open Spade.Hir (Path)

variable {P : Parts} {C : Checks P} {α β : Type} {c d : Context P C.Rest}

/-! ### Namespaces -/

theorem popNamespace_runs {r : Except Diagnostic PUnit} (h : Runs (popNamespace (C := C)) c r d) :
    r = .ok ⟨⟩ ∧ c.popNamespace = some d := by
  unfold Runs at h
  change c.popNamespace.map _ = _ at h
  obtain ⟨d', hd, h⟩ := Option.map_eq_some_iff.mp h
  cases h
  exact ⟨rfl, hd⟩

theorem inNamespace_runs {name : String} {m : Lower C α} {r : Except Diagnostic α}
    (h : Runs (inNamespace C name m) c r d) :
    ∃ u, Runs m (c.pushNamespace name) r u ∧ u.popNamespace = some d := by
  unfold inNamespace at h
  rcases bind_runs h with ⟨_, c', h₁, h⟩ | ⟨e, -, h₁⟩
  · obtain ⟨-, rfl⟩ := modify_runs h₁
    rcases bind_runs h with ⟨q, u, h₂, h⟩ | ⟨e, -, h₂⟩
    · obtain ⟨q', hq, hu⟩ := attempt_runs h₂
      cases hq
      rcases bind_runs h with ⟨_, d', h₃, h⟩ | ⟨e, -, h₃⟩
      · obtain ⟨rfl, rfl⟩ := liftExcept_runs h
        exact ⟨u, hu, (popNamespace_runs h₃).2⟩
      · nomatch (popNamespace_runs h₃).1
    · obtain ⟨q', hq, -⟩ := attempt_runs h₂
      nomatch hq
  · nomatch (modify_runs h₁).1

/-- What was pushed is popped. -/
theorem popNamespace_eq {name : String} {u : Context P C.Rest} (hns : u.ns = c.ns ++ [name])
    (h : u.popNamespace = some d) : d = { u with ns := c.ns } := by
  unfold Context.popNamespace at h
  rw [hns, if_neg (by simp), List.dropLast_concat] at h
  exact (Option.some.inj h).symm

theorem kept_inNamespace {name : String} {m : Lower C α} (hm : Moves Kept Kept m) :
    Moves Kept Kept (inNamespace C name m) := by
  have hall : ∀ {c d : Context P C.Rest} {r : Except Diagnostic α},
      Runs (inNamespace C name m) c r d → Kept c d := by
    intro c d r h
    obtain ⟨u, hu, hd⟩ := inNamespace_runs h
    have hkept : Kept (c.pushNamespace name) u := hm.run hu
    have hns : u.ns = c.ns ++ [name] := hkept.ns
    rw [popNamespace_eq hns hd]
    have hs : u.scopes = c.scopes := hkept.scopes
    have hself : u.selfCtx = c.selfCtx := hkept.selfCtx
    exact ⟨by rw [hs, hself], hkept.nextId⟩
  exact ⟨hall, hall⟩

/-! ### Gathering types -/

theorem visitTypeDeclaration_kept (t : TypeDeclaration P) :
    Moves Kept Kept (visitTypeDeclaration C t) :=
  .bind composes_kept (.forM composes_kept _ fun param _ => visitTypeParamBounds_kept param)
    fun _ => check_kept _

mutual

theorem gatherTypes_kept (items : List (Item P)) : Moves Kept Kept (gatherTypes C items) :=
  match items with
  | [] => .pure composes_kept _
  | item :: items =>
    .bind composes_kept (gatherItemTypes_kept item) fun _ => gatherTypes_kept items

theorem gatherItemTypes_kept (item : Item P) : Moves Kept Kept (gatherItemTypes C item) :=
  match item with
  | .type t => visitTypeDeclaration_kept t
  | .module _ members =>
    .bind composes_kept (addUniqueThing_kept _ _) fun _ =>
      kept_inNamespace (gatherTypes_kept members)
  | .config _ => .bind composes_kept (addUniqueThing_kept _ _) fun _ => .pure composes_kept _
  | .use _ => check_kept _
  | .implBlock _ | .unit _ | .traitDef _ => .pure composes_kept _

end

/-! ### Scopes that are closed -/

theorem not_passes {m : Lower C α} {e : Diagnostic} (h : Runs m c (.error e) d) : ¬ Passes m c := by
  rintro ⟨a, u, hu⟩
  nomatch (runs_unique h hu).1

theorem frame_ne_of_scopes_lt (h : c.scopes < d.scopes) : d.toFrame ≠ c.toFrame := fun hf =>
  absurd (congrArg Frame.scopes hf) h.ne'

/-- What runs after the scope keeps the frame also on an error, so that the frame is restored
exactly if what runs in the scope succeeds. -/
theorem inScope_frame_iff {m : Lower C α} {f : α → Lower C β} (hm : Keeps m)
    (hf : ∀ a, Moves Kept Kept (f a)) {r : Except Diagnostic β}
    (h : Runs (inScope m >>= f) c r d) : d.toFrame = c.toFrame ↔ Passes m c.newScope := by
  rcases bind_runs h with ⟨a, u, hu, h⟩ | ⟨e, -, hu⟩
  · have hkept : Kept u d := (hf a).run h
    rcases inScope_runs hu with ⟨a', v, -, hv, rfl⟩ | ⟨e, he, -⟩
    · exact iff_of_true (hkept.frame.trans (hm.ok hv).closeScope.frame) ⟨a', v, hv⟩
    · nomatch he
  · rcases inScope_runs hu with ⟨a', v, he, -⟩ | ⟨e', -, hv⟩
    · nomatch he
    · exact iff_of_false (frame_ne_of_scopes_lt (hm.error hv).scopes) (not_passes hv)

/-! ### Gathering symbols -/

/-- When gathering the symbols of an item restores the frame: the checks pass that run while its
scope is open, and a trait definition is not accepted. -/
def GatherCloses (C : Checks P) (item : Item P) (c : Context P C.Rest) : Prop :=
  match item with
  | .unit u => Passes (unitHeadInScope C u.head none) c.newScope
  | .traitDef t => ¬ Passes (addUniqueThing (C := C) [t.name] (.trait t.name)) c
  | .type t => ∀ a d, Runs (check (C.lookupTypeSymbol [t.name])) c (.ok a) d →
      Passes (typeInScope C t) d.newScope
  | .module .. | .use _ | .config _ | .implBlock _ => True

/-- The trait that `self_ctx` is at has an id that was given out. -/
def Known (c : Context P C.Rest) : Prop :=
  ∀ name, c.selfCtx = .traitDefinition (.named name) → name.id < c.nextId

/-- Scopes are opened, and `self_ctx` is moved to new traits only. -/
structure Gathers (c d : Context P C.Rest) : Prop where
  scopes : c.scopes ≤ d.scopes
  ns : d.ns = c.ns
  nextId : c.nextId ≤ d.nextId
  selfCtx : d.selfCtx = c.selfCtx ∨ ∃ name, d.selfCtx = .traitDefinition (.named name) ∧
    c.nextId ≤ name.id ∧ name.id < d.nextId

theorem Left.gathers (h : Left c d) : Gathers c d := ⟨h.scopes, h.ns, h.nextId, .inl h.selfCtx⟩

theorem Gathers.trans {e : Context P C.Rest} (h : Gathers c d) (h' : Gathers d e) :
    Gathers c e where
  scopes := h.scopes.trans h'.scopes
  ns := h'.ns.trans h.ns
  nextId := h.nextId.trans h'.nextId
  selfCtx := by
    rcases h'.selfCtx with hself | ⟨name, hself, hle, hlt⟩
    · rcases h.selfCtx with hself' | ⟨name, hself', hle, hlt⟩
      · exact .inl (hself.trans hself')
      · exact .inr ⟨name, hself.trans hself', hle, hlt.trans_le h'.nextId⟩
    · exact .inr ⟨name, hself, h.nextId.trans hle, hlt⟩

theorem composes_gathers : Composes (Gathers (C := C)) Gathers where
  refl c := (Kept.refl c).left.gathers
  refl_error c := (Kept.refl c).left.gathers
  trans := .trans
  trans_error := .trans

theorem Keeps.gathers {m : Lower C α} (hm : Keeps m) : Moves Gathers Gathers m :=
  hm.mono (fun h => h.left.gathers) Left.gathers

theorem Gathers.known (h : Gathers c d) (hc : Known c) : Known d := by
  intro name hname
  rcases h.selfCtx with hself | ⟨name', hself, -, hlt⟩
  · exact (hc name (hself ▸ hname)).trans_le h.nextId
  · obtain rfl : name' = name := by
      rw [hself] at hname
      injection hname with hname
      injection hname
    exact hlt

/-- A frame that is restored at the end was never left. -/
theorem Gathers.frame_eq {e : Context P C.Rest} (hc : Known c) (h : Gathers c d)
    (h' : Gathers d e) (he : e.toFrame = c.toFrame) : d.toFrame = c.toFrame := by
  have hs : d.scopes = c.scopes :=
    le_antisymm (h'.scopes.trans (congrArg Frame.scopes he).le) h.scopes
  have hself : d.selfCtx = c.selfCtx := by
    have hce : e.selfCtx = c.selfCtx := congrArg Frame.selfCtx he
    rcases h.selfCtx with hself | ⟨name, hself, hle, -⟩
    · exact hself
    · rcases h'.selfCtx with hself' | ⟨name', hself', hle', -⟩
      · exact hself'.symm.trans hce
      · have hlt := hc name' (hce.symm.trans hself')
        exact absurd (h.nextId.trans hle') (not_le.mpr hlt)
  exact Frame.ext hs h.ns hself

theorem addUniqueThing_ok {name : Path} {item : Thing P} {id : NameID}
    (h : Runs (addUniqueThing (C := C) name item) c (.ok id) d) :
    c.nextId ≤ id.id ∧ id.id < d.nextId := by
  unfold addUniqueThing at h
  obtain ⟨_, u, hu, h₁⟩ := bind_ok h
  obtain ⟨v, w, hw, h₂⟩ := bind_ok h₁
  obtain ⟨hv, rfl⟩ := get_runs hw
  cases hv
  obtain ⟨_, x, hx, h₃⟩ := bind_ok h₂
  obtain ⟨-, rfl⟩ := modify_runs hx
  obtain ⟨_, y, hy, h₄⟩ := bind_ok h₃
  obtain ⟨hid, rfl⟩ := pure_runs h₄
  cases hid
  exact ⟨(check_runs hu).nextId, (check_runs hy).nextId⟩

theorem createTraitFromUnitHeads_gathers {name : NameID} {typeParams : Option (List (TypeParam P))}
    {whereClauses : List P.WhereClause} {heads : List (UnitHead P)} {r : Except Diagnostic PUnit}
    {b : Context P C.Rest} (hb : Kept b c) (hid : b.nextId ≤ name.id ∧ name.id < c.nextId)
    (h : Runs (createTraitFromUnitHeads C (.named name) typeParams whereClauses heads) c r d) :
    Gathers b d := by
  have hmoves := createTraitFromUnitHeads_moves (C := C) (.named name) typeParams whereClauses heads
  have hleft : LeftBut (AtTrait (.named name)) c d := by
    cases r with
    | ok a => exact ⟨(hmoves.ok h).scopes.ge, (hmoves.ok h).ns, (hmoves.ok h).selfCtx,
        (hmoves.ok h).nextId⟩
    | error e => exact hmoves.error h
  refine ⟨hb.scopes.ge.trans hleft.scopes, hleft.ns.trans hb.ns, hb.nextId.trans hleft.nextId, ?_⟩
  rcases hleft.selfCtx with hself | hself
  · exact .inl (hself.trans hb.selfCtx)
  · exact .inr ⟨name, hself, hid.1, hid.2.trans_le hleft.nextId⟩

theorem traitDef_gathers (t : TraitDef P) :
    Moves Gathers Gathers (GlobalSymbols.visitItem C (.traitDef t)) := by
  have hall : ∀ {c d : Context P C.Rest} {r : Except Diagnostic PUnit},
      Runs (GlobalSymbols.visitItem C (.traitDef t)) c r d → Gathers c d := by
    intro c d r h
    rcases bind_runs h with ⟨id, u, hu, h⟩ | ⟨e, -, hu⟩
    · exact createTraitFromUnitHeads_gathers ((addUniqueThing_kept _ _).ok hu)
        (addUniqueThing_ok hu) h
    · exact ((addUniqueThing_kept _ _).error hu).left.gathers
  exact ⟨hall, hall⟩

theorem Gathers.popNamespace {name : String} {u : Context P C.Rest}
    (h : Gathers (c.pushNamespace name) u) (hd : u.popNamespace = some d) : Gathers c d := by
  rw [popNamespace_eq (c := c) h.ns hd]
  exact ⟨h.scopes, rfl, h.nextId, h.selfCtx⟩

/-- The frame inside of a namespace is restored exactly if the one around it is. -/
theorem popNamespace_frame_iff {name : String} {u : Context P C.Rest}
    (hns : u.ns = c.ns ++ [name]) (hd : u.popNamespace = some d) :
    d.toFrame = c.toFrame ↔ u.toFrame = (c.pushNamespace name).toFrame := by
  rw [popNamespace_eq hns hd, Frame.ext_iff, Frame.ext_iff]
  constructor
  · rintro ⟨hs, -, hself⟩
    exact ⟨hs, hns, hself⟩
  · rintro ⟨hs, -, hself⟩
    exact ⟨hs, rfl, hself⟩

mutual

theorem gatherSymbols_gathers (items : List (Item P)) :
    Moves Gathers Gathers (gatherSymbols C items) :=
  match items with
  | [] => .pure composes_gathers _
  | item :: items =>
    .bind composes_gathers (GlobalSymbols.visitItem_gathers item) fun _ =>
      gatherSymbols_gathers items

theorem GlobalSymbols.visitItem_gathers (item : Item P) :
    Moves Gathers Gathers (GlobalSymbols.visitItem C item) :=
  match item with
  | .unit _ => (GlobalSymbols.visitUnit_keeps _ _ _).gathers
  | .traitDef t => traitDef_gathers t
  | .type t => (reVisitTypeDeclaration_keeps t).gathers
  | .module name members =>
    { ok := fun h => by
        obtain ⟨u, hu, hd⟩ := inNamespace_runs h
        exact ((gatherSymbols_gathers members).ok hu).popNamespace hd
      error := fun h => by
        obtain ⟨u, hu, hd⟩ := inNamespace_runs h
        exact ((gatherSymbols_gathers members).error hu).popNamespace hd }
  | .implBlock _ | .use _ | .config _ => .pure composes_gathers _

end

/-- The items that gathering the symbols of a module reaches, with the contexts it meets them in. -/
inductive GatherReaches (C : Checks P) :
    List (Item P) → Context P C.Rest → Item P → Context P C.Rest → Prop
  | here {i : Item P} {is : List (Item P)} {c : Context P C.Rest} : GatherReaches C (i :: is) c i c
  | later {i j : Item P} {is : List (Item P)} {c d e : Context P C.Rest}
      (h : Runs (GlobalSymbols.visitItem C i) c (.ok ⟨⟩) d) (hj : GatherReaches C is d j e) :
      GatherReaches C (i :: is) c j e
  | inside {name : String} {members is : List (Item P)} {j : Item P} {c e : Context P C.Rest}
      (hj : GatherReaches C members (c.pushNamespace name) j e) :
      GatherReaches C (.module name members :: is) c j e

/-- Every item that is reached meets the condition. -/
def GathersClosed (C : Checks P) (items : List (Item P)) (c : Context P C.Rest) : Prop :=
  ∀ i e, GatherReaches C items c i e → GatherCloses C i e

theorem gathersClosed_nil : GathersClosed C [] c := fun _ _ h => nomatch h

theorem gathersClosed_cons {item : Item P} {items : List (Item P)} :
    GathersClosed C (item :: items) c ↔ GathersClosed C [item] c ∧
      ∀ d, Runs (GlobalSymbols.visitItem C item) c (.ok ⟨⟩) d → GathersClosed C items d := by
  constructor
  · intro h
    refine ⟨fun i e hi => ?_, fun d hd i e hi => h i e (.later hd hi)⟩
    cases hi with
    | here => exact h _ _ .here
    | later _ hj => nomatch hj
    | inside hj => exact h _ _ (.inside hj)
  · rintro ⟨hitem, hitems⟩ i e hi
    cases hi with
    | here => exact hitem _ _ .here
    | later hd hj => exact hitems _ hd _ _ hj
    | inside hj => exact hitem _ _ (.inside hj)

theorem gathersClosed_module {name : String} {members : List (Item P)} :
    GathersClosed C [.module name members] c ↔
      GathersClosed C members (c.pushNamespace name) := by
  constructor
  · exact fun h i e hi => h i e (.inside hi)
  · intro h i e hi
    cases hi with
    | here => trivial
    | later _ hj => nomatch hj
    | inside hj => exact h _ _ hj

def Item.isModule : Item P → Bool
  | .module .. => true
  | _ => false

/-- An item that is no module is the only one that is reached. -/
theorem gathersClosed_single {item : Item P} (hitem : item.isModule = false) :
    GathersClosed C [item] c ↔ GatherCloses C item c := by
  constructor
  · exact fun h => h _ _ .here
  · intro h i e hi
    cases hi with
    | here => exact h
    | later _ hj => nomatch hj
    | inside hj => nomatch hitem

/-! ### Gathering symbols exactly -/

theorem liftExcept_kept (q : Except Diagnostic α) :
    Moves Kept Kept (liftExcept q : Lower C α) := .liftExcept composes_kept q

theorem GlobalSymbols.visitUnit_frame_iff {u : UnitDef P} {r : Except Diagnostic PUnit}
    (h : Runs (GlobalSymbols.visitUnit C [] u none) c r d) :
    d.toFrame = c.toFrame ↔ Passes (unitHeadInScope C u.head none) c.newScope := by
  unfold GlobalSymbols.visitUnit unitHead at h
  rw [bind_assoc] at h
  refine inScope_frame_iff (unitHeadInScope_keeps _ _) (fun errors => ?_) h
  have herrors : Moves Kept Kept (do
      liftExcept errors.port
      liftExcept errors.whereClauses
      liftExcept errors.unitKind : Lower C PUnit) :=
    .bind composes_kept (liftExcept_kept _) fun _ =>
      .bind composes_kept (liftExcept_kept _) fun _ => liftExcept_kept _
  exact .bind composes_kept herrors fun _ =>
    .bind composes_kept (addUniqueThing_kept _ _) fun _ => .pure composes_kept _

theorem traitDef_frame_iff {t : TraitDef P} {r : Except Diagnostic PUnit} (hc : Known c)
    (h : Runs (GlobalSymbols.visitItem C (.traitDef t)) c r d) :
    d.toFrame = c.toFrame ↔ ¬ Passes (addUniqueThing (C := C) [t.name] (.trait t.name)) c := by
  rcases bind_runs h with ⟨id, u, hu, h⟩ | ⟨e, -, hu⟩
  · refine iff_of_false (fun hf => ?_) (not_not.mpr ⟨id, u, hu⟩)
    have hkept := (addUniqueThing_kept _ _).ok hu
    cases r with
    | ok a =>
        have hself := createTraitFromUnitHeads_ok _ _ _ _ h
        have hid := hc id ((congrArg Frame.selfCtx hf).symm.trans hself)
        exact absurd (addUniqueThing_ok hu).1 (not_le.mpr hid)
    | error e =>
        have hs := inScope_error (traitInScope_moves _ _ _ _) h
        rw [hkept.scopes] at hs
        exact frame_ne_of_scopes_lt hs hf
  · exact iff_of_true ((addUniqueThing_kept _ _).error hu).frame (not_passes hu)

theorem reVisitTypeDeclaration_frame_iff {t : TypeDeclaration P} {r : Except Diagnostic PUnit}
    (h : Runs (reVisitTypeDeclaration C t) c r d) :
    d.toFrame = c.toFrame ↔ GatherCloses C (.type t) c := by
  rcases bind_runs h with ⟨a, u, hu, h⟩ | ⟨e, -, hu⟩
  · rw [← (check_runs hu).frame, inScope_frame_iff (typeInScope_keeps t) (fun _ => check_kept _) h]
    constructor
    · intro hp a' u' hu'
      obtain ⟨-, rfl⟩ := runs_unique hu hu'
      exact hp
    · exact fun hp => hp a u hu
  · refine iff_of_true (check_runs hu).frame fun a' u' hu' => ?_
    nomatch (runs_unique hu hu').1

mutual

theorem gatherSymbols_frame_iff (items : List (Item P)) {c d : Context P C.Rest}
    {r : Except Diagnostic PUnit} (hc : Known c) (h : Runs (gatherSymbols C items) c r d) :
    d.toFrame = c.toFrame ↔ GathersClosed C items c :=
  match items with
  | [] => iff_of_true (congrArg Context.toFrame (pure_runs h).2) gathersClosed_nil
  | item :: items => by
    rw [gathersClosed_cons]
    rcases bind_runs h with ⟨_, u, hu, h⟩ | ⟨e, -, hu⟩
    · have hcu := (GlobalSymbols.visitItem_gathers item).ok hu
      have hud : Gathers u d := (gatherSymbols_gathers items).run h
      have hitem := GlobalSymbols.visitItem_frame_iff item hc hu
      have hitems := gatherSymbols_frame_iff items (hcu.known hc) h
      constructor
      · intro hf
        have hfu := hcu.frame_eq hc hud hf
        refine ⟨hitem.mp hfu, fun u' hu' => ?_⟩
        obtain ⟨-, rfl⟩ := runs_unique hu hu'
        exact hitems.mp (hf.trans hfu.symm)
      · rintro ⟨h₁, h₂⟩
        exact (hitems.mpr (h₂ u hu)).trans (hitem.mpr h₁)
    · rw [GlobalSymbols.visitItem_frame_iff item hc hu]
      refine (and_iff_left fun u' hu' => ?_).symm
      nomatch (runs_unique hu hu').1

theorem GlobalSymbols.visitItem_frame_iff (item : Item P) {c d : Context P C.Rest}
    {r : Except Diagnostic PUnit} (hc : Known c) (h : Runs (GlobalSymbols.visitItem C item) c r d) :
    d.toFrame = c.toFrame ↔ GathersClosed C [item] c :=
  match item with
  | .unit u => by
    rw [gathersClosed_single rfl]
    exact GlobalSymbols.visitUnit_frame_iff h
  | .traitDef t => by
    rw [gathersClosed_single rfl]
    exact traitDef_frame_iff hc h
  | .type t => by
    rw [gathersClosed_single rfl]
    exact reVisitTypeDeclaration_frame_iff h
  | .module name members => by
    obtain ⟨u, hu, hd⟩ := inNamespace_runs h
    have hgathers : Gathers (c.pushNamespace name) u := (gatherSymbols_gathers members).run hu
    rw [gathersClosed_module, popNamespace_frame_iff hgathers.ns hd]
    exact gatherSymbols_frame_iff members hc hu
  | .implBlock _ | .use _ | .config _ => by
    rw [gathersClosed_single rfl]
    exact iff_of_true (congrArg Context.toFrame (pure_runs h).2) trivial

end

end Spade.AstLowering

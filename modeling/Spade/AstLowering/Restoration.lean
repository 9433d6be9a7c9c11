import Spade.AstLowering.Gathering

/-!
# When lowering restores the frame

The frame after a call of `gather_types`, `gather_symbols`, `visit_item` or `visit_module_body` is
the one before it exactly if no item that the call reaches takes one of four ways: an error between
a `newScope` and its `closeScope`, the early return of a builtin unit, a trait definition that is
accepted, and an impl block that is lowered while `self` is not free standing.

* **Items** (`visitItem_frame_iff`): by induction on the modules.
* **Calls** (`lowering_restores_iff`): the frame is restored exactly under the condition, and over
  the runs of the driver whose calls meet it.
-/

namespace Spade.AstLowering

open Spade.Lib Spade.Lib.Failing
open Spade.Hir (Path)

variable {P : Parts} {C : Checks P} {α β : Type} {c d : Context P C.Rest}

/-! ### Lowering items -/

/-- When lowering an item restores the frame: the checks pass that run while its scope is open, a
unit is no builtin, and `self` is free standing before an impl block. -/
def LowerCloses (C : Checks P) (item : Item P) (c : Context P C.Rest) : Prop :=
  match item with
  | .unit u => ∃ body, u.body = some body ∧ Passes (unitInScope C [] u none body) c.newScope
  | .implBlock block => c.selfCtx = .freeStanding ∧ Passes (implInScope C block) c.newScope
  | .traitDef _ | .type _ | .module .. | .use _ | .config _ => True

/-- Scopes are opened, and as long as none is, `self` is made free standing at most. -/
structure Lowers (c d : Context P C.Rest) : Prop where
  scopes : c.scopes ≤ d.scopes
  ns : d.ns = c.ns
  nextId : c.nextId ≤ d.nextId
  selfCtx : d.scopes = c.scopes → d.selfCtx = c.selfCtx ∨ d.selfCtx = .freeStanding
  entersNoTrait : EntersNoTrait c.selfCtx d.selfCtx

theorem Left.lowers (h : Left c d) : Lowers c d :=
  ⟨h.scopes, h.ns, h.nextId, fun _ => .inl h.selfCtx, h.selfCtx ▸ .refl _⟩

theorem Lowers.trans {e : Context P C.Rest} (h : Lowers c d) (h' : Lowers d e) : Lowers c e where
  scopes := h.scopes.trans h'.scopes
  ns := h'.ns.trans h.ns
  nextId := h.nextId.trans h'.nextId
  selfCtx hs := by
    have hd : d.scopes = c.scopes := le_antisymm (h'.scopes.trans hs.le) h.scopes
    rcases h'.selfCtx (hs.trans hd.symm) with hself | hself
    · rcases h.selfCtx hd with hself' | hself'
      · exact .inl (hself.trans hself')
      · exact .inr (hself.trans hself')
    · exact .inr hself
  entersNoTrait := h.entersNoTrait.trans h'.entersNoTrait

theorem composes_lowers : Composes (Lowers (C := C)) Lowers where
  refl c := (Kept.refl c).left.lowers
  refl_error c := (Kept.refl c).left.lowers
  trans := .trans
  trans_error := .trans

theorem Lowers.known (h : Lowers c d) (hc : Known c) : Known d := fun name hname =>
  (hc name (h.entersNoTrait name hname)).trans_le h.nextId

/-- A frame that is restored at the end was never left. -/
theorem Lowers.frame_eq {e : Context P C.Rest} (h : Lowers c d) (h' : Lowers d e)
    (he : e.toFrame = c.toFrame) : d.toFrame = c.toFrame := by
  have hes : e.scopes = c.scopes := congrArg Frame.scopes he
  have hs : d.scopes = c.scopes := le_antisymm (h'.scopes.trans hes.le) h.scopes
  have hself : d.selfCtx = c.selfCtx := by
    have hce : e.selfCtx = c.selfCtx := congrArg Frame.selfCtx he
    rcases h'.selfCtx (hes.trans hs.symm) with hself' | hself'
    · exact hself'.symm.trans hce
    · rcases h.selfCtx hs with hself | hself
      · exact hself
      · exact hself.trans (hself'.symm.trans hce)
  exact Frame.ext hs h.ns hself

theorem visitImpl_lowers {block : ImplBlock P} {r : Except Diagnostic (List HirItem)}
    (h : Runs (visitImpl C block) c r d) : Lowers c d := by
  cases r with
  | ok items =>
      obtain ⟨hs, hn, hself, hid⟩ := (visitImpl_moves block).ok h
      exact ⟨hs.ge, hn, hid, fun _ => .inr (visitImpl_ok h), hself⟩
  | error e =>
      obtain ⟨-, hn, hself, hid⟩ := (visitImpl_moves block).error h
      have hs := visitImpl_error h
      exact ⟨hs.le, hn, hid, fun heq => absurd heq hs.ne', hself⟩

theorem visitUnit_lowers {u : UnitDef P} {r : Except Diagnostic (List HirItem)}
    (h : Runs (visitItem C (.unit u)) c r d) : Lowers c d := by
  rcases bind_runs h with ⟨item, v, hv, h⟩ | ⟨e, -, hv⟩
  · obtain ⟨-, rfl⟩ := pure_runs h
    exact (visitUnit_left hv).lowers
  · exact (visitUnit_left hv).lowers

theorem Lowers.popNamespace {name : String} {u : Context P C.Rest}
    (h : Lowers (c.pushNamespace name) u) (hd : u.popNamespace = some d) : Lowers c d := by
  rw [popNamespace_eq (c := c) h.ns hd]
  exact ⟨h.scopes, rfl, h.nextId, h.selfCtx, h.entersNoTrait⟩

theorem addExecutables_kept (items : List HirItem) :
    Moves Kept Kept (addExecutables C items) := by
  induction items with
  | nil => exact .pure composes_kept _
  | cons item items ih =>
      cases item with
      | unit name => exact .bind composes_kept (check_kept _) fun _ => ih
      | builtin name => exact .bind composes_kept (check_kept _) fun _ => ih

theorem enterModule_kept (name : String) : Moves Kept Kept (enterModule C name) :=
  .bind composes_kept (.get composes_kept) fun _ => .bind composes_kept (check_kept _) fun _ =>
    check_kept _

theorem lowers_of_kept {m : Lower C α} (hm : Moves Kept Kept m) : Moves Lowers Lowers m :=
  hm.mono (fun h => h.left.lowers) fun h => h.left.lowers

mutual

theorem visitItem_lowers (item : Item P) : Moves Lowers Lowers (visitItem C item) :=
  match item with
  | .unit _ => ⟨visitUnit_lowers, visitUnit_lowers⟩
  | .implBlock _ => ⟨visitImpl_lowers, visitImpl_lowers⟩
  | .module name members =>
    have hbody : Moves Lowers Lowers (do
        enterModule C name
        visitModuleBody C members
        return ([] : List HirItem)) :=
      .bind composes_lowers (lowers_of_kept (enterModule_kept name)) fun _ =>
        .bind composes_lowers (visitModuleBody_lowers members) fun _ => .pure composes_lowers _
    { ok := fun h => by
        obtain ⟨u, hu, hd⟩ := inNamespace_runs h
        exact (hbody.ok hu).popNamespace hd
      error := fun h => by
        obtain ⟨u, hu, hd⟩ := inNamespace_runs h
        exact (hbody.error hu).popNamespace hd }
  | .use _ => .bind composes_lowers (lowers_of_kept (check_kept _)) fun _ => .pure composes_lowers _
  | .traitDef _ | .type _ | .config _ => .pure composes_lowers _

theorem visitModuleBody_lowers (items : List (Item P)) :
    Moves Lowers Lowers (visitModuleBody C items) :=
  match items with
  | [] => .pure composes_lowers _
  | item :: items =>
    .bind composes_lowers (visitItem_lowers item) fun _ =>
      .bind composes_lowers (lowers_of_kept (addExecutables_kept _)) fun _ =>
        visitModuleBody_lowers items

end

/-- A member of a module, with its items added to the item list. -/
def visitMember (C : Checks P) (item : Item P) : Lower C PUnit := do
  let items ← visitItem C item
  addExecutables C items

/-- The items that lowering a module reaches, with the contexts it meets them in. -/
inductive LowerReaches (C : Checks P) :
    List (Item P) → Context P C.Rest → Item P → Context P C.Rest → Prop
  | here {i : Item P} {is : List (Item P)} {c : Context P C.Rest} : LowerReaches C (i :: is) c i c
  | later {i j : Item P} {is : List (Item P)} {c d e : Context P C.Rest}
      (h : Runs (visitMember C i) c (.ok ⟨⟩) d) (hj : LowerReaches C is d j e) :
      LowerReaches C (i :: is) c j e
  | inside {name : String} {members is : List (Item P)} {j : Item P} {c d e : Context P C.Rest}
      (h : Runs (enterModule C name) (c.pushNamespace name) (.ok ⟨⟩) d)
      (hj : LowerReaches C members d j e) : LowerReaches C (.module name members :: is) c j e

/-- Every item that is reached meets the condition. -/
def LowersClosed (C : Checks P) (items : List (Item P)) (c : Context P C.Rest) : Prop :=
  ∀ i e, LowerReaches C items c i e → LowerCloses C i e

theorem lowersClosed_nil : LowersClosed C [] c := fun _ _ h => nomatch h

theorem lowersClosed_cons {item : Item P} {items : List (Item P)} :
    LowersClosed C (item :: items) c ↔ LowersClosed C [item] c ∧
      ∀ d, Runs (visitMember C item) c (.ok ⟨⟩) d → LowersClosed C items d := by
  constructor
  · intro h
    refine ⟨fun i e hi => ?_, fun d hd i e hi => h i e (.later hd hi)⟩
    cases hi with
    | here => exact h _ _ .here
    | later _ hj => nomatch hj
    | inside hd hj => exact h _ _ (.inside hd hj)
  · rintro ⟨hitem, hitems⟩ i e hi
    cases hi with
    | here => exact hitem _ _ .here
    | later hd hj => exact hitems _ hd _ _ hj
    | inside hd hj => exact hitem _ _ (.inside hd hj)

theorem lowersClosed_module {name : String} {members : List (Item P)} :
    LowersClosed C [.module name members] c ↔
      ∀ d, Runs (enterModule C name) (c.pushNamespace name) (.ok ⟨⟩) d →
        LowersClosed C members d := by
  constructor
  · exact fun h d hd i e hi => h i e (.inside hd hi)
  · intro h i e hi
    cases hi with
    | here => trivial
    | later _ hj => nomatch hj
    | inside hd hj => exact h _ hd _ _ hj

theorem lowersClosed_single {item : Item P} (hitem : item.isModule = false) :
    LowersClosed C [item] c ↔ LowerCloses C item c := by
  constructor
  · exact fun h => h _ _ .here
  · intro h i e hi
    cases hi with
    | here => exact h
    | later _ hj => nomatch hj
    | inside _ hj => nomatch hitem

/-! ### Lowering items exactly -/

theorem visitImpl_frame_iff {block : ImplBlock P} {r : Except Diagnostic (List HirItem)}
    (h : Runs (visitImpl C block) c r d) :
    d.toFrame = c.toFrame ↔ LowerCloses C (.implBlock block) c := by
  cases r with
  | ok items =>
      have hself := visitImpl_ok h
      have hmoves := (visitImpl_moves block).ok h
      constructor
      · exact fun hf => ⟨(congrArg Frame.selfCtx hf).symm.trans hself, implInScope_ok h⟩
      · exact fun hc => Frame.ext hmoves.scopes hmoves.ns (hself.trans hc.1.symm)
  | error e =>
      refine iff_of_false (frame_ne_of_scopes_lt (visitImpl_error h)) fun hc => ?_
      exact not_passes (implInScope_error h) hc.2

theorem visitUnit_frame_iff {u : UnitDef P} {r : Except Diagnostic (List HirItem)}
    (h : Runs (visitItem C (.unit u)) c r d) :
    d.toFrame = c.toFrame ↔ LowerCloses C (.unit u) c := by
  cases hbody : u.body with
  | none =>
      refine iff_of_false (frame_ne_of_scopes_lt ?_) fun ⟨body, hsome, _⟩ => ?_
      · rcases bind_runs h with ⟨item, v, hv, h⟩ | ⟨e, -, hv⟩
        · obtain ⟨-, rfl⟩ := pure_runs h
          exact (visitUnit_builtin_runs hbody hv).1.scopes
        · exact (visitUnit_builtin_runs hbody hv).1.scopes
      · rw [hbody] at hsome
        nomatch hsome
  | some body =>
      change Runs (visitUnit C [] u none >>= fun item => pure [item]) c r d at h
      rw [visitUnit_body hbody, bind_assoc] at h
      rw [inScope_frame_iff (unitInScope_keeps _ _ _ _) (fun _ => .bind composes_kept
        (.pure composes_kept _) fun _ => .pure composes_kept _) h]
      constructor
      · exact fun hp => ⟨body, hbody, hp⟩
      · rintro ⟨body', hsome, hp⟩
        rw [hbody] at hsome
        cases hsome
        exact hp

theorem visitModuleBody_cons (item : Item P) (items : List (Item P)) :
    visitModuleBody C (item :: items) = (do
      visitMember C item
      visitModuleBody C items) := by
  unfold visitMember
  rw [bind_assoc]
  rfl

theorem visitMember_lowers (item : Item P) : Moves Lowers Lowers (visitMember C item) :=
  .bind composes_lowers (visitItem_lowers item) fun _ => lowers_of_kept (addExecutables_kept _)

/-- Adding to the item list leaves the frame alone. -/
theorem visitMember_frame_iff {item : Item P} {r : Except Diagnostic PUnit} {Q : Prop}
    (hitem : ∀ {d : Context P C.Rest} {r}, Runs (visitItem C item) c r d →
      (d.toFrame = c.toFrame ↔ Q)) (h : Runs (visitMember C item) c r d) :
    d.toFrame = c.toFrame ↔ Q := by
  rcases bind_runs h with ⟨items, u, hu, h⟩ | ⟨e, -, hu⟩
  · rw [((addExecutables_kept items).run h).frame]
    exact hitem hu
  · exact hitem hu

/-- A module that is entered restores the frame exactly if its body does. -/
theorem moduleBody_runs {name : String} {members : List (Item P)} {u : Context P C.Rest}
    {r : Except Diagnostic (List HirItem)}
    (h : Runs (do
      enterModule C name
      visitModuleBody C members
      return []) (c.pushNamespace name) r u) :
    (∃ v r', Runs (enterModule C name) (c.pushNamespace name) (.ok ⟨⟩) v ∧
      Runs (visitModuleBody C members) v r' u) ∨
    ∃ e, Runs (enterModule C name) (c.pushNamespace name) (.error e) u := by
  rcases bind_runs h with ⟨_, v, hv, h⟩ | ⟨e, -, hu⟩
  · rcases bind_runs h with ⟨a, w, hw, h⟩ | ⟨e, -, hu⟩
    · obtain ⟨-, rfl⟩ := pure_runs h
      exact .inl ⟨v, .ok a, hv, hw⟩
    · exact .inl ⟨v, .error e, hv, hu⟩
  · exact .inr ⟨e, hu⟩

mutual

theorem visitItem_frame_iff (item : Item P) {c d : Context P C.Rest}
    {r : Except Diagnostic (List HirItem)} (h : Runs (visitItem C item) c r d) :
    d.toFrame = c.toFrame ↔ LowersClosed C [item] c :=
  match item with
  | .unit u => by
    rw [lowersClosed_single rfl]
    exact visitUnit_frame_iff h
  | .implBlock block => by
    rw [lowersClosed_single rfl]
    exact visitImpl_frame_iff h
  | .module name members => by
    obtain ⟨u, hu, hd⟩ := inNamespace_runs h
    rcases moduleBody_runs hu with ⟨v, r', hv, hbody⟩ | ⟨e, hv⟩
    · have hkept := (enterModule_kept name).ok hv
      have hns : u.ns = c.ns ++ [name] :=
        ((visitModuleBody_lowers members).run hbody).ns.trans hkept.ns
      rw [lowersClosed_module, popNamespace_frame_iff hns hd, ← hkept.frame,
        visitModuleBody_frame_iff members hbody]
      constructor
      · intro hclosed v' hv'
        obtain ⟨-, rfl⟩ := runs_unique hv hv'
        exact hclosed
      · exact fun hclosed => hclosed v hv
    · have hkept := (enterModule_kept name).error hv
      rw [lowersClosed_module, popNamespace_frame_iff hkept.ns hd]
      refine iff_of_true hkept.frame fun v' hv' => ?_
      nomatch (runs_unique hv hv').1
  | .use s => by
    rw [lowersClosed_single rfl]
    have huse : Moves Kept Kept (visitItem C (.use s)) :=
      .bind composes_kept (check_kept _) fun _ => .pure composes_kept _
    exact iff_of_true (huse.run h).frame trivial
  | .traitDef _ | .type _ | .config _ => by
    rw [lowersClosed_single rfl]
    exact iff_of_true (congrArg Context.toFrame (pure_runs h).2) trivial

theorem visitModuleBody_frame_iff (items : List (Item P)) {c d : Context P C.Rest}
    {r : Except Diagnostic PUnit} (h : Runs (visitModuleBody C items) c r d) :
    d.toFrame = c.toFrame ↔ LowersClosed C items c :=
  match items with
  | [] => iff_of_true (congrArg Context.toFrame (pure_runs h).2) lowersClosed_nil
  | item :: items => by
    rw [visitModuleBody_cons] at h
    rw [lowersClosed_cons]
    have hitem : ∀ {u : Context P C.Rest} {r}, Runs (visitMember C item) c r u →
        (u.toFrame = c.toFrame ↔ LowersClosed C [item] c) :=
      visitMember_frame_iff (visitItem_frame_iff item)
    rcases bind_runs h with ⟨_, u, hu, h⟩ | ⟨e, -, hu⟩
    · have hcu := (visitMember_lowers item).ok hu
      have hud : Lowers u d := (visitModuleBody_lowers items).run h
      have hitems := visitModuleBody_frame_iff items h
      constructor
      · intro hf
        have hfu := hcu.frame_eq hud hf
        refine ⟨(hitem hu).mp hfu, fun u' hu' => ?_⟩
        obtain ⟨-, rfl⟩ := runs_unique hu hu'
        exact hitems.mp (hf.trans hfu.symm)
      · rintro ⟨h₁, h₂⟩
        exact (hitems.mpr (h₂ u hu)).trans ((hitem hu).mpr h₁)
    · rw [hitem hu]
      refine (and_iff_left fun u' hu' => ?_).symm
      nomatch (runs_unique hu hu').1

end

/-! ### Calls and runs of the driver -/

/-- Every item that a call reaches restores the frame. -/
def Call.Closes (C : Checks P) : Call P → Context P C.Rest → Prop
  | .gatherTypes _, _ => True
  | .gatherSymbols body, c => GathersClosed C body c
  | .visitItem item, c => LowersClosed C [item] c
  | .visitModuleBody body, c => LowersClosed C body c

theorem Call.frame_iff (call : Call P) {r : Except Diagnostic PUnit} (hc : Known c)
    (h : Runs (call.run C) c r d) : d.toFrame = c.toFrame ↔ call.Closes C c := by
  cases call with
  | gatherTypes body => exact iff_of_true ((gatherTypes_kept body).run h).frame trivial
  | gatherSymbols body => exact gatherSymbols_frame_iff body hc h
  | visitItem item =>
      rcases bind_runs h with ⟨items, u, hu, h⟩ | ⟨e, -, hu⟩
      · obtain ⟨-, rfl⟩ := pure_runs h
        exact AstLowering.visitItem_frame_iff item hu
      · exact AstLowering.visitItem_frame_iff item hu
  | visitModuleBody body => exact visitModuleBody_frame_iff body h

theorem Call.known (call : Call P) {r : Except Diagnostic PUnit} (hc : Known c)
    (h : Runs (call.run C) c r d) : Known d := by
  cases call with
  | gatherTypes body => exact ((gatherTypes_kept body).run h).left.lowers.known hc
  | gatherSymbols body => exact ((gatherSymbols_gathers body).run h).known hc
  | visitItem item =>
      have hitem : Moves Lowers Lowers ((Call.visitItem item).run C) :=
        .bind composes_lowers (visitItem_lowers item) fun _ => .pure composes_lowers _
      exact (hitem.run h).known hc
  | visitModuleBody body => exact ((visitModuleBody_lowers body).run h).known hc

theorem popNamespace_fields (h : c.popNamespace = some d) :
    d = { c with ns := c.ns.dropLast } ∧ c.ns ≠ [] := by
  unfold Context.popNamespace at h
  split at h
  · nomatch h
  · rename_i hns
    exact ⟨(Option.some.inj h).symm, hns⟩

/-- In every context that is met, the trait of `self_ctx` has an id that was given out. -/
theorem Reachable.known (h : Reachable C c) : Known c := by
  induction h with
  | first _ _ hself =>
      intro name hname
      rw [hself] at hname
      nomatch hname
  | push _ _ ih => exact ih
  | pop _ hd ih =>
      obtain ⟨rfl, -⟩ := popNamespace_fields hd
      exact ih
  | other _ hn _ ih => exact fun name hname => (ih name hname).trans_le hn
  | call _ hd ih => exact Call.known _ ih hd

theorem pushNamespaces_frame (path : Path) (c : Context P C.Rest) :
    (path.foldl Context.pushNamespace c).toFrame = { c.toFrame with ns := c.ns ++ path } := by
  induction path generalizing c with
  | nil =>
      rw [List.append_nil]
      rfl
  | cons x path ih =>
      rw [List.foldl_cons, ih]
      unfold Context.pushNamespace
      rw [List.append_assoc]
      rfl

theorem Reachable.pushNamespaces (hc : Reachable C c) (path : Path) :
    Reachable C (path.foldl Context.pushNamespace c) := by
  induction path generalizing c with
  | nil => exact hc
  | cons x path ih => exact ih (hc.push x)

theorem Reachable.enterNamespace (hc : Reachable C c) (place : ModuleNamespace) :
    Reachable C (c.enterNamespace C place) :=
  (hc.pushNamespaces place.ns).other le_rfl _

theorem Reachable.popNamespaces (hc : Reachable C c) {path : Path}
    (h : path.foldlM (fun d _ => d.popNamespace) c = some d) : Reachable C d := by
  induction path generalizing c with
  | nil =>
      obtain rfl : c = d := Option.some.inj h
      exact hc
  | cons x path ih =>
      rw [List.foldlM_cons] at h
      obtain ⟨c', hc', h⟩ := Option.bind_eq_some_iff.mp h
      exact ih (hc.pop hc') h

theorem Reachable.leaveNamespace (hc : Reachable C c) {place : ModuleNamespace}
    (h : c.leaveNamespace C place = some d) : Reachable C d :=
  (hc.other le_rfl _).popNamespaces h

/-- Popping takes as many identifiers as there are to take. -/
theorem popNamespaces_frame {path added : Path} {f : Frame P} (hlen : added.length = path.length)
    (hc : c.toFrame = { f with ns := f.ns ++ added })
    (h : path.foldlM (fun d _ => d.popNamespace) c = some d) : d.toFrame = f := by
  induction path generalizing c added with
  | nil =>
      obtain rfl : c = d := Option.some.inj h
      rw [hc, List.length_eq_zero_iff.mp hlen, List.append_nil]
  | cons x path ih =>
      rw [List.foldlM_cons] at h
      obtain ⟨c', hc', h⟩ := Option.bind_eq_some_iff.mp h
      obtain ⟨rfl, -⟩ := popNamespace_fields hc'
      have hadded : added ≠ [] := by
        rintro rfl
        nomatch hlen
      have hlen' : added.dropLast.length = path.length := by
        rw [List.length_dropLast, hlen, List.length_cons, Nat.add_sub_cancel]
      refine ih hlen' ?_ h
      obtain ⟨hs, hns, hself⟩ := Frame.ext_iff.mp hc
      rw [hs, hself, hns, List.dropLast_append_of_ne_nil hadded]

/-- What was entered is left. -/
theorem leaveNamespace_frame {place : ModuleNamespace} {b : Context P C.Rest}
    (hc : c.toFrame = (b.enterNamespace C place).toFrame)
    (h : c.leaveNamespace C place = some d) : d.toFrame = b.toFrame :=
  popNamespaces_frame (c := { c with rest := C.setBaseNamespace [] c.rest }) rfl
    (hc.trans (pushNamespaces_frame place.ns b)) h

/-- A call restores the frame exactly if every item that it reaches does, and so does every run of
the driver whose calls do. -/
theorem lowering_restores_iff (C : Checks P) :
    (∀ (c d : Context P C.Rest) (call : Call P) (r : Except Diagnostic PUnit), Reachable C c →
      Runs (call.run C) c r d → (d.toFrame = c.toFrame ↔ call.Closes C c)) ∧
    ∀ (c d : Context P C.Rest) (calls : List (ModuleNamespace × Call P)), Reachable C c →
      Drives C (fun c call => call.Closes C c) c calls d → d.toFrame = c.toFrame := by
  refine ⟨fun c d call r hc h => call.frame_iff hc.known h, ?_⟩
  intro c d calls hc h
  induction h with
  | done => rfl
  | @step _ _ _ _ place _ _ _ hok h hd _ ih =>
      have henter := hc.enterNamespace place
      have hframe := (Call.frame_iff _ henter.known h).mpr hok
      rw [ih ((henter.call h).leaveNamespace hd), leaveNamespace_frame hframe hd]
  | other hn rest _ ih => exact ih (hc.other hn rest)

/-! ### Small programs

Programs without types, whose names are new, so that each check passes.
-/

def plainParts : Parts := ⟨Unit, Unit, Unit, Unit, Unit, Unit⟩

def accept {α : Type} (a : α) : Check plainParts Unit α := fun c => some (.ok a, 0, c.rest)

def plainChecks : Checks plainParts where
  Rest := Unit
  setBaseNamespace _ _ := ()
  ensureIsUnique _ := accept ⟨⟩
  addThingWithId _ _ _ := accept ⟨⟩
  addUniqueType _ _ := accept ⟨⟩
  addType _ _ := accept ⟨⟩
  reAddType _ _ := accept ⟨⟩
  addAlias _ _ := accept ⟨⟩
  addLocalVariable _ := accept ⟨⟩
  addDeclaration _ := accept ⟨⟩
  addEnumVariant _ _ := accept ⟨⟩
  addStruct _ := accept ⟨⟩
  lookupId _ := accept ⟨⟩
  lookupUnit path := accept { id := ⟨0, path.tail⟩, inputs := [], typeParams := [] }
  lookupCallee _ := accept ⟨⟩
  lookupTypeSymbol _ := accept ⟨⟩
  lookupTrait _ := accept ⟨0, ""⟩
  lookupComptimeConfig _ := accept 0
  isGeneric _ := accept false
  visitTypeParam _ := accept ⟨⟩
  reVisitTypeParam _ := accept ⟨⟩
  visitTypeSpec _ _ := accept ()
  visitTypeExpression _ _ := accept ⟨⟩
  visitTraitSpec _ _ := accept ⟨⟩
  visitWhereClauses _ := accept ⟨⟩
  visitPattern _ := accept ⟨⟩
  visitTurbofish _ := accept ⟨⟩
  isPort _ := accept false
  visitIdentifier _ := accept ⟨⟩
  lookupStageName _ := accept ⟨⟩
  lookupFsmState _ _ := accept ⟨⟩
  checkForUndefined := accept ⟨⟩
  maybePerformPipeliningTasks _ := accept ⟨⟩
  nextImplId := accept 0
  checkGenericParamsMatchTraitDef _ _ := accept ⟨⟩
  checkIsNoFunctionOnPortType _ _ := accept ⟨⟩
  checkTypeParamsForImplMethod _ _ := accept ⟨⟩
  monomorphiseTraitMethod _ _ _ := accept ⟨⟩
  checkOutputTypeForImplMethod _ _ := accept ⟨⟩
  checkParamsForImplMethod _ _ := accept ⟨⟩
  checkNoMissingMethods _ _ := accept ⟨⟩
  addTrait _ _ := accept ⟨⟩
  getTrait _ := accept none
  addImpl _ _ := accept ⟨⟩
  addTypeDeclaration _ := accept ⟨⟩
  addModule _ := accept ⟨⟩
  addExecutable _ := accept ⟨⟩

/-- The context before the first pass. -/
def firstContext : Context plainParts plainChecks.Rest where
  scopes := 1
  ns := []
  selfCtx := .freeStanding
  nextId := 0
  rest := ()

/-- The head of `entity f(…)`. -/
def entityHead (args : List (String × TypeSpec plainParts)) : UnitHead plainParts where
  attributes := []
  unitKind := .entity
  name := "f"
  inputs := ⟨false, args⟩
  outputType := none
  typeParams := none
  whereClauses := []

/-- `entity f() __builtin__` -/
def builtinEntity : Item plainParts := .unit ⟨entityHead [], none⟩

/-- `entity f(a: (), a: ()) {}` -/
def repeatedArgument : Item plainParts :=
  .unit ⟨entityHead [("a", .unit), ("a", .unit)], some (.block [] none)⟩

/-- `trait T {}` -/
def emptyTrait : Item plainParts := .traitDef ⟨"T", none, [], []⟩

/-- The context in which `entity f` is lowered. -/
def gatheredContext : Context plainParts plainChecks.Rest := { firstContext with nextId := 1 }

theorem reachable_first : Reachable plainChecks firstContext := .first rfl rfl rfl

/-- `entity f() {}` -/
def emptyEntity : Item plainParts := .unit ⟨entityHead [], some (.block [] none)⟩

/-- A unit with an empty body is gathered and lowered in the frame it is met in. -/
theorem lowering_restores_iff_entity :
    (Call.visitItem emptyEntity).Closes plainChecks gatheredContext ∧
    ∃ d, Drives plainChecks (fun c call => call.Closes plainChecks c) firstContext
        [(⟨[], []⟩, .gatherSymbols [emptyEntity]), (⟨[], []⟩, .visitModuleBody [emptyEntity])] d ∧
      d.toFrame = firstContext.toFrame := by
  have hiff := (lowering_restores_iff plainChecks).1
  have hgather : Runs ((Call.gatherSymbols [emptyEntity]).run plainChecks) firstContext (.ok ⟨⟩)
      gatheredContext := rfl
  have hitem : Runs ((Call.visitItem emptyEntity).run plainChecks) gatheredContext (.ok ⟨⟩)
      gatheredContext := rfl
  have hbody : Runs ((Call.visitModuleBody [emptyEntity]).run plainChecks) gatheredContext (.ok ⟨⟩)
      gatheredContext := rfl
  have hgathered : Reachable plainChecks gatheredContext := reachable_first.call hgather
  have hdrives : Drives plainChecks (fun c call => call.Closes plainChecks c) firstContext
      [(⟨[], []⟩, .gatherSymbols [emptyEntity]), (⟨[], []⟩, .visitModuleBody [emptyEntity])]
      gatheredContext :=
    .step ((hiff _ _ _ _ reachable_first hgather).mp rfl) hgather rfl
      (.step ((hiff _ _ _ _ hgathered hbody).mp rfl) hbody rfl (.done _))
  exact ⟨(hiff _ _ _ _ hgathered hitem).mp rfl, gatheredContext, hdrives,
    (lowering_restores_iff plainChecks).2 _ _ _ reachable_first hdrives⟩

/-- A builtin is lowered without an error and leaves its scope open, a trait definition is gathered
without an error and leaves `self_ctx` at the trait, and a head with an error leaves its scope
open. -/
theorem frame_not_restored :
    Reachable plainChecks firstContext ∧
    (∃ d, Runs ((Call.gatherSymbols [builtinEntity]).run plainChecks) firstContext (.ok ⟨⟩)
        gatheredContext ∧
      Runs ((Call.visitItem builtinEntity).run plainChecks) gatheredContext (.ok ⟨⟩) d ∧
      d.toFrame ≠ gatheredContext.toFrame) ∧
    (∃ d, Runs ((Call.gatherSymbols [emptyTrait]).run plainChecks) firstContext (.ok ⟨⟩) d ∧
      d.toFrame ≠ firstContext.toFrame) ∧
    ∃ d, Runs ((Call.gatherSymbols [repeatedArgument]).run plainChecks) firstContext
        (.error "Multiple arguments with the same name") d ∧
      d.toFrame ≠ firstContext.toFrame := by
  refine ⟨reachable_first, ⟨_, rfl, rfl, fun h => ?_⟩, ⟨_, rfl, fun h => ?_⟩, ⟨_, rfl, fun h => ?_⟩⟩
  · nomatch congrArg Frame.scopes h
  · nomatch congrArg Frame.selfCtx h
  · nomatch congrArg Frame.scopes h

end Spade.AstLowering

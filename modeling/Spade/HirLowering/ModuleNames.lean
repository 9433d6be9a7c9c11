import Mathlib.Data.List.Pairwise
import Spade.HirLowering.CompileItems
import Spade.Mir.VerilogNames

/-!
# The names of modules

How a unit comes to the name of its Verilog module: `visit_unit` of `spade-ast-lowering` chooses
between the path, the path with the id and the bare name, `request_compilation` gives an
instantiation a name of the same kind, the lowering of a call makes the name once more for the
instance, and `as_mir` writes it out.

* **Instances** (`Linked`): every instance of a unit has the name of the module that is compiled for
  that unit and those type parameters.
* **Identifiers** (`Program.modules_linked_and_distinct_iff`): moreover, the modules have different
  identifiers exactly when no `#[no_mangle]` unit is called like another one, or like the path of a
  unit.
-/

namespace Spade.HirLowering

open Typeinference

/-! ### The names of units -/

/-- The head of a unit: its path with the name at the end, the lists of type parameters of the unit
and of the impl block around it, and whether it has the attribute `#[no_mangle]`. -/
structure UnitHead where
  scope : List String
  name : String
  typeParams : Option (List NameID)
  scopeTypeParams : Option (List NameID)
  noMangle : Bool

namespace UnitHead

/-- The path of the unit. -/
def path (head : UnitHead) : List String := head.scope ++ [head.name]

/-- `get_type_params`. -/
def getTypeParams (head : UnitHead) : List NameID :=
  head.typeParams.getD [] ++ head.scopeTypeParams.getD []

/-- The unit or its impl block has a list of type parameters, empty or not. -/
def isGeneric (head : UnitHead) : Bool := head.typeParams.isSome || head.scopeTypeParams.isSome

/-- The choice of `unit_name` in `visit_unit`. -/
def unitName (head : UnitHead) (id : NameID) : Except String UnitName :=
  let unitName := if head.isGeneric then UnitName.withID id else .fullPath id
  if head.noMangle then
    if head.typeParams.isSome then
      .error "no_mangle is not allowed on generic units"
    else if head.scopeTypeParams.isSome then
      .error "no_mangle is not allowed on units inside generic impls"
    else
      .ok (.unmangled head.name id)
  else
    .ok unitName

end UnitHead

/-- `as_mir`, for a name with the given path. -/
def UnitName.asMir (path : List String) : UnitName → Mir.UnitNameKind
  | withID name => .escaped ("::".intercalate path ++ "[" ++ toString name.id ++ "]") path
  | fullPath _ => .escaped ("::".intercalate path) path
  | unmangled source _ => .unescaped source

/-! ### The modules -/

/-- An instance of a unit: the unit with the type parameters, and the name that is written. -/
structure UnitInstance where
  key : InstanceKey
  name : UnitName

/-- The lowering of a call to a unit, with the instance that it writes. -/
def MonoSystem.lowerAction (items : Items) (s : MonoSystem) :
    LowerAction → Option UnitInstance × MonoSystem
  | .call callee params =>
      match items.get callee with
      | some (.unit name typeParams) =>
          if !typeParams.isEmpty then
            let r : Request := ⟨name, false, params⟩
            let (newName, s) := s.requestCompilation r
            (some ⟨r.key, .withID newName⟩, s)
          else
            (some ⟨⟨name.nameId.id, []⟩, name⟩, s)
      | _ => (none, s)
  | .newName description => (none, (s.newName description).2)

/-- The instances that the lowering of a unit writes. -/
def MonoSystem.lowerActions (items : Items) (s : MonoSystem) :
    List LowerAction → List UnitInstance × MonoSystem
  | [] => ([], s)
  | a :: as =>
      let (written, s) := s.lowerAction items a
      let (others, s) := s.lowerActions items as
      (written.toList ++ others, s)

/-- A compiled item with the instances of units in it. -/
structure CompiledModule where
  item : MonoItem
  instances : List UnitInstance

variable (items : Items) (lowering : InstanceKey → List LowerAction)

/-- The loop over the queue, with the instances that are written. -/
def moduleLoop : ℕ → MonoSystem → Option (Except CompilePanic (List CompiledModule))
  | 0, _ => none
  | fuel + 1, s =>
      match s.nextTarget with
      | (none, _) => some (.ok [])
      | (some item, s) =>
          match items.get item.sourceName.id with
          | some (.unit _ _) =>
              let (instances, s) := s.lowerActions items (lowering item.key)
              (moduleLoop fuel s).map (Except.map (⟨item, instances⟩ :: ·))
          | some .structInstance => some (.error .structInstance)
          | some .enumInstance => some (.error .enumInstance)
          | some .builtinUnit => some (.error .builtinUnit)
          | none => some (.error (.noSuchItem item.sourceName))

/-- `compile_items`, with the instances that are written. -/
def compileModules (nextId fuel : ℕ) : Option (Except CompilePanic (List CompiledModule)) :=
  moduleLoop items lowering fuel
    ((items.entries.filterMap rootRequest).foldl (fun s r => (s.requestCompilation r).2)
      (.start nextId))

variable {items lowering}

theorem lowerAction_snd (s : MonoSystem) (a : LowerAction) :
    (s.lowerAction items a).2 = s.perform items a := by
  rcases a with ⟨callee, params⟩ | description
  · rcases hget : items.get callee with _ | _ | _ | ⟨name, typeParams⟩ | _
    all_goals simp only [MonoSystem.lowerAction, MonoSystem.perform, Items.callRequest, hget]
    split_ifs
    · rfl
    · rfl
  · rfl

theorem lowerActions_snd (s : MonoSystem) (as : List LowerAction) :
    (s.lowerActions items as).2 = as.foldl (MonoSystem.perform items) s := by
  induction as generalizing s with
  | nil => rfl
  | cons a as ih =>
      rw [List.foldl_cons, ← lowerAction_snd]
      exact ih _

/-- The items are those of `compileItems`. -/
theorem compileModules_items (nextId fuel : ℕ) :
    (compileModules items lowering nextId fuel).map (Except.map (List.map CompiledModule.item)) =
      compileItems items lowering nextId fuel := by
  unfold compileModules compileItems
  generalize (items.entries.filterMap rootRequest).foldl
    (fun s r => (s.requestCompilation r).2) (MonoSystem.start nextId) = s
  induction fuel generalizing s with
  | zero => rfl
  | succ fuel ih =>
      unfold moduleLoop compileLoop
      rcases hnext : s.nextTarget with ⟨_ | item, s'⟩
      · rfl
      · dsimp only
        rcases items.get item.sourceName.id with _ | entry
        · rfl
        · rcases entry with _ | _ | ⟨name, typeParams⟩ | _
          · rfl
          · rfl
          · dsimp only
            rw [← ih, lowerActions_snd, Option.map_map, Option.map_map]
            apply congrArg (Option.map · _)
            funext result
            rcases result with panic | modules
            · rfl
            · rfl
          · rfl

/-! ### Requests -/

@[simp]
theorem UnitName.nameId_rename (name : UnitName) (newName : NameID) :
    (name.rename newName).nameId = newName := by
  cases name <;> rfl

@[simp]
theorem UnitName.rename_nameId (name : UnitName) : name.rename name.nameId = name := by
  cases name <;> rfl

/-- The item is an instantiation of a unit with type parameters, with a name of the same kind. -/
def Items.IsInstantiation (items : Items) (item : MonoItem) : Prop :=
  ∃ name typeParams, items.get item.sourceName.id = some (.unit name typeParams) ∧
    typeParams ≠ [] ∧ item.newName = name.rename item.newName.nameId

/-- The instance is of a unit without type parameters, under the name of the unit. -/
def Items.IsPlainInstance (items : Items) (i : UnitInstance) : Prop :=
  items.get i.key.unit = some (.unit i.name []) ∧ i.key.params = []

/-- The instance is of the instantiation that is compiled as the item. -/
def UnitInstance.Of (i : UnitInstance) (item : MonoItem) : Prop :=
  item.key = i.key ∧ i.name = .withID item.newName.nameId

/-- The instances are of units without type parameters and of instantiations that are queued. -/
def InstancesOf (items : Items) (instances : List UnitInstance) (queued : List MonoItem) : Prop :=
  ∀ i ∈ instances, items.IsPlainInstance i ∨ ∃ item ∈ queued, i.Of item

/-- The items are instantiations with new ids in ascending order. -/
structure NewItems (items : Items) (low : ℕ) (queued : List MonoItem) : Prop where
  ids : ∀ item ∈ queued, low ≤ item.newName.nameId.id
  ascending : queued.Pairwise fun a b => a.newName.nameId.id < b.newName.nameId.id
  instantiations : ∀ item ∈ queued, items.IsInstantiation item

/-- Lowering has written the instances and put the items on the queue. -/
structure Lowered (items : Items) (s : MonoSystem) (instances : List UnitInstance)
    (queued : List MonoItem) (s' : MonoSystem) : Prop where
  empty : TableEmpty s'
  queue : s'.state.toCompile = s.state.toCompile ++ queued
  instances : InstancesOf items instances queued
  new : NewItems items s.nextId queued
  below : ∀ item ∈ queued, item.newName.nameId.id < s'.nextId
  nextId : s.nextId ≤ s'.nextId

theorem NewItems.nil (items : Items) (low : ℕ) : NewItems items low [] :=
  ⟨nofun, .nil, nofun⟩

theorem NewItems.append {low high : ℕ} {queued later : List MonoItem}
    (h : NewItems items low queued) (hle : low ≤ high)
    (hbelow : ∀ item ∈ queued, item.newName.nameId.id < high) (hlater : NewItems items high later) :
    NewItems items low (queued ++ later) := by
  constructor
  · intro item hitem
    rcases List.mem_append.mp hitem with hitem | hitem
    · exact h.ids item hitem
    · exact hle.trans (hlater.ids item hitem)
  · apply List.pairwise_append.mpr
    exact ⟨h.ascending, hlater.ascending,
      fun a ha b hb => (hbelow a ha).trans_le (hlater.ids b hb)⟩
  · intro item hitem
    rcases List.mem_append.mp hitem with hitem | hitem
    · exact h.instantiations item hitem
    · exact hlater.instantiations item hitem

theorem InstancesOf.mono {instances : List UnitInstance} {queued queued' : List MonoItem}
    (h : InstancesOf items instances queued) (hsub : queued ⊆ queued') :
    InstancesOf items instances queued' := by
  intro i hi
  rcases h i hi with hplain | ⟨item, hitem, hof⟩
  · exact Or.inl hplain
  · exact Or.inr ⟨item, hsub hitem, hof⟩

theorem InstancesOf.append {instances others : List UnitInstance} {queued : List MonoItem}
    (h : InstancesOf items instances queued) (hothers : InstancesOf items others queued) :
    InstancesOf items (instances ++ others) queued := by
  intro i hi
  rcases List.mem_append.mp hi with hi | hi
  · exact h i hi
  · exact hothers i hi

theorem Lowered.nil {s : MonoSystem} (h : TableEmpty s) : Lowered items s [] [] s :=
  ⟨h, (List.append_nil _).symm, nofun, .nil items _, nofun, le_rfl⟩

theorem Lowered.append {s s' s'' : MonoSystem} {instances others : List UnitInstance}
    {queued later : List MonoItem} (h : Lowered items s instances queued s')
    (hothers : Lowered items s' others later s'') :
    Lowered items s (instances ++ others) (queued ++ later) s'' := by
  constructor
  · exact hothers.empty
  · rw [hothers.queue, h.queue, List.append_assoc]
  · exact (h.instances.mono (List.subset_append_left _ _)).append
      (hothers.instances.mono (List.subset_append_right _ _))
  · exact h.new.append h.nextId h.below hothers.new
  · intro item hitem
    rcases List.mem_append.mp hitem with hitem | hitem
    · exact (h.below item hitem).trans_le hothers.nextId
    · exact hothers.below item hitem
  · exact h.nextId.trans hothers.nextId

/-- A call of a unit with type parameters. -/
theorem lowered_request {s : MonoSystem} (h : TableEmpty s) {name : UnitName}
    {typeParams : List NameID} (hget : items.get name.nameId.id = some (.unit name typeParams))
    (hparams : typeParams ≠ []) (params : List TypeVar) :
    let r : Request := ⟨name, false, params⟩
    Lowered items s [⟨r.key, .withID (s.requestCompilation r).1⟩] [r.item s.nextId]
      (s.requestCompilation r).2 := by
  intro r
  have hid : (r.item s.nextId).newName.nameId = ⟨s.nextId, name.nameId.tail⟩ :=
    UnitName.nameId_rename _ _
  rw [requestCompilation_eq h]
  constructor
  · rfl
  · rfl
  · intro i hi
    obtain rfl := List.mem_singleton.mp hi
    exact Or.inr ⟨_, List.mem_singleton_self _, rfl, by rw [hid]; rfl⟩
  · constructor
    · intro item hitem
      rw [List.mem_singleton.mp hitem, hid]
    · exact List.pairwise_singleton _ _
    · intro item hitem
      rw [List.mem_singleton.mp hitem]
      exact ⟨name, typeParams, hget, hparams, by rw [hid]; rfl⟩
  · intro item hitem
    rw [List.mem_singleton.mp hitem, hid]
    exact Nat.lt_succ_self _
  · exact r.le_nextId _

theorem lowered_action {s : MonoSystem} (h : TableEmpty s) (a : LowerAction) :
    ∃ queued, Lowered items s (s.lowerAction items a).1.toList queued
      (s.lowerAction items a).2 := by
  rcases a with ⟨callee, params⟩ | description
  · rcases hget : items.get callee with _ | _ | _ | ⟨name, typeParams⟩ | _
    all_goals simp only [MonoSystem.lowerAction, hget]
    case some.unit =>
      have hcallee : name.nameId.id = callee :=
        items.named callee name typeParams (Items.mem_of_get hget)
      rw [← hcallee] at hget
      split_ifs with hempty
      · exact ⟨_, lowered_request h hget (by simpa using hempty) params⟩
      · obtain rfl : typeParams = [] := by simpa using hempty
        refine ⟨[], h, (List.append_nil _).symm, ?_, .nil items _, nofun, le_rfl⟩
        intro i hi
        obtain rfl := List.mem_singleton.mp hi
        exact Or.inl ⟨hget, rfl⟩
    all_goals exact ⟨[], .nil h⟩
  · exact ⟨[], h, (List.append_nil _).symm, nofun, .nil items _, nofun, Nat.le_succ _⟩

theorem lowered_actions {s : MonoSystem} (h : TableEmpty s) (as : List LowerAction) :
    ∃ queued, Lowered items s (s.lowerActions items as).1 queued (s.lowerActions items as).2 := by
  induction as generalizing s with
  | nil => exact ⟨[], .nil h⟩
  | cons a as ih =>
      obtain ⟨queued, hfirst⟩ := lowered_action h a
      obtain ⟨later, hrest⟩ := ih hfirst.empty
      exact ⟨queued ++ later, hfirst.append hrest⟩

/-! ### The loop -/

/-- What a finished loop has compiled: the queue and then instantiations with new ids, to which
all instances belong. -/
structure Finished (items : Items) (s : MonoSystem) (modules : List CompiledModule)
    (later : List MonoItem) : Prop where
  compiled : modules.map CompiledModule.item = s.state.toCompile ++ later
  new : NewItems items s.nextId later
  instances : ∀ m ∈ modules, InstancesOf items m.instances later

theorem finished_of_moduleLoop {fuel : ℕ} {s : MonoSystem} (h : TableEmpty s)
    {modules : List CompiledModule}
    (hloop : moduleLoop items lowering fuel s = some (.ok modules)) :
    ∃ later, Finished items s modules later := by
  induction fuel generalizing s modules with
  | zero => exact absurd hloop nofun
  | succ fuel ih =>
      unfold moduleLoop at hloop
      rcases hnext : s.nextTarget with ⟨_ | item, s'⟩
      all_goals
        obtain ⟨hqueue, htable, hid⟩ := nextTarget_eq hnext
        rw [hnext] at hloop
      · cases hloop
        rw [Option.toList_none, List.nil_append] at hqueue
        refine ⟨[], ?_, .nil items _, nofun⟩
        unfold MonoSystem.nextTarget at hnext
        split at hnext
        · rename_i hempty
          rw [hempty]
          rfl
        · cases hnext
      · dsimp only at hloop
        rcases hget : items.get item.sourceName.id with _ | _ | _ | ⟨name, typeParams⟩ | _
        all_goals rw [hget] at hloop
        case some.unit =>
          obtain ⟨queued, hlowered⟩ :=
            lowered_actions (htable.trans h : TableEmpty s') (lowering item.key)
          dsimp only at hloop
          obtain ⟨result, hrest, hresult⟩ := Option.map_eq_some_iff.mp hloop
          rcases result with panic | others
          · cases hresult
          · cases hresult
            obtain ⟨later, hfinished⟩ := ih hlowered.empty hrest
            have hle : s.nextId ≤ s'.nextId := hid.ge
            refine ⟨queued ++ later, ?_, ?_, ?_⟩
            · rw [List.map_cons, hfinished.compiled, hlowered.queue, hqueue, List.append_assoc]
              rfl
            · rw [← hid]
              exact hlowered.new.append hlowered.nextId hlowered.below hfinished.new
            · intro m hm
              rcases List.mem_cons.mp hm with rfl | hm
              · exact hlowered.instances.mono (List.subset_append_left _ _)
              · exact (hfinished.instances m hm).mono (List.subset_append_right _ _)
        all_goals cases hloop

/-- The item of a unit without type parameters. -/
def rootItem : ℕ × ExecutableItem → Option MonoItem
  | (_, .unit name []) => some ⟨name.nameId, name, []⟩
  | _ => none

theorem rootRequest_item (entry : ℕ × ExecutableItem) (nextId : ℕ) :
    (rootRequest entry).map (Request.item · nextId) = rootItem entry ∧
      ∀ r ∈ rootRequest entry, r.reuseNameid = true := by
  rcases entry with ⟨id, _ | _ | ⟨name, _ | ⟨param, typeParams⟩⟩ | _⟩
  case unit.nil =>
    constructor
    · simp [rootRequest, Request.item, Request.answer, rootItem]
    · intro r hr
      obtain rfl := Option.some.inj hr
      rfl
  all_goals exact ⟨rfl, fun r hr => absurd hr (Option.not_mem_none r)⟩

theorem requests_state {s : MonoSystem} (h : TableEmpty s) {rs : List Request}
    (hreuse : ∀ r ∈ rs, r.reuseNameid = true) :
    rs.foldl (fun s r => (s.requestCompilation r).2) s =
      ⟨⟨s.state.toCompile ++ rs.map (Request.item · s.nextId), []⟩, s.nextId⟩ := by
  induction rs generalizing s with
  | nil =>
      have htable : s.state.translation = [] := h
      rcases s with ⟨⟨queue, table⟩, nextId⟩
      obtain rfl : table = [] := htable
      simp
  | cons r rs ih =>
      have hid : r.nextId s.nextId = s.nextId := if_pos (hreuse r List.mem_cons_self)
      have hafter : TableEmpty ⟨⟨s.state.toCompile ++ [r.item s.nextId], []⟩, s.nextId⟩ := rfl
      rw [List.foldl_cons, requestCompilation_eq h, hid,
        ih hafter fun r' hr' => hreuse r' (List.mem_cons_of_mem r hr')]
      simp

/-- The modules: those of the units without type parameters, then the instantiations. -/
theorem finished_of_compileModules {nextId fuel : ℕ} {modules : List CompiledModule}
    (hrun : compileModules items lowering nextId fuel = some (.ok modules)) :
    ∃ later, modules.map CompiledModule.item = items.entries.filterMap rootItem ++ later ∧
      NewItems items nextId later ∧ ∀ m ∈ modules, InstancesOf items m.instances later := by
  have hreuse : ∀ r ∈ items.entries.filterMap rootRequest, r.reuseNameid = true := by
    intro r hr
    obtain ⟨entry, -, hentry⟩ := List.mem_filterMap.mp hr
    exact (rootRequest_item entry 0).2 r hentry
  have hroots : (items.entries.filterMap rootRequest).map (Request.item · nextId) =
      items.entries.filterMap rootItem := by
    rw [List.map_filterMap]
    exact congrArg (List.filterMap · _) (funext fun entry => (rootRequest_item entry nextId).1)
  have hempty : TableEmpty (.start nextId) := rfl
  have hempty' : TableEmpty ⟨⟨(MonoSystem.start nextId).state.toCompile ++
    (items.entries.filterMap rootRequest).map (Request.item · nextId), []⟩, nextId⟩ := rfl
  unfold compileModules at hrun
  rw [requests_state hempty hreuse] at hrun
  obtain ⟨later, hfinished⟩ := finished_of_moduleLoop hempty' hrun
  refine ⟨later, ?_, hfinished.new, hfinished.instances⟩
  rw [hfinished.compiled, ← hroots]
  rfl

theorem mem_rootItems {item : MonoItem} :
    item ∈ items.entries.filterMap rootItem ↔
      items.get item.sourceName.id = some (.unit item.newName []) ∧ item.params = [] ∧
        item.sourceName = item.newName.nameId := by
  constructor
  · intro hmem
    obtain ⟨⟨id, entry⟩, hentry, hroot⟩ := List.mem_filterMap.mp hmem
    rcases entry with _ | _ | ⟨name, _ | ⟨param, typeParams⟩⟩ | _
    case unit.nil =>
      obtain rfl := Option.some.inj hroot
      have hid : name.nameId.id = id := items.named _ _ _ hentry
      refine ⟨?_, rfl, rfl⟩
      rw [hid]
      exact Items.get_of_mem hentry
    all_goals cases hroot
  · rintro ⟨hget, hparams, hsource⟩
    apply List.mem_filterMap.mpr
    refine ⟨_, Items.mem_of_get hget, ?_⟩
    rcases item with ⟨sourceName, newName, params⟩
    obtain rfl : params = [] := hparams
    obtain rfl : sourceName = newName.nameId := hsource
    rfl

/-! ### Texts -/

section Texts

/-- The names that the source language allows, as far as their characters matter here. -/
def IsIdentifier (name : String) : Prop :=
  ∀ c ∈ name.toList, c ≠ ' ' ∧ c ≠ '\\' ∧ c ≠ ':' ∧ c ≠ '[' ∧ c ≠ ']'

theorem append_inj_of_notMem {α : Type*} {a : α} {l₁ l₂ r₁ r₂ : List α} (h₁ : a ∉ l₁)
    (h₂ : a ∉ l₂) (h : l₁ ++ a :: r₁ = l₂ ++ a :: r₂) : l₁ = l₂ ∧ r₁ = r₂ := by
  have hreverse := congrArg List.reverse h
  simp only [List.reverse_append, List.reverse_cons, List.append_assoc, List.cons_append,
    List.nil_append] at hreverse
  obtain ⟨hr, hl⟩ := Mir.append_cons_inj (by simpa using h₁) (by simpa using h₂) hreverse
  exact ⟨List.reverse_injective hl, List.reverse_injective hr⟩

instance : DecidablePred IsIdentifier := fun name =>
  decidable_of_iff
    (name.toList.all fun c => c != ' ' && c != '\\' && c != ':' && c != '[' && c != ']')
    (by simp [IsIdentifier, and_assoc])

/-- Paths whose names have no colon are determined by their text. -/
theorem intercalate_inj {p q : List String} (hp : p ≠ []) (hq : q ≠ [])
    (hplain : ∀ name ∈ p, ':' ∉ name.toList) (hplain' : ∀ name ∈ q, ':' ∉ name.toList)
    (h : "::".intercalate p = "::".intercalate q) : p = q := by
  have hcons : ∀ (a b : String) (rest : List String),
      ("::".intercalate (a :: b :: rest)).toList =
        a.toList ++ ':' :: ':' :: ("::".intercalate (b :: rest)).toList := by
    intro a b rest
    rw [String.intercalate_cons_cons, String.toList_append, String.toList_append,
      List.append_assoc]
    rfl
  induction p generalizing q with
  | nil => exact absurd rfl hp
  | cons a p ih =>
      rcases q with _ | ⟨b, q⟩
      · exact absurd rfl hq
      · have ha := hplain a List.mem_cons_self
        have hb := hplain' b List.mem_cons_self
        have hlist := congrArg String.toList h
        rcases p with _ | ⟨a', p⟩ <;> rcases q with _ | ⟨b', q⟩
        · rw [String.intercalate_singleton, String.intercalate_singleton] at h
          rw [h]
        · rw [String.intercalate_singleton, hcons] at hlist
          exact absurd (hlist ▸ List.mem_append_right _ List.mem_cons_self) ha
        · rw [String.intercalate_singleton, hcons] at hlist
          exact absurd (hlist.symm ▸ List.mem_append_right _ List.mem_cons_self) hb
        · rw [hcons, hcons] at hlist
          obtain ⟨hhead, hrest⟩ := append_inj_of_notMem ha hb hlist
          rw [String.toList_inj.mp hhead, ih (List.cons_ne_nil _ _) (List.cons_ne_nil _ _)
            (fun name hname => hplain name (List.mem_cons_of_mem a hname))
            (fun name hname => hplain' name (List.mem_cons_of_mem b hname))
            (String.toList_inj.mp (List.cons.inj hrest).2)]

/-- What a name is written from: a path, and the id behind it. -/
def UnitName.label (path : List String) : UnitName → List String × Option ℕ
  | withID name => (path, some name.id)
  | fullPath _ => (path, none)
  | unmangled source _ => ([source], none)

/-- The text of a label. -/
def labelText : List String × Option ℕ → String
  | (path, some id) => "::".intercalate path ++ "[" ++ toString id ++ "]"
  | (path, none) => "::".intercalate path

theorem withoutEscapes_asMir (path : List String) (name : UnitName) :
    (name.asMir path).withoutEscapes = labelText (name.label path) := by
  cases name with
  | withID name => rfl
  | fullPath name => rfl
  | unmangled source name => exact (@String.intercalate_singleton "::" source).symm

/-- The label consists of names of the source language. -/
def PlainLabel (label : List String × Option ℕ) : Prop :=
  label.1 ≠ [] ∧ ∀ name ∈ label.1, IsIdentifier name

theorem forall_intercalate {p : Char → Prop} (hcolon : p ':') {path : List String}
    (h : ∀ name ∈ path, ∀ c ∈ name.toList, p c) : ∀ c ∈ ("::".intercalate path).toList, p c := by
  induction path with
  | nil => exact fun c hc => absurd hc (by simp)
  | cons a path ih =>
      have hrest := ih fun name hname => h name (List.mem_cons_of_mem a hname)
      rcases path with _ | ⟨b, path⟩
      · rw [String.intercalate_singleton]
        exact h a List.mem_cons_self
      · intro c hc
        rw [String.intercalate_cons_cons, String.toList_append, String.toList_append,
          List.mem_append, List.mem_append] at hc
        rcases hc with (hc | hc) | hc
        · exact h a List.mem_cons_self c hc
        · obtain rfl : c = ':' := by simpa using hc
          exact hcolon
        · exact hrest c hc

theorem toList_labelText_some (path : List String) (id : ℕ) :
    (labelText (path, some id)).toList =
      ("::".intercalate path).toList ++ '[' :: (Nat.toDigits 10 id ++ [']']) := by
  rw [labelText, String.toList_append, Mir.toList_append_toString, String.toList_append,
    List.append_assoc, List.append_assoc]
  rfl

theorem PlainLabel.isPlainText {label : List String × Option ℕ} (h : PlainLabel label) :
    Mir.IsPlainText (labelText label) := by
  have hpath := @forall_intercalate (fun c => c ≠ ' ' ∧ c ≠ '\\') (by decide) label.1
    fun name hname c hc => ⟨(h.2 name hname c hc).1, (h.2 name hname c hc).2.1⟩
  rcases label with ⟨path, _ | id⟩
  · exact hpath
  · apply Mir.IsPlainText.append
    · exact (Mir.IsPlainText.append (Mir.IsPlainText.append hpath (by decide))
        (Mir.isPlainText_toString id))
    · decide

theorem PlainLabel.colon_notMem {label : List String × Option ℕ} (h : PlainLabel label) :
    ∀ name ∈ label.1, ':' ∉ name.toList :=
  fun name hname hmem => (h.2 name hname ':' hmem).2.2.1 rfl

theorem PlainLabel.bracket_notMem {label : List String × Option ℕ} (h : PlainLabel label) :
    '[' ∉ ("::".intercalate label.1).toList := by
  have hall := @forall_intercalate (· ≠ '[') (by decide) label.1
    fun name hname c hc => (h.2 name hname c hc).2.2.2.1
  exact fun hmem => hall '[' hmem rfl

/-- Labels are determined by their texts. -/
theorem PlainLabel.text_inj {label label' : List String × Option ℕ} (h : PlainLabel label)
    (h' : PlainLabel label') (heq : labelText label = labelText label') : label = label' := by
  have hpath : "::".intercalate label.1 = "::".intercalate label'.1 → label.1 = label'.1 :=
    intercalate_inj h.1 h'.1 h.colon_notMem h'.colon_notMem
  have hlist := congrArg String.toList heq
  rcases label with ⟨path, _ | id⟩ <;> rcases label' with ⟨path', _ | id'⟩
  · obtain rfl : path = path' := hpath heq
    rfl
  · rw [toList_labelText_some] at hlist
    have hmem : '[' ∈ ("::".intercalate path).toList :=
      hlist ▸ List.mem_append_right _ List.mem_cons_self
    exact absurd hmem h.bracket_notMem
  · rw [toList_labelText_some] at hlist
    have hmem : '[' ∈ ("::".intercalate path').toList :=
      hlist.symm ▸ List.mem_append_right _ List.mem_cons_self
    exact absurd hmem h'.bracket_notMem
  · rw [toList_labelText_some, toList_labelText_some] at hlist
    obtain ⟨htext, hrest⟩ := append_inj_of_notMem h.bracket_notMem h'.bracket_notMem hlist
    obtain rfl : path = path' := hpath (String.toList_inj.mp htext)
    rw [Mir.toDigits_inj (List.append_cancel_right hrest)]

end Texts

/-! ### Programs -/

theorem UnitHead.isGeneric_of_getTypeParams {head : UnitHead} (h : head.getTypeParams ≠ []) :
    head.isGeneric = true := by
  rcases head with ⟨scope, name, _ | typeParams, _ | scopeTypeParams, noMangle⟩
  · exact absurd rfl h
  all_goals rfl

/-- The kinds of names: the bare name, the path with the id and the path. -/
theorem UnitHead.unitName_cases {head : UnitHead} {id : NameID} {name : UnitName}
    (h : head.unitName id = .ok name) :
    (head.noMangle = true ∧ head.isGeneric = false ∧ name = .unmangled head.name id) ∨
      (head.noMangle = false ∧ head.isGeneric = true ∧ name = .withID id) ∨
        (head.noMangle = false ∧ head.isGeneric = false ∧ name = .fullPath id) := by
  rcases head with ⟨scope, headName, _ | typeParams, _ | scopeTypeParams, _ | _⟩
  all_goals cases h
  all_goals simp [isGeneric]

/-- The id is that of a unit. -/
def Items.IsUnit (items : Items) (id : ℕ) : Prop :=
  ∃ name typeParams, items.get id = some (.unit name typeParams)

/-- The heads of the units of a program that AST lowering has accepted: no two units have the same
path. -/
structure Program (items : Items) where
  head : ℕ → UnitHead
  accepted : ∀ id name typeParams, items.get id = some (.unit name typeParams) →
    (head id).unitName name.nameId = .ok name ∧ (head id).getTypeParams = typeParams
  unique : ∀ id id', items.IsUnit id → items.IsUnit id' → (head id).path = (head id').path →
    id = id'
  identifiers : ∀ id, items.IsUnit id → ∀ name ∈ (head id).path, IsIdentifier name

namespace Program

variable (P : Program items)

/-- The name of the module for a unit, as MIR has it. New names have the path of the old ones. -/
def mirName (unit : ℕ) (name : UnitName) : Mir.UnitNameKind := name.asMir (P.head unit).path

/-- The identifier of a compiled module. -/
def identifier (m : CompiledModule) : List Char :=
  Mir.identifierText (P.mirName m.item.sourceName.id m.item.newName).asVerilog

/-- Every instance has the name of the module that is compiled for the unit and the type
parameters. -/
def Linked (modules : List CompiledModule) : Prop :=
  ∀ m ∈ modules, ∀ i ∈ m.instances, ∃ m' ∈ modules,
    m'.item.key = i.key ∧
      P.mirName m'.item.sourceName.id m'.item.newName = P.mirName i.key.unit i.name

/-- The unit `id` has the attribute `#[no_mangle]`, and `id'` is another unit with the same name
that is written without an id: it has the attribute as well, or it stands at the top. -/
structure Namesakes (id id' : ℕ) : Prop where
  isUnit : items.IsUnit id
  isUnit' : items.IsUnit id'
  ne : id ≠ id'
  noMangle : (P.head id).noMangle = true
  name : (P.head id').name = (P.head id).name
  bare : (P.head id').noMangle = true ∨ (P.head id').isGeneric = false ∧ (P.head id').scope = []

/-- What the name of an item is written from. -/
def label (item : MonoItem) : List String × Option ℕ :=
  item.newName.label (P.head item.sourceName.id).path

variable {P}

/-- An instantiation is written with its id. -/
theorem newName_of_isInstantiation (P : Program items) {item : MonoItem}
    (h : items.IsInstantiation item) : item.newName = .withID item.newName.nameId := by
  obtain ⟨name, typeParams, hget, hparams, hname⟩ := h
  obtain ⟨haccepted, htypeParams⟩ := P.accepted _ _ _ hget
  have hgeneric : (P.head item.sourceName.id).isGeneric = true := by
    apply UnitHead.isGeneric_of_getTypeParams
    rw [htypeParams]
    exact hparams
  rcases UnitHead.unitName_cases haccepted with ⟨-, hnot, -⟩ | ⟨-, -, hwithId⟩ | ⟨-, hnot, -⟩
  · rw [hgeneric] at hnot
    cases hnot
  · rw [hname, hwithId]
    rfl
  · rw [hgeneric] at hnot
    cases hnot

theorem label_of_isInstantiation {item : MonoItem} (h : items.IsInstantiation item) :
    P.label item = ((P.head item.sourceName.id).path, some item.newName.nameId.id) := by
  unfold label
  rw [newName_of_isInstantiation P h]
  rfl

theorem path_ne_nil (id : ℕ) : (P.head id).path ≠ [] :=
  List.append_ne_nil_of_right_ne_nil _ (List.cons_ne_nil _ _)

theorem plainLabel_of_isInstantiation {item : MonoItem} (h : items.IsInstantiation item) :
    PlainLabel (P.label item) := by
  rw [label_of_isInstantiation h]
  obtain ⟨name, typeParams, hget, -⟩ := h
  exact ⟨path_ne_nil _, P.identifiers _ ⟨_, _, hget⟩⟩

/-- The item of a unit without type parameters. -/
theorem label_of_root {item : MonoItem}
    (hget : items.get item.sourceName.id = some (.unit item.newName []))
    (hsource : item.sourceName = item.newName.nameId) :
    let head := P.head item.sourceName.id
    (head.noMangle = true ∧ head.isGeneric = false ∧ P.label item = ([head.name], none)) ∨
      (head.noMangle = false ∧ head.isGeneric = true ∧
        P.label item = (head.path, some item.sourceName.id)) ∨
      (head.noMangle = false ∧ head.isGeneric = false ∧ P.label item = (head.path, none)) := by
  obtain ⟨haccepted, -⟩ := P.accepted _ _ _ hget
  rw [← hsource] at haccepted
  unfold label
  rcases UnitHead.unitName_cases haccepted with ⟨hattr, hgeneric, hname⟩ |
    ⟨hattr, hgeneric, hname⟩ | ⟨hattr, hgeneric, hname⟩
  all_goals rw [hname]
  · exact Or.inl ⟨hattr, hgeneric, rfl⟩
  · exact Or.inr (Or.inl ⟨hattr, hgeneric, rfl⟩)
  · exact Or.inr (Or.inr ⟨hattr, hgeneric, rfl⟩)

theorem plainLabel_of_root {item : MonoItem}
    (hget : items.get item.sourceName.id = some (.unit item.newName []))
    (hsource : item.sourceName = item.newName.nameId) : PlainLabel (P.label item) := by
  have hplain := P.identifiers _ ⟨_, _, hget⟩
  rcases label_of_root hget hsource with ⟨-, -, hlabel⟩ | ⟨-, -, hlabel⟩ | ⟨-, -, hlabel⟩
  all_goals rw [hlabel]
  · refine ⟨List.cons_ne_nil _ _, fun name hname => ?_⟩
    obtain rfl := List.mem_singleton.mp hname
    exact hplain _ (List.mem_append_right _ (List.mem_singleton_self _))
  · exact ⟨path_ne_nil _, hplain⟩
  · exact ⟨path_ne_nil _, hplain⟩

/-- The identifier of a module is the text of its label. -/
theorem identifier_eq {m : CompiledModule} (h : PlainLabel (P.label m.item)) :
    P.identifier m = (labelText (P.label m.item)).toList := by
  have hescapes : (P.mirName m.item.sourceName.id m.item.newName).withoutEscapes =
      labelText (P.label m.item) := withoutEscapes_asMir _ _
  unfold identifier
  rw [Mir.identifierText_asVerilog (hescapes ▸ h.isPlainText), hescapes]

/-! ### Links and identifiers -/

section Runs

variable {nextId fuel : ℕ} {modules : List CompiledModule} {later : List MonoItem}

theorem linked_of_finished
    (hcompiled : modules.map CompiledModule.item = items.entries.filterMap rootItem ++ later)
    (hnew : NewItems items nextId later)
    (hinstances : ∀ m ∈ modules, InstancesOf items m.instances later) : P.Linked modules := by
  have hmodule : ∀ item ∈ items.entries.filterMap rootItem ++ later, ∃ m ∈ modules,
      m.item = item := fun item hitem => List.mem_map.mp (hcompiled ▸ hitem)
  intro m hm i hi
  rcases hinstances m hm i hi with ⟨hget, hparams⟩ | ⟨item, hitem, hkey, hname⟩
  · have hid : i.name.nameId.id = i.key.unit := items.named _ _ _ (Items.mem_of_get hget)
    have hroot : ⟨i.name.nameId, i.name, []⟩ ∈ items.entries.filterMap rootItem :=
      mem_rootItems.mpr ⟨by rw [hid]; exact hget, rfl, rfl⟩
    obtain ⟨m', hm', hitem⟩ := hmodule _ (List.mem_append_left _ hroot)
    refine ⟨m', hm', ?_, ?_⟩
    · rw [hitem]
      rcases i with ⟨⟨unit, params⟩, name⟩
      obtain rfl : params = [] := hparams
      exact congrArg (InstanceKey.mk · []) hid
    · rw [hitem, hid]
  · obtain ⟨m', hm', rfl⟩ := hmodule item (List.mem_append_right _ hitem)
    refine ⟨m', hm', hkey, ?_⟩
    rw [hname, newName_of_isInstantiation P (hnew.instantiations _ hitem), UnitName.nameId]
    exact congrArg (P.mirName · _) (congrArg InstanceKey.unit hkey)

section Roots

variable {a b : MonoItem} (ha : items.get a.sourceName.id = some (.unit a.newName []))
  (ha' : a.sourceName = a.newName.nameId)
  (hb : items.get b.sourceName.id = some (.unit b.newName []))
  (hb' : b.sourceName = b.newName.nameId)

include ha ha' hb hb'

theorem label_eq_of_namesakes (h : P.Namesakes a.sourceName.id b.sourceName.id) :
    P.label a = P.label b := by
  have hlabel_a : P.label a = ([(P.head a.sourceName.id).name], none) := by
    rcases label_of_root ha ha' with ⟨-, -, hlabel⟩ | ⟨hattr, -, -⟩ | ⟨hattr, -, -⟩
    · exact hlabel
    all_goals exact absurd (h.noMangle.symm.trans hattr) (by decide)
  rw [hlabel_a, ← h.name]
  rcases label_of_root hb hb' with ⟨-, -, hlabel⟩ | ⟨hattr, hgeneric, -⟩ | ⟨hattr, -, hlabel⟩
  · exact hlabel.symm
  · rcases h.bare with hbare | ⟨hbare, -⟩
    · exact absurd (hbare.symm.trans hattr) (by decide)
    · exact absurd (hbare.symm.trans hgeneric) (by decide)
  · rcases h.bare with hbare | ⟨-, hscope⟩
    · exact absurd (hbare.symm.trans hattr) (by decide)
    · rw [hlabel, UnitHead.path, hscope, List.nil_append]

/-- Labels of different units without type parameters are equal for namesakes only. -/
theorem namesakes_of_label_eq (hne : a.sourceName.id ≠ b.sourceName.id)
    (h : P.label a = P.label b) : P.Namesakes a.sourceName.id b.sourceName.id ∨
      P.Namesakes b.sourceName.id a.sourceName.id := by
  have hunit : items.IsUnit a.sourceName.id := ⟨_, _, ha⟩
  have hunit' : items.IsUnit b.sourceName.id := ⟨_, _, hb⟩
  have hsingle : ∀ {head : UnitHead} {name : String}, head.path = [name] →
      head.scope = [] ∧ head.name = name := by
    intro head name hpath
    simpa [UnitHead.path, List.append_eq_singleton_iff] using hpath
  rcases label_of_root ha ha' with ⟨hattr, hgeneric, hlabel⟩ | ⟨hattr, hgeneric, hlabel⟩ |
    ⟨hattr, hgeneric, hlabel⟩ <;>
  rcases label_of_root hb hb' with ⟨hattr', hgeneric', hlabel'⟩ | ⟨hattr', hgeneric', hlabel'⟩ |
    ⟨hattr', hgeneric', hlabel'⟩
  all_goals
    rw [hlabel, hlabel'] at h
    obtain ⟨hpath, hid⟩ := Prod.mk.inj h
  · exact Or.inl ⟨hunit, hunit', hne, hattr, (List.cons.inj hpath).1.symm, Or.inl hattr'⟩
  · cases hid
  · obtain ⟨hscope, hname⟩ := hsingle hpath.symm
    exact Or.inl ⟨hunit, hunit', hne, hattr, hname, Or.inr ⟨hgeneric', hscope⟩⟩
  · cases hid
  · exact absurd (Option.some.inj hid) hne
  · cases hid
  · obtain ⟨hscope, hname⟩ := hsingle hpath
    exact Or.inr ⟨hunit', hunit, hne.symm, hattr', hname, Or.inr ⟨hgeneric, hscope⟩⟩
  · cases hid
  · exact absurd (P.unique _ _ hunit hunit' hpath) hne

end Roots

/-- A unit without lists of type parameters is compiled under its own name. -/
theorem exists_root {id : ℕ} (hunit : items.IsUnit id) (hgeneric : (P.head id).isGeneric = false) :
    ∃ item ∈ items.entries.filterMap rootItem, item.sourceName.id = id := by
  obtain ⟨name, typeParams, hget⟩ := hunit
  have htypeParams := (P.accepted _ _ _ hget).2
  obtain rfl : typeParams = [] := by
    by_contra hne
    have hgeneric' := UnitHead.isGeneric_of_getTypeParams (htypeParams ▸ hne)
    exact absurd (hgeneric.symm.trans hgeneric') (by decide)
  have hid : name.nameId.id = id := items.named _ _ _ (Items.mem_of_get hget)
  exact ⟨⟨name.nameId, name, []⟩, mem_rootItems.mpr ⟨by rw [hid]; exact hget, rfl, rfl⟩, hid⟩

theorem isGeneric_of_noMangle {id : ℕ} (hunit : items.IsUnit id)
    (h : (P.head id).noMangle = true) : (P.head id).isGeneric = false := by
  obtain ⟨name, typeParams, hget⟩ := hunit
  rcases UnitHead.unitName_cases (P.accepted _ _ _ hget).1 with ⟨-, hgeneric, -⟩ | ⟨hattr, -, -⟩ |
    ⟨hattr, -, -⟩
  · exact hgeneric
  all_goals exact absurd (h.symm.trans hattr) (by decide)

/-- The units without type parameters have different labels exactly when no two are namesakes. -/
theorem pairwise_roots_iff :
    (items.entries.filterMap rootItem).Pairwise (fun a b => P.label a ≠ P.label b) ↔
      ∀ id id', ¬ P.Namesakes id id' := by
  constructor
  · intro hpairwise id id' h
    have hbare : (P.head id').isGeneric = false := by
      rcases h.bare with hbare | hbare
      · exact isGeneric_of_noMangle h.isUnit' hbare
      · exact hbare.1
    obtain ⟨a, ha, rfl⟩ := exists_root h.isUnit (isGeneric_of_noMangle h.isUnit h.noMangle)
    obtain ⟨b, hb, rfl⟩ := exists_root h.isUnit' hbare
    have hsymm : Std.Symm fun a b => P.label a ≠ P.label b := ⟨fun _ _ hne => hne.symm⟩
    have hne := hpairwise.forall ha hb fun heq => h.ne (by rw [heq])
    obtain ⟨hget, -, hsource⟩ := mem_rootItems.mp ha
    obtain ⟨hget', -, hsource'⟩ := mem_rootItems.mp hb
    exact hne (label_eq_of_namesakes hget hsource hget' hsource' h)
  · intro hnone
    have hids : (items.entries.filterMap rootItem).Pairwise fun a b =>
        a.sourceName.id < b.sourceName.id := by
      apply List.pairwise_filterMap.mpr
      apply items.ordered.imp_of_mem
      intro e e' he he' hlt a ha b hb
      have hid : ∀ {e : ℕ × ExecutableItem} {a : MonoItem}, e ∈ items.entries →
          rootItem e = some a → a.sourceName.id = e.1 := by
        rintro ⟨id, _ | _ | ⟨name, _ | ⟨param, typeParams⟩⟩ | _⟩ a hmem hroot
        case unit.nil =>
          cases hroot
          exact items.named _ _ _ hmem
        all_goals cases hroot
      rw [hid he ha, hid he' hb]
      exact hlt
    apply hids.imp_of_mem
    intro a b ha hb hlt heq
    obtain ⟨hget, -, hsource⟩ := mem_rootItems.mp ha
    obtain ⟨hget', -, hsource'⟩ := mem_rootItems.mp hb
    rcases namesakes_of_label_eq hget hsource hget' hsource' hlt.ne heq with h | h
    · exact hnone _ _ h
    · exact hnone _ _ h

/-- Instantiations do not add to that: their ids are new. -/
theorem pairwise_label_iff (hids : ∀ e ∈ items.entries, e.1 < nextId)
    (hnew : NewItems items nextId later) :
    (items.entries.filterMap rootItem ++ later).Pairwise (fun a b => P.label a ≠ P.label b) ↔
      ∀ id id', ¬ P.Namesakes id id' := by
  rw [List.pairwise_append, ← pairwise_roots_iff]
  refine ⟨And.left, fun hroots => ⟨hroots, ?_, ?_⟩⟩
  · apply hnew.ascending.imp_of_mem
    intro a b ha hb hlt heq
    rw [label_of_isInstantiation (hnew.instantiations a ha),
      label_of_isInstantiation (hnew.instantiations b hb)] at heq
    exact hlt.ne (Option.some.inj (Prod.mk.inj heq).2)
  · intro a ha b hb heq
    obtain ⟨hget, -, hsource⟩ := mem_rootItems.mp ha
    rw [label_of_isInstantiation (hnew.instantiations b hb)] at heq
    rcases label_of_root hget hsource with ⟨-, -, hlabel⟩ | ⟨-, -, hlabel⟩ | ⟨-, -, hlabel⟩
    all_goals
      rw [hlabel] at heq
      have hid := (Prod.mk.inj heq).2
    · cases hid
    · have hlow := hids _ (Items.mem_of_get hget)
      rw [Option.some.inj hid] at hlow
      exact absurd (hnew.ids b hb) (not_le.mpr hlow)
    · cases hid

end Runs

/-- In every finished run, all instances are linked to the modules of their instantiations, and the
identifiers of the modules are different exactly where no two units are namesakes. -/
theorem modules_linked_and_distinct_iff (P : Program items) {nextId fuel : ℕ}
    (hids : ∀ e ∈ items.entries, e.1 < nextId) {modules : List CompiledModule}
    (hrun : compileModules items lowering nextId fuel = some (.ok modules)) :
    P.Linked modules ∧
      ((modules.map P.identifier).Nodup ↔ ∀ id id', ¬ P.Namesakes id id') := by
  obtain ⟨later, hcompiled, hnew, hinstances⟩ := finished_of_compileModules hrun
  refine ⟨linked_of_finished hcompiled hnew hinstances, ?_⟩
  have hplain : ∀ m ∈ modules, PlainLabel (P.label m.item) := by
    intro m hm
    have hitem : m.item ∈ items.entries.filterMap rootItem ++ later :=
      hcompiled ▸ List.mem_map_of_mem hm
    rcases List.mem_append.mp hitem with hitem | hitem
    · obtain ⟨hget, -, hsource⟩ := mem_rootItems.mp hitem
      exact plainLabel_of_root hget hsource
    · exact plainLabel_of_isInstantiation (hnew.instantiations _ hitem)
  rw [← pairwise_label_iff hids hnew, ← hcompiled, List.pairwise_map, List.Nodup,
    List.pairwise_map]
  apply List.Pairwise.iff_of_mem
  intro m m' hm hm'
  rw [identifier_eq (hplain m hm), identifier_eq (hplain m' hm')]
  apply not_congr
  constructor
  · exact fun heq => (hplain m hm).text_inj (hplain m' hm') (String.toList_inj.mp heq)
  · exact fun heq => congrArg (fun label => (labelText label).toList) heq

end Program

/-! ### A program with two calls -/

/-- `f` has a type parameter, `main` calls it, and `top` is there twice. -/
def itemsWithTops : Items where
  entries := [(0, .unit (.withID ⟨0, "f"⟩) [⟨1, "W"⟩]), (2, .unit (.fullPath ⟨2, "main"⟩) []),
    (3, .unit (.unmangled "top" ⟨3, "top"⟩) []), (4, .unit (.fullPath ⟨4, "top"⟩) [])]
  ordered := by simp
  named id name typeParams h := by
    simp only [List.mem_cons, Prod.mk.injEq, ExecutableItem.unit.injEq, List.not_mem_nil,
      or_false] at h
    rcases h with ⟨rfl, rfl, -⟩ | ⟨rfl, rfl, -⟩ | ⟨rfl, rfl, -⟩ | ⟨rfl, rfl, -⟩
    all_goals rfl

/-- One `top` has the attribute `#[no_mangle]`, and the other one is in the module `lib`. -/
def headsWithTops : ℕ → UnitHead
  | 0 => ⟨[], "f", some [⟨1, "W"⟩], none, false⟩
  | 2 => ⟨[], "main", none, none, false⟩
  | 3 => ⟨[], "top", none, none, true⟩
  | _ => ⟨["lib"], "top", none, none, false⟩

theorem itemsWithTops_units {id : ℕ} (h : itemsWithTops.IsUnit id) : id ∈ [0, 2, 3, 4] := by
  obtain ⟨name, typeParams, hget⟩ := h
  have hmem := Items.mem_of_get hget
  simp only [itemsWithTops, List.mem_cons, Prod.mk.injEq, List.not_mem_nil, or_false] at hmem
  rcases hmem with ⟨rfl, -⟩ | ⟨rfl, -⟩ | ⟨rfl, -⟩ | ⟨rfl, -⟩
  all_goals decide

def programWithTops : Program itemsWithTops where
  head := headsWithTops
  accepted id name typeParams h := by
    have hmem := Items.mem_of_get h
    simp only [itemsWithTops, List.mem_cons, Prod.mk.injEq, ExecutableItem.unit.injEq,
      List.not_mem_nil, or_false] at hmem
    rcases hmem with ⟨rfl, rfl, rfl⟩ | ⟨rfl, rfl, rfl⟩ | ⟨rfl, rfl, rfl⟩ | ⟨rfl, rfl, rfl⟩
    all_goals exact ⟨rfl, rfl⟩
  unique id id' h h' := by
    have hpaths : ∀ id ∈ [0, 2, 3, 4], ∀ id' ∈ [0, 2, 3, 4],
        (headsWithTops id).path = (headsWithTops id').path → id = id' := by decide
    exact hpaths id (itemsWithTops_units h) id' (itemsWithTops_units h')
  identifiers id h := by
    have hplain : ∀ id ∈ [0, 2, 3, 4], ∀ name ∈ (headsWithTops id).path, IsIdentifier name := by
      decide
    exact hplain id (itemsWithTops_units h)

/-- Two calls of `f` become two modules, and the two units called `top` have different names. -/
theorem modules_linked_and_distinct_tops :
    ∃ modules, compileModules itemsWithTops (fun k => if k.unit = 2 then [callOfF, callOfF] else [])
        5 6 = some (.ok modules) ∧
      programWithTops.Linked modules ∧ (modules.map programWithTops.identifier).Nodup := by
  have hids : ∀ e ∈ itemsWithTops.entries, e.1 < 5 := by simp [itemsWithTops]
  obtain ⟨modules, hrun⟩ : ∃ modules, compileModules itemsWithTops
      (fun k => if k.unit = 2 then [callOfF, callOfF] else []) 5 6 = some (.ok modules) := ⟨_, rfl⟩
  obtain ⟨hlinked, hnodup⟩ := programWithTops.modules_linked_and_distinct_iff hids hrun
  refine ⟨modules, hrun, hlinked, hnodup.mpr ?_⟩
  intro id id' h
  -- only the unit 3 has the attribute, and no other one with its name stands at the top
  have hnone : ∀ id ∈ [0, 2, 3, 4], ∀ id' ∈ [0, 2, 3, 4], id ≠ id' →
      (headsWithTops id).noMangle = true → (headsWithTops id').name = (headsWithTops id).name →
        ¬ ((headsWithTops id').noMangle = true ∨
          (headsWithTops id').isGeneric = false ∧ (headsWithTops id').scope = []) := by
    decide
  exact hnone id (itemsWithTops_units h.isUnit) id' (itemsWithTops_units h.isUnit') h.ne
    h.noMangle h.name h.bare

end Spade.HirLowering

import Spade.HirLowering.Monomorphisation
import Spade.Lib.Worklists

/-!
# The loop of `compile_items`

`compile_items` of `spade-hir-lowering/src/monomorphisation.rs`: every unit without type parameters
is requested, and then the queue is worked off. Lowering a unit requests the units with type
parameters that it calls.

* **Simulation** (`compileLoop_process`): because the table of names stays empty, the loop is the
  work list without a memory, over the keys of the instantiations.
* **Termination** (`compileItems_terminates_iff`): the loop ends exactly where no instantiation
  requests itself, directly or through others.
* **Both** (`compiledOnce_and_terminates_iff`).

What the lowering of a unit does is a parameter: the calls that it lowers and the names that it
makes. It sees type parameters only as comparison does. Its result is left out.
-/

namespace Spade.HirLowering

open Typeinference Lib Relation

/-! ### The loop -/

/-- `ExecutableItem`. -/
inductive ExecutableItem where
  | enumInstance
  | structInstance
  | unit (name : UnitName) (typeParams : List NameID)
  | builtinUnit

/-- The items with the ids of their names, by which they are ordered. -/
structure Items where
  entries : List (ℕ × ExecutableItem)
  ordered : entries.Pairwise fun a b => a.1 < b.1
  named : ∀ id name typeParams, (id, .unit name typeParams) ∈ entries → name.nameId.id = id

/-- The item with an id. -/
def Items.get (items : Items) (id : ℕ) : Option ExecutableItem :=
  (items.entries.find? fun e => e.1 == id).map Prod.snd

/-- What the lowering of a unit does with the state: it lowers a call to a unit for which the
generic list of the call has some types, or it makes a name. -/
inductive LowerAction where
  | call (callee : ℕ) (params : List TypeVar)
  | newName (description : String)

/-- The request of a call: only units with type parameters are requested. -/
def Items.callRequest (items : Items) : LowerAction → Option Request
  | .call callee params =>
      match items.get callee with
      | some (.unit name typeParams) =>
          if !typeParams.isEmpty then some ⟨name, false, params⟩ else none
      | _ => none
  | .newName _ => none

/-- The state after an action. -/
def MonoSystem.perform (items : Items) (s : MonoSystem) : LowerAction → MonoSystem
  | .call callee params =>
      match items.callRequest (.call callee params) with
      | some r => (s.requestCompilation r).2
      | none => s
  | .newName description => (s.newName description).2

/-- The panics of the loop. -/
inductive CompilePanic where
  | structInstance
  | enumInstance
  | builtinUnit
  | noSuchItem (name : NameID)

variable (items : Items) (lowering : InstanceKey → List LowerAction)

/-- The loop over the queue: the items in the order in which they are compiled, `none` when the fuel
is used up. -/
def compileLoop : ℕ → MonoSystem → Option (Except CompilePanic (List MonoItem))
  | 0, _ => none
  | fuel + 1, s =>
      match s.nextTarget with
      | (none, _) => some (.ok [])
      | (some item, s) =>
          match items.get item.sourceName.id with
          | some (.unit _ _) =>
              (compileLoop fuel ((lowering item.key).foldl (MonoSystem.perform items) s)).map
                (Except.map (item :: ·))
          | some .structInstance => some (.error .structInstance)
          | some .enumInstance => some (.error .enumInstance)
          | some .builtinUnit => some (.error .builtinUnit)
          | none => some (.error (.noSuchItem item.sourceName))

/-- The request for an item before the loop: units without type parameters keep their name. -/
def rootRequest : ℕ × ExecutableItem → Option Request
  | (_, .unit name typeParams) => if typeParams.isEmpty then some ⟨name, true, []⟩ else none
  | _ => none

/-- `compile_items`. -/
def compileItems (nextId fuel : ℕ) : Option (Except CompilePanic (List MonoItem)) :=
  compileLoop items lowering fuel
    ((items.entries.filterMap rootRequest).foldl (fun s r => (s.requestCompilation r).2)
      (.start nextId))

/-! ### Instantiations -/

/-- The instantiations that the lowering of an instantiation requests. -/
def requestedBy (k : InstanceKey) : List InstanceKey :=
  ((lowering k).filterMap items.callRequest).map Request.key

/-- The units without type parameters. -/
def roots : List InstanceKey := (items.entries.filterMap rootRequest).map Request.key

/-- The instantiations that the program needs. -/
def Instantiated (k : InstanceKey) : Prop :=
  Worklist.Reached (requestedBy items lowering) (roots items) k

/-- The instantiation requests itself, directly or through others. -/
def RequestsItself (k : InstanceKey) : Prop :=
  TransGen (Worklist.Adds (requestedBy items lowering)) k k

variable {items lowering}

/-- Everything in the queue is a unit. -/
def UnitsQueued (items : Items) (keys : List InstanceKey) : Prop :=
  ∀ k ∈ keys, ∃ name typeParams, items.get k.unit = some (.unit name typeParams)

theorem Items.mem_of_get {id : ℕ} {item : ExecutableItem} (h : items.get id = some item) :
    (id, item) ∈ items.entries := by
  obtain ⟨⟨id', item'⟩, hfind, rfl⟩ := Option.map_eq_some_iff.mp h
  obtain rfl : id' = id := by simpa using List.find?_some hfind
  exact List.mem_of_find?_eq_some hfind

theorem Items.get_of_mem {id : ℕ} {item : ExecutableItem} (h : (id, item) ∈ items.entries) :
    items.get id = some item := by
  obtain ⟨before, after, hsplit⟩ := List.append_of_mem h
  have hordered := items.ordered
  rw [hsplit, List.pairwise_append] at hordered
  have hbefore : before.find? (fun e => e.1 == id) = none := by
    apply List.find?_eq_none.mpr
    intro e he hid
    have hlt := hordered.2.2 e he (id, item) List.mem_cons_self
    rw [beq_iff_eq] at hid
    exact absurd hlt (hid ▸ lt_irrefl _)
  unfold Items.get
  rw [hsplit, List.find?_append, hbefore]
  simp

theorem unit_of_callRequest {a : LowerAction} {r : Request} (h : items.callRequest a = some r) :
    ∃ name typeParams, items.get r.key.unit = some (.unit name typeParams) := by
  unfold Items.callRequest at h
  split at h
  · split at h
    · rename_i callee _ _ name typeParams hget
      obtain ⟨-, hr⟩ := Option.ite_some_none_eq_some.mp h
      refine ⟨name, typeParams, ?_⟩
      rw [← hr]
      change items.get name.nameId.id = _
      rw [items.named callee name typeParams (Items.mem_of_get hget)]
      exact hget
    · exact absurd h (Option.some_ne_none r).symm
  · exact absurd h (Option.some_ne_none r).symm

theorem unitsQueued_requestedBy (k : InstanceKey) :
    UnitsQueued items (requestedBy items lowering k) := by
  intro k' hk
  obtain ⟨r, hr, rfl⟩ := List.mem_map.mp hk
  obtain ⟨a, -, ha⟩ := List.mem_filterMap.mp hr
  exact unit_of_callRequest ha

theorem unitsQueued_roots : UnitsQueued items (roots items) := by
  intro k hk
  obtain ⟨r, hr, rfl⟩ := List.mem_map.mp hk
  obtain ⟨⟨id, item⟩, hmem, hroot⟩ := List.mem_filterMap.mp hr
  unfold rootRequest at hroot
  split at hroot
  · rename_i e id' name typeParams heq
    obtain rfl : item = .unit name typeParams := (Prod.ext_iff.mp heq).2
    obtain ⟨-, hr⟩ := Option.ite_some_none_eq_some.mp hroot
    refine ⟨name, typeParams, ?_⟩
    rw [← hr]
    change items.get name.nameId.id = _
    rw [items.named _ _ _ hmem]
    exact Items.get_of_mem hmem
  · exact absurd hroot (Option.some_ne_none r).symm

/-! ### The work list -/

/-- The keys of the queue. -/
def MonoSystem.queue (s : MonoSystem) : List InstanceKey := s.state.toCompile.map MonoItem.key

theorem request_queue {s : MonoSystem} (h : TableEmpty s) (r : Request) :
    TableEmpty (s.requestCompilation r).2 ∧
      (s.requestCompilation r).2.queue = s.queue ++ [r.key] := by
  rw [requestCompilation_eq h]
  exact ⟨rfl, List.map_append⟩

theorem requests_queue {s : MonoSystem} (h : TableEmpty s) (rs : List Request) :
    TableEmpty (rs.foldl (fun s r => (s.requestCompilation r).2) s) ∧
      (rs.foldl (fun s r => (s.requestCompilation r).2) s).queue =
        s.queue ++ rs.map Request.key := by
  induction rs generalizing s with
  | nil => exact ⟨h, (List.append_nil _).symm⟩
  | cons r rs ih =>
      obtain ⟨hempty, hqueue⟩ := request_queue h r
      obtain ⟨hempty', hqueue'⟩ := ih hempty
      refine ⟨hempty', hqueue'.trans ?_⟩
      rw [hqueue, List.append_assoc]
      rfl

theorem perform_queue {s : MonoSystem} (h : TableEmpty s) (a : LowerAction) :
    TableEmpty (s.perform items a) ∧
      (s.perform items a).queue = s.queue ++ (items.callRequest a).toList.map Request.key := by
  cases a with
  | newName description => exact ⟨h, (List.append_nil _).symm⟩
  | call callee params =>
      simp only [MonoSystem.perform]
      cases items.callRequest (.call callee params) with
      | none => exact ⟨h, (List.append_nil _).symm⟩
      | some r => exact request_queue h r

theorem performs_queue {s : MonoSystem} (h : TableEmpty s) (as : List LowerAction) :
    TableEmpty (as.foldl (MonoSystem.perform items) s) ∧
      (as.foldl (MonoSystem.perform items) s).queue =
        s.queue ++ (as.filterMap items.callRequest).map Request.key := by
  induction as generalizing s with
  | nil => exact ⟨h, (List.append_nil _).symm⟩
  | cons a as ih =>
      obtain ⟨hempty, hqueue⟩ := perform_queue h a
      obtain ⟨hempty', hqueue'⟩ := ih hempty
      refine ⟨hempty', hqueue'.trans ?_⟩
      rw [hqueue, List.append_assoc, ← List.map_append]
      cases hreq : items.callRequest a with
      | none => rw [List.filterMap_cons_none hreq]; rfl
      | some r => rw [List.filterMap_cons_some hreq]; rfl

/-- The loop is the work list over the keys, and does not panic. -/
theorem compileLoop_process {fuel : ℕ} {s : MonoSystem} (h : TableEmpty s)
    (hunits : UnitsQueued items s.queue) :
    (compileLoop items lowering fuel s).map (Except.map (List.map MonoItem.key)) =
      (Worklist.process (requestedBy items lowering) fuel s.queue).map Except.ok := by
  induction fuel generalizing s with
  | zero => rfl
  | succ fuel ih =>
      unfold compileLoop
      cases hqueue : s.state.toCompile with
      | nil =>
          unfold MonoSystem.nextTarget MonoSystem.queue
          rw [hqueue]
          rfl
      | cons item rest =>
          let s' : MonoSystem := { s with state.toCompile := rest }
          have hnext : s.nextTarget = (some item, s') := by
            unfold MonoSystem.nextTarget
            rw [hqueue]
          have hkeys : s.queue = item.key :: s'.queue := by
            unfold MonoSystem.queue
            rw [hqueue]
            rfl
          rw [hkeys] at hunits
          obtain ⟨name, typeParams, hget⟩ := hunits item.key List.mem_cons_self
          have hempty' : TableEmpty s' := h
          obtain ⟨hempty, hqueue'⟩ := @performs_queue items s' hempty' (lowering item.key)
          have hall : UnitsQueued items (s'.queue ++ requestedBy items lowering item.key) := by
            intro k hk
            rcases List.mem_append.mp hk with hk | hk
            · exact hunits k (List.mem_cons_of_mem _ hk)
            · exact unitsQueued_requestedBy item.key k hk
          have hloop := ih hempty (hqueue' ▸ hall)
          rw [hqueue'] at hloop
          rw [hnext, hkeys, Worklist.process]
          change items.get item.sourceName.id = _ at hget
          simp only [hget, Option.map_map]
          have hcons : Except.map (List.map MonoItem.key) ∘ Except.map (item :: ·) =
              @Except.map CompilePanic _ _ (item.key :: ·) ∘
                Except.map (List.map MonoItem.key) := by
            funext e
            cases e <;> rfl
          rw [hcons, ← Option.map_map, hloop, Option.map_map]
          rfl

/-! ### Termination -/

theorem compileItems_process (nextId fuel : ℕ) :
    (compileItems items lowering nextId fuel).map (Except.map (List.map MonoItem.key)) =
      (Worklist.process (requestedBy items lowering) fuel (roots items)).map Except.ok := by
  have hstart : TableEmpty (.start nextId) := rfl
  obtain ⟨hempty, hqueue⟩ := requests_queue hstart (items.entries.filterMap rootRequest)
  have hroots : (roots items) = [] ++ (items.entries.filterMap rootRequest).map Request.key := rfl
  rw [hroots]
  unfold compileItems
  change _ = (MonoSystem.start nextId).queue ++ _ at hqueue
  rw [show (MonoSystem.start nextId).queue = [] from rfl] at hqueue
  rw [← hqueue]
  apply compileLoop_process hempty
  rw [hqueue, ← hroots]
  exact unitsQueued_roots

/-- The loop ends. -/
def CompileItemsTerminates (items : Items) (lowering : InstanceKey → List LowerAction)
    (nextId : ℕ) : Prop :=
  ∃ fuel out, compileItems items lowering nextId fuel = some (.ok out)

theorem compileItems_terminates_iff (nextId : ℕ)
    (hfinite : {k | Instantiated items lowering k}.Finite) :
    CompileItemsTerminates items lowering nextId ↔
      ∀ k, Instantiated items lowering k → ¬ RequestsItself items lowering k := by
  refine Iff.trans ?_ (Worklist.terminates_iff_acyclic hfinite)
  apply exists_congr
  intro fuel
  have hprocess := @compileItems_process items lowering nextId fuel
  constructor
  · rintro ⟨out, hout⟩
    rw [hout] at hprocess
    obtain ⟨keys, hkeys, -⟩ := Option.map_eq_some_iff.mp hprocess.symm
    exact ⟨keys, hkeys⟩
  · rintro ⟨keys, hkeys⟩
    rw [hkeys] at hprocess
    obtain ⟨result, hresult, hok⟩ := Option.map_eq_some_iff.mp hprocess
    cases result with
    | error panic => exact absurd hok nofun
    | ok out => exact ⟨out, hresult⟩

theorem compiledOnce_and_terminates_iff {start : ℕ} {h : List (Transition MonoSystem MonoEvent)}
    {s : MonoSystem} (hreach : Reaches MonoStep (.start start) h s) (hknown : KnownUnits start h)
    (nextId : ℕ) (hfinite : {k | Instantiated items lowering k}.Finite) :
    (CompiledOnce h s ↔ RequestedOnce h) ∧
      (CompileItemsTerminates items lowering nextId ↔
        ∀ k, Instantiated items lowering k → ¬ RequestsItself items lowering k) :=
  ⟨compiledOnce_iff hreach hknown, compileItems_terminates_iff nextId hfinite⟩

/-! ### A unit with a type parameter, and one that calls it -/

/-- A call of `f` with eight bits. -/
def callOfF : LowerAction := .call 0 [.known (.integer 8) []]

def instanceOfF : InstanceKey := ⟨0, [.known (.integer 8) []]⟩

/-- `f` has a type parameter and `main` has none. -/
def itemsWithMain : Items where
  entries := [(0, .unit (.withID ⟨0, "f"⟩) [⟨1, "W"⟩]), (2, .unit (.withID ⟨2, "main"⟩) [])]
  ordered := by simp
  named id name typeParams h := by
    simp only [List.mem_cons, Prod.mk.injEq, ExecutableItem.unit.injEq, List.not_mem_nil,
      or_false] at h
    rcases h with ⟨rfl, rfl, -⟩ | ⟨rfl, rfl, -⟩ <;> rfl

/-- The request of such a call. -/
def requestOfF : Request := ⟨.withID ⟨0, "f"⟩, false, [.known (.integer 8) []]⟩

/-- All that is called is `f`. -/
def OnlyF (lowering : InstanceKey → List LowerAction) : Prop :=
  ∀ k, ∀ a ∈ lowering k, a = callOfF

theorem OnlyF.adds {lowering : InstanceKey → List LowerAction} (h : OnlyF lowering)
    {k' k : InstanceKey} (hadds : Worklist.Adds (requestedBy itemsWithMain lowering) k' k) :
    k' = instanceOfF := by
  obtain ⟨r, hr, rfl⟩ := List.mem_map.mp hadds
  obtain ⟨a, ha, har⟩ := List.mem_filterMap.mp hr
  rw [h k a ha] at har
  obtain rfl : requestOfF = r := Option.some.inj har
  rfl

theorem OnlyF.finite {lowering : InstanceKey → List LowerAction} (h : OnlyF lowering) :
    {k | Instantiated itemsWithMain lowering k}.Finite := by
  apply Set.Finite.subset (Set.toFinite {instanceOfF, ⟨2, []⟩})
  rintro k ⟨root, hroot, hreach⟩
  rcases hreach.cases_head with rfl | ⟨k', hadds, -⟩
  · right
    simpa [roots, itemsWithMain, rootRequest, Request.key, TypeVar.keys, UnitName.nameId]
      using hroot
  · left
    exact h.adds hadds

/-- The state after `n` calls. -/
def afterCalls (n : ℕ) : MonoSystem :=
  (List.replicate n requestOfF).foldl (fun s r => (s.requestCompilation r).2) (.start 3)

/-- The run of these requests. -/
def callsOfF : ℕ → List (Transition MonoSystem MonoEvent)
  | 0 => []
  | n + 1 => callsOfF n ++
      [⟨afterCalls n, .request requestOfF ((afterCalls n).requestCompilation requestOfF).1,
        afterCalls (n + 1)⟩]

theorem reaches_callsOfF (n : ℕ) : Reaches MonoStep (.start 3) (callsOfF n) (afterCalls n) := by
  induction n with
  | zero => exact .start
  | succ n ih =>
      refine .next ih ?_
      unfold afterCalls
      rw [List.replicate_succ', List.foldl_append]
      rfl

theorem answered_callsOfF (n : ℕ) :
    ∀ a ∈ observed answered (callsOfF n), a.1 = requestOfF := by
  induction n with
  | zero => exact fun a ha => absurd ha List.not_mem_nil
  | succ n ih =>
      intro a ha
      rw [callsOfF, observed_next] at ha
      rcases List.mem_append.mp ha with ha | ha
      · exact ih a ha
      · obtain rfl := List.mem_singleton.mp ha
        rfl

theorem knownUnits_callsOfF (n : ℕ) : KnownUnits 3 (callsOfF n) := by
  intro a ha
  rw [answered_callsOfF n a ha]
  decide

theorem compiledOnce_oneCall :
    CompiledOnce (callsOfF 1) (afterCalls 1) ∧
      CompileItemsTerminates itemsWithMain (fun k => if k.unit = 2 then [callOfF] else []) 3 := by
  have honly : OnlyF fun k => if k.unit = 2 then [callOfF] else [] := by
    intro k a ha
    dsimp only at ha
    split_ifs at ha
    · exact List.mem_singleton.mp ha
    · exact absurd ha List.not_mem_nil
  obtain ⟨honce, hterminates⟩ := compiledOnce_and_terminates_iff (reaches_callsOfF 1)
    (knownUnits_callsOfF 1) 3 honly.finite
  constructor
  · exact honce.mpr (List.pairwise_singleton _ _)
  · apply hterminates.mpr
    intro k _ hself
    -- What is requested is `f`, which requests nothing.
    obtain ⟨k', hhead, -⟩ := TransGen.head'_iff.mp hself
    obtain ⟨k', -, htail⟩ := TransGen.tail'_iff.mp hself
    rw [honly.adds hhead] at htail
    exact absurd htail List.not_mem_nil

/-- Two calls with the same types are two modules with two names, and a unit that calls itself with
the same types is compiled forever. -/
theorem repeated_calls_compiled_twice :
    (Reaches MonoStep (.start 3) (callsOfF 2) (afterCalls 2) ∧ KnownUnits 3 (callsOfF 2) ∧
      ¬ CompiledOnce (callsOfF 2) (afterCalls 2)) ∧
    {k | Instantiated itemsWithMain (fun _ => [callOfF]) k}.Finite ∧
      ¬ CompileItemsTerminates itemsWithMain (fun _ => [callOfF]) 3 := by
  refine ⟨⟨reaches_callsOfF 2, knownUnits_callsOfF 2, ?_⟩, ?_⟩
  · rw [compiledOnce_iff (reaches_callsOfF 2) (knownUnits_callsOfF 2)]
    intro honce
    have hpair := List.pairwise_pair.mp honce
    exact hpair.1 rfl
  · have honly : OnlyF fun _ => [callOfF] := fun _ _ ha => List.mem_singleton.mp ha
    refine ⟨honly.finite, ?_⟩
    rw [compileItems_terminates_iff 3 honly.finite]
    intro hall
    have hadds : ∀ k, Worklist.Adds (requestedBy itemsWithMain fun _ => [callOfF]) instanceOfF k :=
      fun _ => List.mem_singleton.mpr rfl
    refine hall instanceOfF ⟨⟨2, []⟩, ?_, .single (hadds _)⟩ (.single (hadds _))
    exact List.mem_singleton.mpr rfl

end Spade.HirLowering

import Mathlib.Data.List.Nodup
import Spade.Lib.Histories
import Spade.Typeinference.OccursCheck

/-!
# Monomorphisation

`MonoState` of `spade-hir-lowering/src/monomorphisation.rs`: the queue of instantiations that are
still to be compiled, with the table of the names that they were given. The table is looked up and
never written.

* **Requests** (`compiledOnce_iff`): instantiations are compiled once, under one name, exactly where
  none is requested twice.

Locations and the request points, which are for diagnostics, are left out.
-/

namespace Spade.HirLowering

open Typeinference

/-! ### Requests -/

/-- `UnitName`. -/
inductive UnitName where
  | withID (name : NameID)
  | fullPath (name : NameID)
  | unmangled (source : String) (name : NameID)

/-- `name_id`. -/
def UnitName.nameId : UnitName → NameID
  | withID name => name
  | fullPath name => name
  | unmangled _ name => name

/-- The unit name of the same kind for another name. -/
def UnitName.rename (newName : NameID) : UnitName → UnitName
  | withID _ => withID newName
  | fullPath _ => fullPath newName
  | unmangled source _ => unmangled source newName

/-- `MonoItem`. -/
structure MonoItem where
  sourceName : NameID
  newName : UnitName
  params : List TypeVar

/-- `MonoState`. -/
structure MonoState where
  toCompile : List MonoItem
  translation : List ((NameID × List TypeVar) × NameID)

/-- `MonoState::new`. -/
def MonoState.new : MonoState := ⟨[], []⟩

/-- The entry of the table for a unit with type parameters. -/
def MonoState.lookup (s : MonoState) (name : NameID) (params : List TypeVar) : Option NameID :=
  (s.translation.find? fun e => e.1.1.id == name.id && TypeVar.sameAll e.1.2 params).map Prod.snd

/-- The state of monomorphisation with the next id of the frozen symbol table. -/
structure MonoSystem where
  state : MonoState
  nextId : ℕ

/-- `FrozenSymtab::new_name`. -/
def MonoSystem.newName (s : MonoSystem) (description : String) : NameID × MonoSystem :=
  (⟨s.nextId, description⟩, { s with nextId := s.nextId + 1 })

/-- The arguments of `request_compilation`. -/
structure Request where
  sourceName : UnitName
  reuseNameid : Bool
  params : List TypeVar

/-- `request_compilation`. -/
def MonoSystem.requestCompilation (s : MonoSystem) (r : Request) : NameID × MonoSystem :=
  match s.state.lookup r.sourceName.nameId r.params with
  | some prev => (prev, s)
  | none =>
      let (newName, s) :=
        if r.reuseNameid then (r.sourceName.nameId, s) else s.newName r.sourceName.nameId.tail
      let item := ⟨r.sourceName.nameId, r.sourceName.rename newName, r.params⟩
      (newName, { s with state.toCompile := s.state.toCompile ++ [item] })

/-- `next_target`. -/
def MonoSystem.nextTarget (s : MonoSystem) : Option MonoItem × MonoSystem :=
  match s.state.toCompile with
  | [] => (none, s)
  | item :: rest => (some item, { s with state.toCompile := rest })

/-! ### Runs -/

/-- What is done with the state: a request and the name it is answered with, an item that is handed
out, or a name that the lowering of a unit makes. -/
inductive MonoEvent where
  | request (r : Request) (name : NameID)
  | nextTarget (item : Option MonoItem)
  | newName (name : NameID)

/-- The steps of a run. -/
def MonoStep (s : MonoSystem) : MonoEvent → MonoSystem → Prop
  | .request r name, s' => s.requestCompilation r = (name, s')
  | .nextTarget item, s' => s.nextTarget = (item, s')
  | .newName name, s' => s.newName name.tail = (name, s')

/-- The request that a step answers, with the name. -/
def answered : Transition MonoSystem MonoEvent → Option (Request × NameID)
  | ⟨_, .request r name, _⟩ => some (r, name)
  | _ => none

/-- The item that a request puts on the queue. -/
def queued : Transition MonoSystem MonoEvent → Option MonoItem
  | ⟨s, .request _ _, s'⟩ => (s'.state.toCompile.drop s.state.toCompile.length).head?
  | _ => none

/-- The item that is handed out. -/
def handedOut : Transition MonoSystem MonoEvent → Option MonoItem
  | ⟨_, .nextTarget item, _⟩ => item
  | _ => none

/-- An instantiation: the id of the unit, and what the comparison of types sees of the
parameters. -/
structure InstanceKey where
  unit : ℕ
  params : List TypeKey

def Request.key (r : Request) : InstanceKey := ⟨r.sourceName.nameId.id, TypeVar.keys r.params⟩

def MonoItem.key (i : MonoItem) : InstanceKey := ⟨i.sourceName.id, TypeVar.keys i.params⟩

/-- The table is never written. -/
def TableEmpty (s : MonoSystem) : Prop := s.state.translation = []

/-- The name of a request that the table does not know. -/
def Request.answer (r : Request) (nextId : ℕ) : NameID :=
  if r.reuseNameid then r.sourceName.nameId else ⟨nextId, r.sourceName.nameId.tail⟩

/-- The item for the request. -/
def Request.item (r : Request) (nextId : ℕ) : MonoItem :=
  ⟨r.sourceName.nameId, r.sourceName.rename (r.answer nextId), r.params⟩

/-- The next id after the request. -/
def Request.nextId (r : Request) (nextId : ℕ) : ℕ := if r.reuseNameid then nextId else nextId + 1

theorem Request.le_nextId (r : Request) (nextId : ℕ) : nextId ≤ r.nextId nextId := by
  unfold Request.nextId
  split_ifs <;> omega

/-- Without a table, every request puts an item on the queue. -/
theorem requestCompilation_eq {s : MonoSystem} (h : TableEmpty s) (r : Request) :
    s.requestCompilation r = (r.answer s.nextId,
      ⟨⟨s.state.toCompile ++ [r.item s.nextId], []⟩, r.nextId s.nextId⟩) := by
  have hlookup : s.state.lookup r.sourceName.nameId r.params = none := by
    unfold MonoState.lookup
    rw [h]
    rfl
  have htranslation : s.state.translation = [] := h
  unfold MonoSystem.requestCompilation Request.item Request.answer Request.nextId
  rw [hlookup]
  cases r.reuseNameid with
  | false => simp [MonoSystem.newName, htranslation]
  | true => simp [htranslation]

theorem nextTarget_eq {s s' : MonoSystem} {item : Option MonoItem}
    (h : s.nextTarget = (item, s')) :
    s.state.toCompile = item.toList ++ s'.state.toCompile ∧
      s'.state.translation = s.state.translation ∧ s'.nextId = s.nextId := by
  unfold MonoSystem.nextTarget at h
  split at h
  · obtain ⟨rfl, rfl⟩ := Prod.ext_iff.mp h
    exact ⟨by simp, rfl, rfl⟩
  · rename_i i rest hqueue
    obtain ⟨rfl, rfl⟩ := Prod.ext_iff.mp h
    exact ⟨hqueue, rfl, rfl⟩

theorem TableEmpty.step {s s' : MonoSystem} {e : MonoEvent} (h : TableEmpty s)
    (hstep : MonoStep s e s') : TableEmpty s' := by
  cases e with
  | request r name =>
      obtain ⟨-, rfl⟩ := Prod.ext_iff.mp ((requestCompilation_eq h r).symm.trans hstep)
      rfl
  | nextTarget item => exact (nextTarget_eq hstep).2.1.trans h
  | newName name =>
      obtain ⟨-, rfl⟩ := Prod.ext_iff.mp hstep
      exact h

/-- What a step puts on the queue and takes from it. -/
theorem queue_step {s s' : MonoSystem} {e : MonoEvent} (h : TableEmpty s)
    (hstep : MonoStep s e s') :
    s.state.toCompile ++ (queued ⟨s, e, s'⟩).toList =
      (handedOut ⟨s, e, s'⟩).toList ++ s'.state.toCompile := by
  cases e with
  | request r name =>
      obtain ⟨-, rfl⟩ := Prod.ext_iff.mp ((requestCompilation_eq h r).symm.trans hstep)
      simp [queued, handedOut]
  | nextTarget item =>
      rw [(nextTarget_eq hstep).1]
      simp [queued, handedOut]
  | newName name =>
      obtain ⟨-, rfl⟩ := Prod.ext_iff.mp hstep
      exact List.append_nil _

/-- The state before the first request. -/
def MonoSystem.start (nextId : ℕ) : MonoSystem := ⟨.new, nextId⟩

variable {start : ℕ} {s : MonoSystem} {h : List (Transition MonoSystem MonoEvent)}

theorem tableEmpty (hreach : Reaches MonoStep (.start start) h s) : TableEmpty s :=
  @Reaches.invariant _ _ _ _ _ _ hreach (fun _ => True) TableEmpty rfl
    (fun _ _ _ hi hstep _ => hi.step hstep) fun _ _ => trivial

/-- The items that were queued are those that were handed out, followed by the queue. -/
theorem queued_eq (hreach : Reaches MonoStep (.start start) h s) :
    observed queued h = observed handedOut h ++ s.state.toCompile :=
  @Reaches.conservation _ _ _ _ _ _ _ hreach (fun _ => True) TableEmpty rfl
    (fun _ _ _ hi hstep _ => hi.step hstep) (fun s => s.state.toCompile) queued handedOut rfl
    (fun _ _ _ hi hstep _ => queue_step hi hstep) fun _ _ => trivial

/-- What a run has answered: every request queued an item for its instantiation, and was answered
with the name of the unit or with a new one. -/
structure AnsweredBy (start : ℕ) (h : List (Transition MonoSystem MonoEvent)) (s : MonoSystem) :
    Prop where
  keys : (observed queued h).map MonoItem.key = (observed answered h).map fun a => a.1.key
  reused : ∀ a ∈ observed answered h, a.1.reuseNameid = true → a.2 = a.1.sourceName.nameId
  new : ∀ a ∈ observed answered h, a.1.reuseNameid = false →
    start ≤ a.2.id ∧ a.2.id < s.nextId
  fresh : (observed answered h).Pairwise fun a b =>
    a.1.reuseNameid = false → b.1.reuseNameid = false → a.2.id < b.2.id

theorem answeredBy_start (start : ℕ) : AnsweredBy start [] (.start start) where
  keys := rfl
  reused _ ha := absurd ha List.not_mem_nil
  new _ ha := absurd ha List.not_mem_nil
  fresh := .nil

/-- A step that answers no request. -/
theorem AnsweredBy.skip (hby : AnsweredBy start h s) {s' : MonoSystem} {e : MonoEvent}
    (hanswered : answered ⟨s, e, s'⟩ = none) (hqueued : queued ⟨s, e, s'⟩ = none)
    (hle : s.nextId ≤ s'.nextId) : AnsweredBy start (h ++ [⟨s, e, s'⟩]) s' := by
  have hobs : observed answered (h ++ [⟨s, e, s'⟩]) = observed answered h := by
    rw [observed_next, hanswered, Option.toList_none, List.append_nil]
  have hqueue : observed queued (h ++ [⟨s, e, s'⟩]) = observed queued h := by
    rw [observed_next, hqueued, Option.toList_none, List.append_nil]
  constructor
  · rw [hobs, hqueue]
    exact hby.keys
  · rw [hobs]
    exact hby.reused
  · rw [hobs]
    intro a ha hreuse
    obtain ⟨hlow, hhigh⟩ := hby.new a ha hreuse
    exact ⟨hlow, hhigh.trans_le hle⟩
  · rw [hobs]
    exact hby.fresh

/-- A step that answers a request. -/
theorem AnsweredBy.request (hby : AnsweredBy start h s) (hstart : start ≤ s.nextId) (r : Request) :
    AnsweredBy start (h ++ [⟨s, .request r (r.answer s.nextId),
      ⟨⟨s.state.toCompile ++ [r.item s.nextId], []⟩, r.nextId s.nextId⟩⟩])
      ⟨⟨s.state.toCompile ++ [r.item s.nextId], []⟩, r.nextId s.nextId⟩ := by
  constructor
  · rw [observed_next, observed_next, List.map_append, List.map_append, hby.keys]
    simp [queued, answered, Request.item, MonoItem.key, Request.key]
  all_goals rw [observed_next]
  · intro a ha hreuse
    rcases List.mem_append.mp ha with ha | ha
    · exact hby.reused a ha hreuse
    · obtain rfl : a = (r, r.answer s.nextId) := by simpa [answered] using ha
      exact if_pos hreuse
  · intro a ha hreuse
    rcases List.mem_append.mp ha with ha | ha
    · obtain ⟨hlow, hhigh⟩ := hby.new a ha hreuse
      exact ⟨hlow, hhigh.trans_le (r.le_nextId _)⟩
    · obtain rfl : a = (r, r.answer s.nextId) := by simpa [answered] using ha
      have hreuse' : ¬ r.reuseNameid = true := by simpa using hreuse
      unfold Request.answer Request.nextId
      rw [if_neg hreuse', if_neg hreuse']
      exact ⟨hstart, Nat.lt_succ_self _⟩
  · apply List.pairwise_append.mpr
    refine ⟨hby.fresh, by simp [answered], ?_⟩
    intro a ha b hb hreuse hreuse_b
    obtain rfl : b = (r, r.answer s.nextId) := by simpa [answered] using hb
    have hreuse' : ¬ r.reuseNameid = true := by simpa using hreuse_b
    unfold Request.answer
    rw [if_neg hreuse']
    exact (hby.new a ha hreuse).2

theorem answeredBy (hreach : Reaches MonoStep (.start start) h s) :
    start ≤ s.nextId ∧ AnsweredBy start h s := by
  induction hreach with
  | start => exact ⟨le_rfl, answeredBy_start start⟩
  | next hreach hnext ih =>
      rename_i h s s' e
      obtain ⟨hstart, hby⟩ := ih
      cases e with
      | request r name =>
          obtain ⟨rfl, rfl⟩ :=
            Prod.ext_iff.mp ((requestCompilation_eq (tableEmpty hreach) r).symm.trans hnext)
          exact ⟨hstart.trans (r.le_nextId _), hby.request hstart r⟩
      | nextTarget item =>
          have hid := (nextTarget_eq hnext).2.2
          exact ⟨hstart.trans hid.ge, hby.skip rfl rfl hid.ge⟩
      | newName name =>
          obtain ⟨-, rfl⟩ := Prod.ext_iff.mp hnext
          exact ⟨hstart.trans (Nat.le_succ _), hby.skip rfl rfl (Nat.le_succ _)⟩

/-! ### Compiled once -/

/-- Every instantiation is compiled once: requests are answered with the same name exactly when they
ask for the same, one item is queued for every instantiation, and every queued item is handed out
once or still in the queue. -/
structure CompiledOnce (h : List (Transition MonoSystem MonoEvent)) (s : MonoSystem) : Prop where
  names : (observed answered h).Pairwise fun a b => a.1.key = b.1.key ↔ a.2.id = b.2.id
  items : ∀ a ∈ observed answered h, ∃ before item after,
    observed queued h = before ++ item :: after ∧ item.key = a.1.key ∧
      ∀ i ∈ before ++ after, i.key ≠ a.1.key
  handed : observed queued h = observed handedOut h ++ s.state.toCompile

/-- The condition: no instantiation is requested twice, and no name is reused for two of them. -/
def RequestedOnce (h : List (Transition MonoSystem MonoEvent)) : Prop :=
  (observed answered h).Pairwise fun a b => a.1.key ≠ b.1.key ∧
    (a.1.reuseNameid = true → b.1.reuseNameid = true →
      a.1.sourceName.nameId.id ≠ b.1.sourceName.nameId.id)

/-- The units of the requests have names from before the run. -/
def KnownUnits (start : ℕ) (h : List (Transition MonoSystem MonoEvent)) : Prop :=
  ∀ a ∈ observed answered h, a.1.sourceName.nameId.id < start

/-- One item for each key: the keys of the items are all different. -/
theorem nodup_of_unique {α β : Type} {key : α → β} {l : List α}
    (h : ∀ b ∈ l.map key, ∃ before a after, l = before ++ a :: after ∧ key a = b ∧
      ∀ i ∈ before ++ after, key i ≠ b) : (l.map key).Nodup := by
  induction l with
  | nil => exact .nil
  | cons x l ih =>
      rw [List.map_cons, List.nodup_cons]
      constructor
      · intro hmem
        obtain ⟨y, hy, hkey⟩ := List.mem_map.mp hmem
        obtain ⟨before, a, after, hsplit, -, hother⟩ := h (key x) List.mem_cons_self
        rcases before with _ | ⟨z, before⟩
        · obtain ⟨-, rfl⟩ := List.cons.inj hsplit
          exact hother y hy hkey
        · obtain ⟨rfl, -⟩ := List.cons.inj hsplit
          exact hother x (List.mem_append_left _ List.mem_cons_self) rfl
      · apply ih
        intro b hb
        obtain ⟨before, a, after, hsplit, hkey, hother⟩ := h b (List.mem_cons_of_mem _ hb)
        rcases before with _ | ⟨z, before⟩
        · obtain ⟨-, rfl⟩ := List.cons.inj hsplit
          obtain ⟨y, hy, hy_key⟩ := List.mem_map.mp hb
          exact absurd hy_key (hother y hy)
        · obtain ⟨-, rfl⟩ := List.cons.inj hsplit
          exact ⟨before, a, after, rfl, hkey,
            fun i hi => hother i (List.mem_cons_of_mem z hi)⟩

theorem unique_of_nodup {α β : Type} {key : α → β} {l : List α} (h : (l.map key).Nodup) {b : β}
    (hb : b ∈ l.map key) : ∃ before a after, l = before ++ a :: after ∧ key a = b ∧
      ∀ i ∈ before ++ after, key i ≠ b := by
  obtain ⟨a, ha, rfl⟩ := List.mem_map.mp hb
  obtain ⟨before, after, rfl⟩ := List.append_of_mem ha
  refine ⟨before, a, after, rfl, rfl, ?_⟩
  rw [List.map_append, List.map_cons, List.nodup_middle, List.nodup_cons, ← List.map_append] at h
  intro i hi hkey
  exact h.1 (List.mem_map.mpr ⟨i, hi, hkey⟩)

theorem compiledOnce_iff (hreach : Reaches MonoStep (.start start) h s)
    (hknown : KnownUnits start h) : CompiledOnce h s ↔ RequestedOnce h := by
  obtain ⟨-, hby⟩ := answeredBy hreach
  constructor
  · rintro ⟨hnames, hitems, -⟩
    have hnodup : ((observed answered h).map fun a => a.1.key).Nodup := by
      rw [← hby.keys]
      apply nodup_of_unique
      intro k hk
      rw [hby.keys] at hk
      obtain ⟨a, ha, rfl⟩ := List.mem_map.mp hk
      exact hitems a ha
    have hkeys := List.pairwise_map.mp hnodup
    refine (hkeys.and hnames).imp_of_mem ?_
    rintro a b ha hb ⟨hne, hiff⟩
    refine ⟨hne, ?_⟩
    intro hreuse_a hreuse_b
    rw [← hby.reused a ha hreuse_a, ← hby.reused b hb hreuse_b]
    exact mt hiff.mpr hne
  · intro honce
    have hnodup : ((observed queued h).map MonoItem.key).Nodup := by
      rw [hby.keys]
      exact List.pairwise_map.mpr (honce.imp fun hab => hab.1)
    refine ⟨?_, ?_, queued_eq hreach⟩
    · refine (honce.and hby.fresh).imp_of_mem ?_
      rintro a b ha hb ⟨⟨hne, hreuse⟩, hfresh⟩
      refine iff_of_false hne ?_
      have hknown_a := hknown a ha
      have hknown_b := hknown b hb
      cases hreuse_a : a.1.reuseNameid <;> cases hreuse_b : b.1.reuseNameid
      · exact (hfresh hreuse_a hreuse_b).ne
      · have := (hby.new a ha hreuse_a).1
        rw [hby.reused b hb hreuse_b]
        omega
      · have := (hby.new b hb hreuse_b).1
        rw [hby.reused a ha hreuse_a]
        omega
      · rw [hby.reused a ha hreuse_a, hby.reused b hb hreuse_b]
        exact hreuse hreuse_a hreuse_b
    · intro a ha
      apply unique_of_nodup hnodup
      rw [hby.keys]
      exact List.mem_map.mpr ⟨a, ha, rfl⟩

end Spade.HirLowering

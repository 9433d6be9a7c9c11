import Mathlib.Data.List.Sort
import Mathlib.Data.Finset.Basic
import Spade.Lib.OptionList

/-!
# Matching arguments with parameters

`match_args_with_params` of `spade-hir/src/param_util.rs`, for the arguments of calls and for the
type arguments of a turbofish. The places in the text of whole argument lists, at which missing and
superfluous arguments are reported, are left out.

* **Acceptance** (`matchArgsWithParams_isOk_iff`): the match is accepted when every argument is for
  a parameter and every parameter is bound once.
* **Binding** (`isBoundTo_of_matchArgsWithParams`): the result has one argument for each parameter,
  in the order of the parameters, and it is the one bound to it.
* **Order** (`matchArgsWithParams_perm`): the order of named arguments does not matter.
-/

namespace Spade.Hir

variable {L T TypeLike : Type}

/-! ### Arguments and parameters -/

/-- `Loc`, over the places in the text. Comparisons and hashes are those of `inner`. -/
structure Loc (L α : Type) where
  inner : α
  loc : L

/-- `NamedArgument`. -/
inductive NamedArgument (L T : Type) where
  | full (target : Loc L String) (value : Loc L T)
  /-- Binds a local variable to an argument with the same name. -/
  | short (target : Loc L String) (value : Loc L T)

/-- `ArgumentList`. -/
inductive ArgumentList (L T : Type) where
  | named (args : List (NamedArgument L T))
  | positional (args : List (Loc L T))

/-- `ArgumentKind`. -/
inductive ArgumentKind where
  | positional | named | shortNamed
  deriving DecidableEq, Repr

/-- `Argument`: a resolved argument. -/
structure Argument (L T TypeLike : Type) where
  target : Loc L String
  value : Loc L T
  targetType : TypeLike
  kind : ArgumentKind

/-- `ParameterListWrapper`: the names of the parameters with their types. -/
abbrev ParameterListWrapper (L TypeLike : Type) : Type := List (Loc L String × TypeLike)

/-- `ArgumentError`. The missing arguments come out of a hash set, so they have no order. -/
inductive ArgumentError (L : Type) where
  | tooFewArguments (got expected : ℕ) (missing : List String)
  | tooManyArguments (got expected : ℕ) (extra : List L)
  | noSuchArgument (name : Loc L String)
  | missingArguments (missing : Finset String)
  | duplicateNamedBindings (new : Loc L String) (prevLoc : L)

namespace NamedArgument

def target : NamedArgument L T → Loc L String
  | full target _ => target
  | short target _ => target

def value : NamedArgument L T → Loc L T
  | full _ value => value
  | short _ value => value

def kind : NamedArgument L T → ArgumentKind
  | full .. => .named
  | short .. => .shortNamed

/-- The name of the parameter it is for. -/
def name (arg : NamedArgument L T) : String := arg.target.inner

/-- The argument, resolved to a parameter of the given type. -/
def resolved (arg : NamedArgument L T) (targetType : TypeLike) : Argument L T TypeLike where
  target := arg.target
  value := arg.value
  targetType := targetType
  kind := arg.kind

end NamedArgument

namespace ParameterListWrapper

/-- `try_get_arg_type`. -/
def tryGetArgType (params : ParameterListWrapper L TypeLike) (name : String) : Option TypeLike :=
  params.findSome? fun p => if p.1.inner = name then some p.2 else none

/-- `arg_index`. -/
def argIndex (params : ParameterListWrapper L TypeLike) (name : String) : Option ℕ :=
  params.findIdx? fun p => p.1.inner = name

def names (params : ParameterListWrapper L TypeLike) : List String := params.map fun p => p.1.inner

end ParameterListWrapper

/-! ### The match -/

/-- Runs that end with a value or an error, or panic. -/
abbrev Matching (L α : Type) : Type := ExceptT (ArgumentError L) Option α

def panics {α : Type} : Matching L α := ExceptT.mk none

/-- A subtraction of `usize`s, which panics on underflow. -/
def subUsize (a b : ℕ) : Matching L ℕ := if b ≤ a then pure (a - b) else panics

/-- The names bound so far and those of the parameters not bound yet. -/
structure Bindings (L : Type) where
  bound : List (Loc L String)
  unbound : Finset String

/-- The pass over one named argument: its parameter's index, and the argument. -/
def matchNamedArgument (params : ParameterListWrapper L TypeLike) (bindings : Bindings L)
    (arg : NamedArgument L T) : Matching L ((ℕ × Argument L T TypeLike) × Bindings L) := do
  let target := arg.target
  -- check if this is a new binding
  if let some prev := bindings.bound.find? fun prev => prev.inner = target.inner then
    throw (.duplicateNamedBindings target prev.loc)
  let bound := target :: bindings.bound
  let some targetType := params.tryGetArgType target.inner | throw (.noSuchArgument target)
  let unbound := bindings.unbound.erase target.inner
  let some index := params.argIndex target.inner | panics
  pure ((index, arg.resolved targetType), ⟨bound, unbound⟩)

/-- The pass over the named arguments. -/
def matchNamedArguments (params : ParameterListWrapper L TypeLike) :
    Bindings L → List (NamedArgument L T) →
      Matching L (List (ℕ × Argument L T TypeLike) × Bindings L)
  | bindings, [] => pure ([], bindings)
  | bindings, arg :: args => do
      let (entry, bindings) ← matchNamedArgument params bindings arg
      let (entries, bindings) ← matchNamedArguments params bindings args
      pure (entry :: entries, bindings)

/-- `match_args_with_params`. -/
def matchArgsWithParams (argList : ArgumentList L T) (params : ParameterListWrapper L TypeLike)
    (isMethod : Bool) : Matching L (List (Argument L T TypeLike)) :=
  let self := if isMethod then 1 else 0
  match argList with
  | .positional inner => do
      if inner.length < params.length then
        let got ← subUsize inner.length self
        let expected ← subUsize params.length self
        throw (.tooFewArguments got expected ((params.drop inner.length).map (·.1.inner)))
      if inner.length > params.length then
        let got ← subUsize inner.length self
        let expected ← subUsize params.length self
        throw (.tooManyArguments got expected ((inner.drop params.length).map (·.loc)))
      pure (List.zipWith (fun arg param => ⟨param.1, arg, param.2, .positional⟩) inner params)
  | .named inner => do
      let (result, bindings) ← matchNamedArguments params ⟨[], params.names.toFinset⟩ inner
      let result := (result.insertionSort fun a b => a.1 ≤ b.1).map (·.2)
      if bindings.unbound ≠ ∅ then throw (.missingArguments bindings.unbound)
      pure result

/-! ### What a match should be -/

/-- Every argument is for a parameter, and every parameter is bound exactly once. -/
def BindsEveryOnce : ArgumentList L T → ParameterListWrapper L TypeLike → Prop
  | .positional args, params => args.length = params.length
  | .named args, params =>
      (∀ arg ∈ args, ∃ param ∈ params, arg.name = param.1.inner) ∧
        ∀ param ∈ params, args.countP (fun arg => arg.name = param.1.inner) = 1

/-- `bound` is the argument that the list has for parameter `i`. -/
def IsBoundTo (params : ParameterListWrapper L TypeLike) (i : ℕ) (bound : Argument L T TypeLike) :
    ArgumentList L T → Prop
  | .positional args =>
      ∃ param arg, params[i]? = some param ∧ args[i]? = some arg ∧
        bound = ⟨param.1, arg, param.2, .positional⟩
  | .named args =>
      ∃ param, params[i]? = some param ∧
        ∃ arg ∈ args, arg.name = param.1.inner ∧ bound = arg.resolved param.2

/-- The same arguments, the named ones in any order. -/
inductive SameArguments : ArgumentList L T → ArgumentList L T → Prop
  | named {args args' : List (NamedArgument L T)} (h : args.Perm args') :
      SameArguments (.named args) (.named args')
  | positional (args : List (Loc L T)) : SameArguments (.positional args) (.positional args)

/-! ### Accepted runs -/

namespace Matching

variable {α β : Type}

theorem pure_inj {a b : α} (h : (pure a : Matching L α) = pure b) : a = b := by
  cases h
  rfl

theorem bind_eq_pure_iff {x : Matching L α} {f : α → Matching L β} {b : β} :
    (x >>= f) = pure b ↔ ∃ a, x = pure a ∧ f a = pure b := by
  constructor
  · intro h
    rcases x with _ | _ | a
    · cases h
    · cases h
    · exact ⟨a, rfl, h⟩
  · rintro ⟨a, rfl, h⟩
    exact h

theorem throw_ne_pure {e : ArgumentError L} {a : α} : (throw e : Matching L α) ≠ pure a := nofun

theorem throw_bind_ne_pure {e : ArgumentError L} {f : α → Matching L β} {b : β} :
    ((throw e : Matching L α) >>= f) ≠ pure b := nofun

end Matching

/-! ### Names of parameters -/

namespace ParameterListWrapper

variable {params : ParameterListWrapper L TypeLike} {name : String}

/-- The type and the index looked up for a name are those of one parameter. -/
theorem lookup_cases (params : ParameterListWrapper L TypeLike) (name : String) :
    (name ∉ params.names ∧ params.tryGetArgType name = none) ∨
      ∃ i param, params[i]? = some param ∧ param.1.inner = name ∧
        params.tryGetArgType name = some param.2 ∧ params.argIndex name = some i := by
  induction params with
  | nil => exact .inl ⟨List.not_mem_nil, rfl⟩
  | cons head params ih =>
      by_cases hhead : head.1.inner = name
      · refine .inr ⟨0, head, rfl, hhead, ?_, ?_⟩
        · simp [tryGetArgType, hhead]
        · simp [argIndex, List.findIdx?_cons, hhead]
      · rcases ih with ⟨hname, htype⟩ | ⟨i, param, hparam, hname, htype, hindex⟩
        · refine .inl ⟨?_, ?_⟩
          · rw [names, List.map_cons, List.mem_cons]
            exact fun h => h.elim (fun heq => hhead heq.symm) hname
          · simpa [tryGetArgType, hhead] using htype
        · refine .inr ⟨i + 1, param, hparam, hname, ?_, ?_⟩
          · simpa [tryGetArgType, hhead] using htype
          · simpa [argIndex, List.findIdx?_cons, hhead] using hindex

theorem names_getElem? {i : ℕ} {param : Loc L String × TypeLike} (h : params[i]? = some param) :
    params.names[i]? = some param.1.inner := by
  rw [names, List.getElem?_map, h]
  rfl

end ParameterListWrapper

/-! ### The pass over the arguments -/

variable {params : ParameterListWrapper L TypeLike}

/-- The entry made for an argument: the index of a parameter of its name, and the argument. -/
def IsEntry (params : ParameterListWrapper L TypeLike) (arg : NamedArgument L T)
    (entry : ℕ × Argument L T TypeLike) : Prop :=
  ∃ param, params[entry.1]? = some param ∧ param.1.inner = arg.name ∧
    entry.2 = arg.resolved param.2

/-- The name is bound already. -/
def Bindings.Binds (bindings : Bindings L) (name : String) : Prop :=
  ∃ prev ∈ bindings.bound, prev.inner = name

/-- The bindings with one more name bound. -/
def Bindings.bind (bindings : Bindings L) (target : Loc L String) : Bindings L where
  bound := target :: bindings.bound
  unbound := bindings.unbound.erase target.inner

theorem Bindings.binds_bind {bindings : Bindings L} {target : Loc L String} {name : String} :
    (bindings.bind target).Binds name ↔ target.inner = name ∨ bindings.Binds name := by
  simp [Binds, bind]

theorem matchNamedArgument_spec {bindings bindings' : Bindings L} {arg : NamedArgument L T}
    {entry : ℕ × Argument L T TypeLike}
    (h : matchNamedArgument params bindings arg = pure (entry, bindings')) :
    ¬bindings.Binds arg.name ∧ IsEntry params arg entry ∧ bindings' = bindings.bind arg.target := by
  unfold matchNamedArgument at h
  cases hprev : bindings.bound.find? fun prev => prev.inner = arg.target.inner with
  | some prev =>
      simp only [hprev] at h
      exact absurd h Matching.throw_ne_pure
  | none =>
      have hnew : ¬bindings.Binds arg.name := by
        rintro ⟨prev, hmem, hname⟩
        exact List.find?_eq_none.mp hprev prev hmem (decide_eq_true hname)
      simp only [hprev] at h
      rcases params.lookup_cases arg.target.inner with
        ⟨_, htype⟩ | ⟨i, param, hparam, hname, htype, hindex⟩
      · simp only [htype] at h
        exact absurd h Matching.throw_ne_pure
      · simp only [htype, hindex] at h
        cases h
        exact ⟨hnew, ⟨param, hparam, hname, rfl⟩, rfl⟩

theorem exists_matchNamedArgument {bindings : Bindings L} {arg : NamedArgument L T}
    (hnew : ¬bindings.Binds arg.name) (hname : arg.name ∈ params.names) :
    ∃ entry : ℕ × Argument L T TypeLike,
      matchNamedArgument params bindings arg = pure (entry, bindings.bind arg.target) := by
  have hprev : (bindings.bound.find? fun prev => prev.inner = arg.target.inner) = none := by
    rw [List.find?_eq_none]
    exact fun prev hmem heq => hnew ⟨prev, hmem, of_decide_eq_true heq⟩
  rcases params.lookup_cases arg.target.inner with ⟨hnot, _⟩ | ⟨i, param, _, _, htype, hindex⟩
  · exact absurd hname hnot
  · exact ⟨(i, arg.resolved param.2), by
      simp [matchNamedArgument, hprev, htype, hindex, Bindings.bind]⟩

/-- What an accepted pass over the arguments has checked, and what it returns. -/
theorem matchNamedArguments_spec {args : List (NamedArgument L T)} {bindings bindings' : Bindings L}
    {entries : List (ℕ × Argument L T TypeLike)}
    (h : matchNamedArguments params bindings args = pure (entries, bindings')) :
    (∀ arg ∈ args, ¬bindings.Binds arg.name) ∧ (args.map NamedArgument.name).Nodup ∧
      List.Forall₂ (IsEntry params) args entries ∧
      ∀ name, name ∈ bindings'.unbound ↔
        name ∈ bindings.unbound ∧ name ∉ args.map NamedArgument.name := by
  induction args generalizing bindings entries with
  | nil =>
      cases h
      exact ⟨nofun, List.nodup_nil, .nil, fun name => by simp⟩
  | cons arg args ih =>
      obtain ⟨⟨entry, bindings₁⟩, hhead, h⟩ := Matching.bind_eq_pure_iff.mp h
      obtain ⟨⟨entries₁, bindings₂⟩, htail, h⟩ := Matching.bind_eq_pure_iff.mp h
      cases h
      obtain ⟨hnew, hentry, rfl⟩ := matchNamedArgument_spec hhead
      obtain ⟨hnews, hnodup, hentries, hunbound⟩ := ih htail
      refine ⟨?_, ?_, .cons hentry hentries, fun name => ?_⟩
      · rintro a (_ | ⟨_, hmem⟩)
        · exact hnew
        · exact fun hbinds => hnews a hmem (Bindings.binds_bind.mpr (.inr hbinds))
      · rw [List.map_cons, List.nodup_cons]
        refine ⟨fun hmem => ?_, hnodup⟩
        obtain ⟨a, ha, hname⟩ := List.mem_map.mp hmem
        exact hnews a ha (Bindings.binds_bind.mpr (.inl hname.symm))
      · rw [hunbound, Bindings.bind, Finset.mem_erase, List.map_cons, List.mem_cons, not_or]
        exact ⟨fun ⟨⟨hne, hmem⟩, hnot⟩ => ⟨hmem, hne, hnot⟩,
          fun ⟨hmem, hne, hnot⟩ => ⟨⟨hne, hmem⟩, hnot⟩⟩

/-- Arguments for different parameters that are not bound yet are accepted. -/
theorem exists_matchNamedArguments {args : List (NamedArgument L T)} {bindings : Bindings L}
    (hnew : ∀ arg ∈ args, ¬bindings.Binds arg.name)
    (hnodup : (args.map NamedArgument.name).Nodup)
    (hnames : ∀ arg ∈ args, arg.name ∈ params.names) :
    ∃ result : List (ℕ × Argument L T TypeLike) × Bindings L,
      matchNamedArguments params bindings args = pure result := by
  induction args generalizing bindings with
  | nil => exact ⟨_, rfl⟩
  | cons arg args ih =>
      obtain ⟨hnot, hnodup⟩ := List.nodup_cons.mp hnodup
      obtain ⟨entry, hhead⟩ := exists_matchNamedArgument (hnew arg List.mem_cons_self)
        (hnames arg List.mem_cons_self)
      have hnew' : ∀ a ∈ args, ¬(bindings.bind arg.target).Binds a.name := by
        intro a ha hbinds
        rcases Bindings.binds_bind.mp hbinds with heq | hbinds
        · exact hnot (List.mem_map.mpr ⟨a, ha, heq.symm⟩)
        · exact hnew a (List.mem_cons_of_mem _ ha) hbinds
      obtain ⟨result, htail⟩ := ih hnew' hnodup fun a ha => hnames a (List.mem_cons_of_mem _ ha)
      exact ⟨_, Matching.bind_eq_pure_iff.mpr ⟨_, hhead,
        Matching.bind_eq_pure_iff.mpr ⟨_, htail, rfl⟩⟩⟩

/-! ### Named arguments -/

/-- The named arguments have different names, and theirs are exactly the names of the parameters. -/
def NamesMatch (args : List (NamedArgument L T)) (params : ParameterListWrapper L TypeLike) :
    Prop :=
  (args.map NamedArgument.name).Nodup ∧
    ∀ name, name ∈ args.map NamedArgument.name ↔ name ∈ params.names

theorem bindsEveryOnce_named_iff {args : List (NamedArgument L T)} :
    BindsEveryOnce (.named args) params ↔ NamesMatch args params := by
  have hcount : ∀ name, args.countP (fun arg => arg.name = name) =
      (args.map NamedArgument.name).count name := by
    intro name
    rw [List.count_eq_countP, List.countP_map]
    exact List.countP_congr fun arg _ => by simp
  constructor
  · rintro ⟨hargs, honce⟩
    have hsub : ∀ name ∈ args.map NamedArgument.name, name ∈ params.names := by
      intro name hname
      obtain ⟨arg, harg, rfl⟩ := List.mem_map.mp hname
      obtain ⟨param, hparam, heq⟩ := hargs arg harg
      exact List.mem_map.mpr ⟨param, hparam, heq.symm⟩
    have hone : ∀ name ∈ params.names, (args.map NamedArgument.name).count name = 1 := by
      intro name hname
      obtain ⟨param, hparam, rfl⟩ := List.mem_map.mp hname
      rw [← hcount]
      exact honce param hparam
    refine ⟨List.nodup_iff_count_le_one.mpr fun name => ?_,
      fun name => ⟨hsub name, fun hname => ?_⟩⟩
    · by_cases hname : name ∈ args.map NamedArgument.name
      · exact (hone name (hsub name hname)).le
      · rw [List.count_eq_zero_of_not_mem hname]
        exact Nat.zero_le 1
    · exact List.count_pos_iff.mp (by rw [hone name hname]; exact Nat.one_pos)
  · rintro ⟨hnodup, hnames⟩
    refine ⟨fun arg harg => ?_, fun param hparam => ?_⟩
    · obtain ⟨param, hparam, heq⟩ :=
        List.mem_map.mp ((hnames arg.name).mp (List.mem_map_of_mem harg))
      exact ⟨param, hparam, heq.symm⟩
    · rw [hcount]
      exact List.count_eq_one_of_mem hnodup
        ((hnames param.1.inner).mpr (List.mem_map_of_mem (f := fun p => p.1.inner) hparam))

/-- An accepted match has checked the names, and sorts the entries of the arguments. -/
theorem matchArgsWithParams_named_spec {args : List (NamedArgument L T)} {isMethod : Bool}
    {result : List (Argument L T TypeLike)}
    (h : matchArgsWithParams (.named args) params isMethod = pure result) :
    NamesMatch args params ∧ ∃ entries, List.Forall₂ (IsEntry params) args entries ∧
      result = (entries.insertionSort fun a b => a.1 ≤ b.1).map (·.2) := by
  obtain ⟨⟨entries, bindings⟩, hpass, h⟩ := Matching.bind_eq_pure_iff.mp h
  obtain ⟨_, hnodup, hentries, hunbound⟩ := matchNamedArguments_spec hpass
  dsimp only at h
  split_ifs at h with hempty
  · exact absurd h Matching.throw_bind_ne_pure
  have hnames : ∀ arg ∈ args, arg.name ∈ params.names := by
    refine forall_mem_of_forall₂ hentries.flip ?_
    rintro entry _ arg ⟨param, hparam, hname, _⟩
    exact hname ▸ List.mem_of_getElem? (ParameterListWrapper.names_getElem? hparam)
  refine ⟨⟨hnodup, fun name => ⟨fun hname => ?_, fun hname => ?_⟩⟩, entries, hentries,
    (Matching.pure_inj h).symm⟩
  · obtain ⟨arg, harg, rfl⟩ := List.mem_map.mp hname
    exact hnames arg harg
  · by_contra hnot
    have hmem := (hunbound name).mpr ⟨List.mem_toFinset.mpr hname, hnot⟩
    rw [not_not.mp hempty] at hmem
    exact absurd hmem (Finset.notMem_empty name)

theorem exists_matchArgsWithParams_named {args : List (NamedArgument L T)} (isMethod : Bool)
    (h : NamesMatch args params) :
    ∃ result, matchArgsWithParams (.named args) params isMethod = pure result := by
  have hnew : ∀ arg ∈ args, ¬(⟨[], params.names.toFinset⟩ : Bindings L).Binds arg.name :=
    fun arg _ => nofun
  obtain ⟨⟨entries, bindings⟩, hpass⟩ := exists_matchNamedArguments hnew h.1
    fun arg harg => (h.2 arg.name).mp (List.mem_map_of_mem harg)
  obtain ⟨_, _, _, hunbound⟩ := matchNamedArguments_spec hpass
  have hempty : bindings.unbound = ∅ := by
    refine Finset.eq_empty_of_forall_notMem fun name hname => ?_
    obtain ⟨hparam, hnot⟩ := (hunbound name).mp hname
    exact hnot ((h.2 name).mpr (List.mem_toFinset.mp hparam))
  refine ⟨(entries.insertionSort fun a b => a.1 ≤ b.1).map (·.2),
    Matching.bind_eq_pure_iff.mpr ⟨_, hpass, ?_⟩⟩
  dsimp only
  rw [if_neg (not_not.mpr hempty)]

/-- The entries are for all parameters, each of them once. -/
theorem perm_range_of_isEntry {args : List (NamedArgument L T)}
    {entries : List (ℕ × Argument L T TypeLike)} (hparams : params.names.Nodup)
    (hnames : NamesMatch args params) (hentries : List.Forall₂ (IsEntry params) args entries) :
    (entries.map Prod.fst).Perm (List.range params.length) := by
  have hlookup : (entries.map Prod.fst).map (params.names[·]?) =
      (args.map NamedArgument.name).map some := by
    rw [List.map_map, List.map_map, ← List.forall₂_eq_eq_eq, List.forall₂_map_left_iff,
      List.forall₂_map_right_iff]
    refine hentries.flip.imp ?_
    rintro entry arg ⟨param, hparam, hname, _⟩
    exact (ParameterListWrapper.names_getElem? hparam).trans (congrArg some hname)
  have hnodup : (entries.map Prod.fst).Nodup := by
    refine List.Nodup.of_map (params.names[·]?) ?_
    rw [hlookup]
    exact hnames.1.map (Option.some_injective _)
  refine (List.perm_ext_iff_of_nodup hnodup List.nodup_range).mpr fun i => ?_
  rw [List.mem_range]
  constructor
  · intro hi
    obtain ⟨entry, hentry, rfl⟩ := List.mem_map.mp hi
    refine forall_mem_of_forall₂ (P := fun entry => entry.1 < params.length) hentries ?_
      entry hentry
    rintro arg _ entry ⟨param, hparam, _⟩
    exact (List.getElem?_eq_some_iff.mp hparam).1
  · intro hi
    have hlt : i < params.names.length := by rwa [ParameterListWrapper.names, List.length_map]
    obtain ⟨arg, harg, hname⟩ :=
      List.mem_map.mp ((hnames.2 params.names[i]).mpr (List.getElem_mem hlt))
    have hmem : params.names[i]? ∈ (entries.map Prod.fst).map (params.names[·]?) := by
      rw [hlookup, List.getElem?_eq_getElem hlt, ← hname]
      exact List.mem_map_of_mem (List.mem_map_of_mem harg)
    obtain ⟨j, hj, heq⟩ := List.mem_map.mp hmem
    have hsome : params.names[j]? = some params.names[i] :=
      heq.trans (List.getElem?_eq_getElem hlt)
    obtain ⟨hjlt, hjeq⟩ := List.getElem?_eq_some_iff.mp hsome
    rwa [(hparams.getElem_inj_iff).mp hjeq] at hj

/-- The sorted result has the entry of parameter `i` at `i`. -/
theorem sorted_getElem? {args : List (NamedArgument L T)}
    {entries : List (ℕ × Argument L T TypeLike)}
    (hperm : (entries.map Prod.fst).Perm (List.range params.length))
    (hentries : List.Forall₂ (IsEntry params) args entries) {result : List (Argument L T TypeLike)}
    (hresult : result = (entries.insertionSort fun a b => a.1 ≤ b.1).map (·.2)) :
    result.length = params.length ∧ ∀ i bound, result[i]? = some bound →
      ∃ arg ∈ args, IsEntry params arg (i, bound) := by
  have hsorted : ((entries.insertionSort fun a b => a.1 ≤ b.1).map Prod.fst) =
      List.range params.length := by
    rw [List.map_insertionSort _ (· ≤ ·) Prod.fst entries fun _ _ _ _ => Iff.rfl]
    refine List.Perm.eq_of_pairwise (fun _ _ _ _ => Nat.le_antisymm)
      (List.pairwise_insertionSort _ _) ?_ ((List.perm_insertionSort _ _).trans hperm)
    exact List.pairwise_le_range
  subst hresult
  constructor
  · rw [List.length_map, ← List.length_map (f := Prod.fst), hsorted, List.length_range]
  · intro i bound hi
    rw [List.getElem?_map, Option.map_eq_some_iff] at hi
    obtain ⟨⟨j, bound⟩, hj, rfl⟩ := hi
    have hindex : (List.range params.length)[i]? = some j := by
      rw [← hsorted, List.getElem?_map, hj]
      rfl
    obtain ⟨_, rfl⟩ := List.getElem?_eq_some_iff.mp hindex
    rw [List.getElem_range] at hj
    have hmem := (List.mem_insertionSort _).mp (List.mem_of_getElem? hj)
    refine forall_mem_of_forall₂ (P := fun entry => ∃ arg ∈ args, IsEntry params arg entry) hentries
      (fun arg harg entry hentry => ⟨arg, harg, hentry⟩) _ ?_
    rwa [List.getElem_range]

/-! ### The results -/

theorem matchArgsWithParams_positional_iff {args : List (Loc L T)} {isMethod : Bool}
    {result : List (Argument L T TypeLike)} :
    matchArgsWithParams (.positional args) params isMethod = pure result ↔
      args.length = params.length ∧
        result =
          List.zipWith (fun arg param => ⟨param.1, arg, param.2, .positional⟩) args params := by
  constructor
  · intro h
    rw [matchArgsWithParams] at h
    by_cases hfew : args.length < params.length
    · rw [if_pos hfew] at h
      obtain ⟨_, _, h⟩ := Matching.bind_eq_pure_iff.mp h
      obtain ⟨_, _, h⟩ := Matching.bind_eq_pure_iff.mp h
      exact absurd h Matching.throw_bind_ne_pure
    rw [if_neg hfew] at h
    by_cases hmany : args.length > params.length
    · rw [if_pos hmany] at h
      obtain ⟨_, _, h⟩ := Matching.bind_eq_pure_iff.mp h
      obtain ⟨_, _, h⟩ := Matching.bind_eq_pure_iff.mp h
      exact absurd h Matching.throw_bind_ne_pure
    rw [if_neg hmany] at h
    exact ⟨by omega, (Matching.pure_inj h).symm⟩
  · rintro ⟨hlen, rfl⟩
    rw [matchArgsWithParams, if_neg (by omega), if_neg (by omega)]

/-- **Acceptance.** -/
theorem matchArgsWithParams_isOk_iff {args : ArgumentList L T} {isMethod : Bool} :
    (∃ result, matchArgsWithParams args params isMethod = pure result) ↔
      BindsEveryOnce args params := by
  cases args with
  | named args =>
      rw [bindsEveryOnce_named_iff]
      exact ⟨fun ⟨_, h⟩ => (matchArgsWithParams_named_spec h).1,
        exists_matchArgsWithParams_named isMethod⟩
  | positional args =>
      exact ⟨fun ⟨_, h⟩ => (matchArgsWithParams_positional_iff.mp h).1,
        fun h => ⟨_, matchArgsWithParams_positional_iff.mpr ⟨h, rfl⟩⟩⟩

/-- **Binding.** -/
theorem isBoundTo_of_matchArgsWithParams {args : ArgumentList L T} {isMethod : Bool}
    {result : List (Argument L T TypeLike)} (hparams : params.names.Nodup)
    (h : matchArgsWithParams args params isMethod = pure result) :
    result.length = params.length ∧
      ∀ i bound, result[i]? = some bound → IsBoundTo params i bound args := by
  cases args with
  | named args =>
      obtain ⟨hnames, entries, hentries, hresult⟩ := matchArgsWithParams_named_spec h
      obtain ⟨hlen, hall⟩ :=
        sorted_getElem? (perm_range_of_isEntry hparams hnames hentries) hentries hresult
      refine ⟨hlen, fun i bound hi => ?_⟩
      obtain ⟨arg, harg, param, hparam, hname, hbound⟩ := hall i bound hi
      exact ⟨param, hparam, arg, harg, hname.symm, hbound⟩
  | positional args =>
      obtain ⟨hlen, rfl⟩ := matchArgsWithParams_positional_iff.mp h
      refine ⟨by simp [hlen], fun i bound hi => ?_⟩
      obtain ⟨arg, param, harg, hparam, hbound⟩ := List.getElem?_zipWith_eq_some.mp hi
      exact ⟨param, arg, hparam, harg, hbound.symm⟩

/-- Only one argument is bound to a parameter. -/
theorem IsBoundTo.unique {args : List (NamedArgument L T)} {i : ℕ}
    {bound bound' : Argument L T TypeLike} (hnodup : (args.map NamedArgument.name).Nodup)
    (h : IsBoundTo params i bound (.named args)) (h' : IsBoundTo params i bound' (.named args)) :
    bound = bound' := by
  obtain ⟨param, hparam, arg, harg, hname, rfl⟩ := h
  obtain ⟨param', hparam', arg', harg', hname', rfl⟩ := h'
  obtain rfl : param = param' := Option.some.inj (hparam.symm.trans hparam')
  obtain rfl : arg = arg' :=
    List.inj_on_of_nodup_map hnodup harg harg' (hname.trans hname'.symm)
  rfl

theorem NamesMatch.perm {args args' : List (NamedArgument L T)} (h : NamesMatch args params)
    (hperm : args.Perm args') : NamesMatch args' params :=
  ⟨(hperm.map _).nodup_iff.mp h.1, fun name => (hperm.map _).mem_iff.symm.trans (h.2 name)⟩

/-- **Order.** -/
theorem matchArgsWithParams_perm {args args' : ArgumentList L T} {isMethod : Bool}
    {result : List (Argument L T TypeLike)} (hparams : params.names.Nodup)
    (hsame : SameArguments args args')
    (h : matchArgsWithParams args params isMethod = pure result) :
    matchArgsWithParams args' params isMethod = pure result := by
  cases hsame with
  | positional args => exact h
  | @named args args' hperm =>
      have hnames := (matchArgsWithParams_named_spec h).1
      obtain ⟨result', h'⟩ := exists_matchArgsWithParams_named isMethod (hnames.perm hperm)
      obtain ⟨hlen, hall⟩ := isBoundTo_of_matchArgsWithParams hparams h
      obtain ⟨hlen', hall'⟩ := isBoundTo_of_matchArgsWithParams hparams h'
      suffices heq : result' = result by rw [h', heq]
      refine List.ext_getElem (hlen'.trans hlen.symm) fun i hi' hi => ?_
      obtain ⟨param, hparam, arg, harg, hbound⟩ := hall' i _ (List.getElem?_eq_getElem hi')
      exact IsBoundTo.unique hnames.1 ⟨param, hparam, arg, hperm.mem_iff.mpr harg, hbound⟩
        (hall i _ (List.getElem?_eq_getElem hi))

theorem SameArguments.symm {args args' : ArgumentList L T} (h : SameArguments args args') :
    SameArguments args' args := by
  cases h with
  | named h => exact .named h.symm
  | positional args => exact .positional args

/-- **Matching.** With distinct parameters, a match is accepted exactly when every parameter is
bound once, its result has at every index the argument bound to that parameter, and it does not
depend on the order of named arguments. -/
theorem matchArgsWithParams_spec (hparams : params.names.Nodup) (args : ArgumentList L T)
    (isMethod : Bool) :
    ((∃ result, matchArgsWithParams args params isMethod = pure result) ↔
      BindsEveryOnce args params) ∧
    (∀ result, matchArgsWithParams args params isMethod = pure result →
      result.length = params.length ∧
        ∀ i bound, result[i]? = some bound → IsBoundTo params i bound args) ∧
    ∀ args', SameArguments args args' → ∀ result,
      matchArgsWithParams args' params isMethod = pure result ↔
        matchArgsWithParams args params isMethod = pure result :=
  ⟨matchArgsWithParams_isOk_iff, fun _ h => isBoundTo_of_matchArgsWithParams hparams h,
    fun _ hsame _ => ⟨matchArgsWithParams_perm hparams hsame.symm,
      matchArgsWithParams_perm hparams hsame⟩⟩

/-- The parameters `x` and `y` with the arguments `y: 2, x: 1`. -/
theorem matchArgsWithParams_swapped :
    BindsEveryOnce (.named [.full ⟨"y", 0⟩ ⟨2, 1⟩, .full ⟨"x", 2⟩ ⟨1, 3⟩])
        [(⟨"x", 4⟩, "int"), (⟨"y", 5⟩, "uint")] ∧
      ∃ result, matchArgsWithParams (.named [.full ⟨"y", 0⟩ ⟨2, 1⟩, .full ⟨"x", 2⟩ ⟨1, 3⟩])
        [(⟨"x", 4⟩, "int"), (⟨"y", 5⟩, "uint")] false = pure result := by
  have hparams : ParameterListWrapper.names
      ([(⟨"x", 4⟩, "int"), (⟨"y", 5⟩, "uint")] : ParameterListWrapper ℕ String) |>.Nodup := by
    decide
  have hspec := matchArgsWithParams_spec (T := ℕ) hparams
    (.named [.full ⟨"y", 0⟩ ⟨2, 1⟩, .full ⟨"x", 2⟩ ⟨1, 3⟩]) false
  have hbinds : BindsEveryOnce (.named [.full ⟨"y", 0⟩ ⟨2, 1⟩, .full ⟨"x", 2⟩ ⟨1, 3⟩])
      ([(⟨"x", 4⟩, "int"), (⟨"y", 5⟩, "uint")] : ParameterListWrapper ℕ String) := by
    simp [BindsEveryOnce, NamedArgument.name, NamedArgument.target]
  exact ⟨hbinds, hspec.1.mpr hbinds⟩

end Spade.Hir

import Mathlib.Data.List.Sort
import Mathlib.Data.Prod.Lex
import Mathlib.Logic.Function.Basic
import Spade.Hir.TypeSpec
import Spade.Lib.Terms

/-!
# Overlap of the targets of impl blocks

`type_specs_overlap` and `ensure_unique_anonymous_traits` of `spade-ast-lowering/src/lib.rs`: which
methods in anonymous impl blocks of a type exclude each other.

* **Comparison** (`typeSpecsOverlap_eq`): the recursion is a pass over the places where the
  comparison of two types ends.
* **One pair** (`overlapDecided_iff`): overlap is decided as it should be unless the types differ
  only in the lengths of argument lists, in an integer against a type or in what the generics would
  have to be, or an inversion stands at the first place where they differ.
* **All methods** (`ensureUnique_iff`): when this holds for the methods of every name, an error is
  reported exactly when two methods of a name have a common target.
-/

namespace Spade.AstLowering

open Terms

/-! ### Overlap -/

mutual

/-- `type_specs_overlap`: `none` where the source panics. -/
def typeSpecsOverlap : Hir.TypeSpec → Hir.TypeSpec → Option Bool
  | .generic _, _ => some true
  | .declared lbase lparams, r =>
      match r with
      | .generic _ => some true
      | .declared rbase rparams =>
          if lbase = rbase then typeExprsOverlapAll lparams rparams else some false
      | _ => some false
  | .tuple linner, r =>
      match r with
      | .generic _ => some true
      | .tuple rinner => typeSpecsOverlapAll linner rinner
      | _ => some false
  | .array linner lsize, r =>
      match r with
      | .generic _ => some true
      | .array rinner rsize => do
          if ← typeSpecsOverlap linner rinner then typeExprsOverlap lsize rsize else some false
      | _ => some false
  | .unit, r =>
      match r with
      | .generic _ => some true
      | .unit => some true
      | _ => some false
  | .backward linner, r =>
      match r with
      | .generic _ => some true
      | .backward rinner => typeSpecsOverlap linner rinner
      | _ => some false
  | .inverted linner, r =>
      match r with
      | .generic _ => some true
      | .inverted rinner => typeSpecsOverlap linner rinner
      -- `todo!()`
      | _ => none
  | .wire linner, r =>
      match r with
      | .generic _ => some true
      | .wire rinner => typeSpecsOverlap linner rinner
      | _ => some false
  | .traitSelf, r =>
      match r with
      | .generic _ => some true
      | _ => none
  | .wildcard, r =>
      match r with
      | .generic _ => some true
      | _ => none

/-- `type_exprs_overlap`. -/
def typeExprsOverlap : Hir.TypeExpression → Hir.TypeExpression → Option Bool
  | .integer rval, r =>
      match r with
      | .integer lval => some (rval = lval)
      | .typeSpec _ => some true
      | .constGeneric _ => none
  | .typeSpec lspec, r =>
      match r with
      | .integer _ => some true
      | .typeSpec rspec => typeSpecsOverlap lspec rspec
      | .constGeneric _ => none
  | .constGeneric _, _ => none

/-- `zip` and `all` for types. -/
def typeSpecsOverlapAll : List Hir.TypeSpec → List Hir.TypeSpec → Option Bool
  | l :: ls, r :: rs => do
      if ← typeSpecsOverlap l r then typeSpecsOverlapAll ls rs else some false
  | _, _ => some true

/-- `zip` and `all` for type expressions. -/
def typeExprsOverlapAll : List Hir.TypeExpression → List Hir.TypeExpression → Option Bool
  | l :: ls, r :: rs => do
      if ← typeExprsOverlap l r then typeExprsOverlapAll ls rs else some false
  | _, _ => some true

end

/-! ### Types as terms -/

/-- What a type without generics starts with. -/
inductive Head where
  | declared (name : NameID)
  | integer (val : ℤ)
  | tuple | array | unit | backward | inverted | wire
  | traitSelf | wildcard | constGeneric
  deriving DecidableEq

mutual

/-- A type as a term whose variables are the generics. -/
def typeTerm : Hir.TypeSpec → Term Head NameID
  | .declared name params => .app (.declared name) (exprTerms params)
  | .generic name => .var name
  | .tuple inner => .app .tuple (typeTerms inner)
  | .array inner size => .app .array [typeTerm inner, exprTerm size]
  | .unit => .app .unit []
  | .backward inner => .app .backward [typeTerm inner]
  | .inverted inner => .app .inverted [typeTerm inner]
  | .wire inner => .app .wire [typeTerm inner]
  | .traitSelf => .app .traitSelf []
  | .wildcard => .app .wildcard []

def exprTerm : Hir.TypeExpression → Term Head NameID
  | .integer val => .app (.integer val) []
  | .typeSpec spec => typeTerm spec
  | .constGeneric _ => .app .constGeneric []

def typeTerms : List Hir.TypeSpec → List (Term Head NameID)
  | [] => []
  | spec :: specs => typeTerm spec :: typeTerms specs

def exprTerms : List Hir.TypeExpression → List (Term Head NameID)
  | [] => []
  | e :: es => exprTerm e :: exprTerms es

end

/- There is no `Self`, no wildcard and no computed integer in the type. -/
mutual

def IsTarget : Hir.TypeSpec → Prop
  | .declared _ params => AreTargetExprs params
  | .tuple inner => AreTargets inner
  | .array inner size => IsTarget inner ∧ IsTargetExpr size
  | .backward inner | .inverted inner | .wire inner => IsTarget inner
  | .generic _ | .unit => True
  | .traitSelf | .wildcard => False

def IsTargetExpr : Hir.TypeExpression → Prop
  | .integer _ => True
  | .typeSpec spec => IsTarget spec
  | .constGeneric _ => False

def AreTargets : List Hir.TypeSpec → Prop
  | [] => True
  | spec :: specs => IsTarget spec ∧ AreTargets specs

def AreTargetExprs : List Hir.TypeExpression → Prop
  | [] => True
  | e :: es => IsTargetExpr e ∧ AreTargetExprs es

end

/-! ### The pass over the places -/

def Head.isInteger : Head → Bool
  | .integer _ => true
  | _ => false

/-- Two different symbols are seen to differ unless one is an integer and the other a type. -/
def clashes : Term Head NameID × Term Head NameID → Bool
  | (.app f _, .app g _) => f.isInteger == g.isInteger
  | _ => false

/-- The type is an inversion. -/
def isInversion : Term Head NameID → Bool
  | .app .inverted _ => true
  | _ => false

/-- The answer for the places from some place on. -/
def answer : List (Term Head NameID × Term Head NameID) → Option Bool
  | [] => some true
  | place :: places =>
      if clashes place then if isInversion place.1 then none else some false else answer places

theorem answer_append (places places' : List (Term Head NameID × Term Head NameID)) :
    answer (places ++ places') =
      (answer places >>= fun b => if b then answer places' else some false) := by
  induction places with
  | nil => rfl
  | cons place places ih =>
      by_cases hclash : clashes place
      · by_cases hinv : isInversion place.1 <;> simp [answer, hclash, hinv]
      · simpa [answer, hclash] using ih

/-- The answer is about the first place with symbols that are seen to differ. -/
theorem answer_eq (places : List (Term Head NameID × Term Head NameID)) :
    answer places = match places.find? clashes with
      | some place => if isInversion place.1 then none else some false
      | none => some true := by
  induction places with
  | nil => rfl
  | cons place places ih =>
      by_cases hclash : clashes place
      · simp [answer, hclash]
      · simpa [answer, hclash] using ih

mutual

/-- **Comparison.** -/
theorem typeSpecsOverlap_eq : ∀ (l r : Hir.TypeSpec), IsTarget l → IsTarget r →
    typeSpecsOverlap l r = answer ((typeTerm l).leaves (typeTerm r))
  | .generic name, r, _, _ => by simp [typeSpecsOverlap, typeTerm, Term.leaves, answer, clashes]
  | .declared lbase lparams, r, hl, hr => by
      cases r with
      | declared rbase rparams =>
          by_cases hbase : lbase = rbase
          · simpa [typeSpecsOverlap, typeTerm, Term.leaves, hbase] using
              typeExprsOverlapAll_eq lparams rparams hl hr
          · simp [typeSpecsOverlap, typeTerm, Term.leaves, hbase, answer, clashes, isInversion,
              Head.isInteger]
      | _ => simp [typeSpecsOverlap, typeTerm, Term.leaves, answer, clashes, isInversion,
          Head.isInteger]
  | .tuple linner, r, hl, hr => by
      cases r with
      | tuple rinner =>
          simpa [typeSpecsOverlap, typeTerm, Term.leaves] using
            typeSpecsOverlapAll_eq linner rinner hl hr
      | _ => simp [typeSpecsOverlap, typeTerm, Term.leaves, answer, clashes, isInversion,
          Head.isInteger]
  | .array linner lsize, r, hl, hr => by
      cases r with
      | array rinner rsize =>
          have hinner := typeSpecsOverlap_eq linner rinner hl.1 hr.1
          have hsize := typeExprsOverlap_eq lsize rsize hl.2 hr.2
          simp [typeSpecsOverlap, typeTerm, Term.leaves, leavesAll, hinner, hsize, answer_append]
      | _ => simp [typeSpecsOverlap, typeTerm, Term.leaves, answer, clashes, isInversion,
          Head.isInteger]
  | .unit, r, _, _ => by
      cases r <;> simp [typeSpecsOverlap, typeTerm, Term.leaves, leavesAll, answer, clashes,
        isInversion, Head.isInteger]
  | .backward linner, r, hl, hr => by
      cases r with
      | backward rinner =>
          simpa [typeSpecsOverlap, typeTerm, Term.leaves, leavesAll] using
            typeSpecsOverlap_eq linner rinner hl hr
      | _ => simp [typeSpecsOverlap, typeTerm, Term.leaves, answer, clashes, isInversion,
          Head.isInteger]
  | .inverted linner, r, hl, hr => by
      cases r with
      | inverted rinner =>
          simpa [typeSpecsOverlap, typeTerm, Term.leaves, leavesAll] using
            typeSpecsOverlap_eq linner rinner hl hr
      | _ => simp [typeSpecsOverlap, typeTerm, Term.leaves, answer, clashes, isInversion,
          Head.isInteger]
  | .wire linner, r, hl, hr => by
      cases r with
      | wire rinner =>
          simpa [typeSpecsOverlap, typeTerm, Term.leaves, leavesAll] using
            typeSpecsOverlap_eq linner rinner hl hr
      | _ => simp [typeSpecsOverlap, typeTerm, Term.leaves, answer, clashes, isInversion,
          Head.isInteger]
  | .traitSelf, _, hl, _ | .wildcard, _, hl, _ => hl.elim

theorem typeExprsOverlap_eq : ∀ (l r : Hir.TypeExpression), IsTargetExpr l → IsTargetExpr r →
    typeExprsOverlap l r = answer ((exprTerm l).leaves (exprTerm r))
  | .integer lval, .integer rval, _, _ => by
      by_cases hval : lval = rval
      · simp [typeExprsOverlap, exprTerm, Term.leaves, leavesAll, answer, hval]
      · simp [typeExprsOverlap, exprTerm, Term.leaves, answer, hval, clashes, isInversion,
          Head.isInteger]
  | .integer lval, .typeSpec rspec, _, hr => by
      cases rspec <;> simp [typeExprsOverlap, exprTerm, typeTerm, Term.leaves, answer, clashes,
        Head.isInteger]
  | .typeSpec lspec, .integer rval, hl, _ => by
      cases lspec <;> simp [typeExprsOverlap, exprTerm, typeTerm, Term.leaves, answer, clashes,
        Head.isInteger]
  | .typeSpec lspec, .typeSpec rspec, hl, hr => by
      rw [typeExprsOverlap, exprTerm, exprTerm]
      exact typeSpecsOverlap_eq lspec rspec hl hr
  | .constGeneric _, _, hl, _ => hl.elim
  | .integer _, .constGeneric _, _, hr | .typeSpec _, .constGeneric _, _, hr => hr.elim

theorem typeSpecsOverlapAll_eq : ∀ (ls rs : List Hir.TypeSpec), AreTargets ls → AreTargets rs →
    typeSpecsOverlapAll ls rs = answer (leavesAll (typeTerms ls) (typeTerms rs))
  | [], _, _, _ => by simp [typeSpecsOverlapAll, typeTerms, leavesAll, answer]
  | _ :: _, [], _, _ => by simp [typeSpecsOverlapAll, typeTerms, leavesAll, answer]
  | l :: ls, r :: rs, hl, hr => by
      rw [typeSpecsOverlapAll, typeTerms, typeTerms, leavesAll, answer_append,
        typeSpecsOverlap_eq l r hl.1 hr.1, typeSpecsOverlapAll_eq ls rs hl.2 hr.2]

theorem typeExprsOverlapAll_eq : ∀ (ls rs : List Hir.TypeExpression), AreTargetExprs ls →
    AreTargetExprs rs →
    typeExprsOverlapAll ls rs = answer (leavesAll (exprTerms ls) (exprTerms rs))
  | [], _, _, _ => by simp [typeExprsOverlapAll, exprTerms, leavesAll, answer]
  | _ :: _, [], _, _ => by simp [typeExprsOverlapAll, exprTerms, leavesAll, answer]
  | l :: ls, r :: rs, hl, hr => by
      rw [typeExprsOverlapAll, exprTerms, exprTerms, leavesAll, answer_append,
        typeExprsOverlap_eq l r hl.1 hr.1, typeExprsOverlapAll_eq ls rs hl.2 hr.2]

end

/-! ### One pair -/

/-- Overlap of the two types is decided without a panic, in either order alike, and rightly. -/
def OverlapDecided (l r : Hir.TypeSpec) : Prop :=
  ∃ b, typeSpecsOverlap l r = some b ∧ typeSpecsOverlap r l = some b ∧
    (b = true ↔ HaveCommonInstance (typeTerm l) (typeTerm r))

/-- The first place where the types are seen to differ has no inversion. If there is none, the
argument lists have the same lengths, and generics can be chosen that make the types equal at all
places where one of them has a generic or an integer. -/
def DifferPlainly (l r : Hir.TypeSpec) : Prop :=
  match ((typeTerm l).leaves (typeTerm r)).find? clashes with
  | some place => isInversion place.1 = false ∧ isInversion place.2 = false
  | none => (typeTerm l).SameLengths (typeTerm r) ∧
      ∃ σ τ : NameID → Term Head Empty,
        ∀ place ∈ (typeTerm l).leaves (typeTerm r), place.1.bind σ = place.2.bind τ

theorem clashes_swap (place : Term Head NameID × Term Head NameID) :
    clashes place.swap = clashes place := by
  obtain ⟨_ | ⟨f, _⟩, _ | ⟨g, _⟩⟩ := place
  · rfl
  · rfl
  · rfl
  · exact Bool.beq_comm

theorem find?_clashes_swap (l r : Term Head NameID) :
    (r.leaves l).find? clashes = ((l.leaves r).find? clashes).map Prod.swap := by
  rw [leaves_swap l r, List.find?_map]
  congr 2
  funext place
  exact clashes_swap place

/-- Where types are seen to differ, they have no common instance. -/
theorem not_haveCommonInstance_of_clash {l r : Term Head NameID}
    {place : Term Head NameID × Term Head NameID}
    (h : (l.leaves r).find? clashes = some place) : ¬HaveCommonInstance l r := by
  have hclash := List.find?_some h
  have hmem := List.mem_of_find?_eq_some h
  obtain ⟨_ | ⟨f, ts⟩, _ | ⟨g, us⟩⟩ := place
  · exact absurd hclash (by simp [clashes])
  · exact absurd hclash (by simp [clashes])
  · exact absurd hclash (by simp [clashes])
  · exact not_haveCommonInstance_of_mem_leaves hmem

/-- **One pair.** -/
theorem overlapDecided_iff {l r : Hir.TypeSpec} (hl : IsTarget l) (hr : IsTarget r) :
    OverlapDecided l r ↔ DifferPlainly l r := by
  have hlr := typeSpecsOverlap_eq l r hl hr
  have hrl := typeSpecsOverlap_eq r l hr hl
  rw [answer_eq] at hlr hrl
  rw [find?_clashes_swap] at hrl
  unfold OverlapDecided DifferPlainly
  rw [hlr, hrl, ← haveCommonInstance_iff]
  cases hfind : ((typeTerm l).leaves (typeTerm r)).find? clashes with
  | none => simp
  | some place =>
      have hno := not_haveCommonInstance_of_clash hfind
      by_cases hfst : isInversion place.1
      · simp [hfst]
      · by_cases hsnd : isInversion place.2
        · simp [hfst, hsnd]
        · simp [hfst, hsnd, hno]

theorem OverlapDecided.symm {l r : Hir.TypeSpec} (h : OverlapDecided l r) : OverlapDecided r l := by
  obtain ⟨b, hlr, hrl, hiff⟩ := h
  exact ⟨b, hrl, hlr, hiff.trans ⟨HaveCommonInstance.symm, HaveCommonInstance.symm⟩⟩

/-! ### All methods -/

/-- A place in a file, by its start and its end. -/
abbrev Span := ℕ ×ₗ ℕ

/-- The parts of `ImplBlock` that are read: the names of the methods with their places, and the
target. -/
structure ImplMethods where
  fns : List (String × Span)
  target : Hir.TypeSpec

/-- A method of an impl block with the target of the block. -/
structure Method where
  name : String
  loc : Span
  target : Hir.TypeSpec

/-- `{type_name} already has a method named {f}` at `loc`, with the previous definition. -/
structure DuplicateMethod where
  typeName : NameID
  name : String
  loc : Span
  previous : Span

/-- The methods in the anonymous impl blocks of a type. -/
def anonymousMethods (impls : List (Spade.TraitName × ImplMethods)) : List Method :=
  (impls.filter fun entry => match entry.1 with
    | .anonymous _ => true
    | .named _ => false).flatMap fun entry =>
      entry.2.fns.map fun f => ⟨f.1, f.2, entry.2.target⟩

/-- What is known of the methods seen so far: the first one of every name, and the targets of those
that no error was reported for. -/
abbrev SeenMethods := String → Option (Span × List Hir.TypeSpec)

/-- One pass of the loop over the methods of the type. -/
def checkMethod (typeName : NameID) (state : SeenMethods × List DuplicateMethod) (method : Method) :
    Option (SeenMethods × List DuplicateMethod) :=
  match state.1 method.name with
  | some (prev, specs) => do
      if ← specs.anyM (typeSpecsOverlap method.target) then
        some (state.1, state.2 ++ [⟨typeName, method.name, method.loc, prev⟩])
      else
        some (Function.update state.1 method.name (some (prev, specs ++ [method.target])), state.2)
  | none =>
      some (Function.update state.1 method.name (some (method.loc, [method.target])), state.2)

/-- The errors for one type. -/
def duplicateErrors (typeName : NameID) (impls : List (Spade.TraitName × ImplMethods)) :
    Option (List DuplicateMethod) := do
  let fns := (anonymousMethods impls).mergeSort fun a b => a.loc ≤ b.loc
  let state ← fns.foldlM (checkMethod typeName) (fun _ => none, [])
  some state.2

/-- `ensure_unique_anonymous_traits`. -/
def ensureUniqueAnonymousTraits (impls : List (NameID × List (Spade.TraitName × ImplMethods))) :
    Option (List DuplicateMethod) := do
  some (← impls.mapM fun entry => duplicateErrors entry.1 entry.2).flatten

/-- Some concrete type is a target of both methods, which have one name. -/
def Conflict (a b : Method) : Prop :=
  a.name = b.name ∧ HaveCommonInstance (typeTerm a.target) (typeTerm b.target)

/-- An error is reported exactly when two methods of some type conflict. -/
def ErrorsExact (impls : List (NameID × List (Spade.TraitName × ImplMethods))) : Prop :=
  ∃ errors, ensureUniqueAnonymousTraits impls = some errors ∧
    (errors ≠ [] ↔
      ∃ entry ∈ impls, ¬(anonymousMethods entry.2).Pairwise fun a b => ¬Conflict a b)

theorem Conflict.symm {a b : Method} (h : Conflict a b) : Conflict b a := ⟨h.1.symm, h.2.symm⟩

theorem anyM_typeSpecsOverlap {target : Hir.TypeSpec} {specs : List Hir.TypeSpec}
    (h : ∀ spec ∈ specs, OverlapDecided target spec) :
    ∃ b, specs.anyM (typeSpecsOverlap target) = some b ∧
      (b = true ↔ ∃ spec ∈ specs, HaveCommonInstance (typeTerm target) (typeTerm spec)) := by
  induction specs with
  | nil => exact ⟨false, rfl, by simp⟩
  | cons spec specs ih =>
      obtain ⟨⟨b, hb, -, hiff⟩, htail⟩ := List.forall_mem_cons.mp h
      obtain ⟨b', hb', hiff'⟩ := ih htail
      cases b with
      | true => exact ⟨true, by simp [List.anyM, hb], by simp [hiff.mp rfl]⟩
      | false =>
          refine ⟨b', by simp [List.anyM, hb, hb'], ?_⟩
          have hno : ¬HaveCommonInstance (typeTerm target) (typeTerm spec) :=
            fun hcommon => Bool.false_ne_true (hiff.mpr hcommon)
          simp [hiff', hno]

/-- What the state says about the methods that have been checked. -/
structure Checked (methods : List Method) (state : SeenMethods × List DuplicateMethod) : Prop where
  mem_of_seen : ∀ name prev specs, state.1 name = some (prev, specs) →
    ∀ spec ∈ specs, ∃ m ∈ methods, m.name = name ∧ m.target = spec
  seen_of_mem : state.2 = [] → ∀ m ∈ methods, ∃ prev specs,
    state.1 m.name = some (prev, specs) ∧ m.target ∈ specs
  errors_iff : state.2 ≠ [] ↔ ¬methods.Pairwise fun a b => ¬Conflict a b

section Step

variable {methods : List Method} {state : SeenMethods × List DuplicateMethod} {method : Method}

/-- A method that conflicts with no earlier one as far as there is no error. -/
theorem Checked.errors_iff_append (h : Checked methods state)
    (hnone : state.2 = [] → ∀ m ∈ methods, ¬Conflict m method) :
    state.2 ≠ [] ↔ ¬(methods ++ [method]).Pairwise fun a b => ¬Conflict a b := by
  rw [h.errors_iff, List.pairwise_append, not_iff_not]
  constructor
  · intro hpairwise
    have hempty : state.2 = [] := by
      by_contra hne
      exact h.errors_iff.mp hne hpairwise
    refine ⟨hpairwise, List.pairwise_singleton _ _, fun a ha b hb => ?_⟩
    obtain rfl := List.mem_singleton.mp hb
    exact hnone hempty a ha
  · exact fun hpairwise => hpairwise.1

/-- Adding the target of a method to those of its name. -/
theorem Checked.update (h : Checked methods state) {prev : Span} {specs : List Hir.TypeSpec}
    (hspecs : ∀ spec ∈ specs, ∃ m ∈ methods, m.name = method.name ∧ m.target = spec)
    (hkept : state.2 = [] → ∀ m ∈ methods, m.name = method.name → m.target ∈ specs)
    (hnone : state.2 = [] → ∀ m ∈ methods, ¬Conflict m method) :
    Checked (methods ++ [method])
      (Function.update state.1 method.name (some (prev, specs ++ [method.target])), state.2) where
  mem_of_seen := by
    intro name prev' specs' hseen spec hspec
    by_cases hname : name = method.name
    · subst hname
      obtain ⟨rfl, rfl⟩ : prev = prev' ∧ specs ++ [method.target] = specs' := by
        simpa using hseen
      rcases List.mem_append.mp hspec with hspec | hspec
      · obtain ⟨m, hm, hfacts⟩ := hspecs spec hspec
        exact ⟨m, List.mem_append_left _ hm, hfacts⟩
      · exact ⟨method, by simp, rfl, (List.mem_singleton.mp hspec).symm⟩
    · have hseen' : state.1 name = some (prev', specs') := by
        simpa [Function.update_of_ne hname] using hseen
      obtain ⟨m, hm, hfacts⟩ := h.mem_of_seen name prev' specs' hseen' spec hspec
      exact ⟨m, List.mem_append_left _ hm, hfacts⟩
  seen_of_mem := by
    intro hempty m hm
    by_cases hname : m.name = method.name
    · refine ⟨prev, specs ++ [method.target], by simp [hname], ?_⟩
      rcases List.mem_append.mp hm with hm | hm
      · exact List.mem_append_left _ (hkept hempty m hm hname)
      · obtain rfl := List.mem_singleton.mp hm
        simp
    · rcases List.mem_append.mp hm with hm | hm
      · simpa [Function.update_of_ne hname] using h.seen_of_mem hempty m hm
      · exact absurd (congrArg Method.name (List.mem_singleton.mp hm)) hname
  errors_iff := h.errors_iff_append hnone

/-- **Step.** -/
theorem checkMethod_spec (typeName : NameID) (h : Checked methods state)
    (hdecided : ∀ m ∈ methods, m.name = method.name → OverlapDecided m.target method.target) :
    ∃ state', checkMethod typeName state method = some state' ∧
      Checked (methods ++ [method]) state' := by
  unfold checkMethod
  cases hseen : state.1 method.name with
  | none =>
      refine ⟨_, rfl, @Checked.update _ _ _ h method.loc [] nofun ?_ ?_⟩
      · intro hempty m hm hname
        obtain ⟨prev, specs, hsome, -⟩ := h.seen_of_mem hempty m hm
        rw [hname, hseen] at hsome
        exact nomatch hsome
      · intro hempty m hm hconflict
        obtain ⟨prev, specs, hsome, -⟩ := h.seen_of_mem hempty m hm
        rw [hconflict.1, hseen] at hsome
        exact nomatch hsome
  | some entry =>
      obtain ⟨prev, specs⟩ := entry
      have hspecs := h.mem_of_seen _ _ _ hseen
      obtain ⟨b, hany, hiff⟩ := @anyM_typeSpecsOverlap method.target specs fun spec hspec => by
        obtain ⟨m, hm, hname, rfl⟩ := hspecs spec hspec
        exact (hdecided m hm hname).symm
      cases b with
      | true =>
          obtain ⟨spec, hspec, hcommon⟩ := hiff.mp rfl
          obtain ⟨m, hm, hname, rfl⟩ := hspecs spec hspec
          refine ⟨_, by simp [hany]; rfl, ?_, fun hempty => absurd hempty (by simp), ?_⟩
          · intro name prev' specs' hseen' spec' hspec'
            obtain ⟨m', hm', hfacts⟩ := h.mem_of_seen name prev' specs' hseen' spec' hspec'
            exact ⟨m', List.mem_append_left _ hm', hfacts⟩
          · refine iff_of_true (by simp) fun hpairwise => ?_
            exact (List.pairwise_append.mp hpairwise).2.2 m hm method (by simp)
              ⟨hname, hcommon.symm⟩
      | false =>
          have hkept : state.2 = [] → ∀ m ∈ methods, m.name = method.name → m.target ∈ specs := by
            intro hempty m hm hname
            obtain ⟨prev', specs', hsome, hmem⟩ := h.seen_of_mem hempty m hm
            rw [hname, hseen] at hsome
            obtain ⟨-, rfl⟩ := Prod.mk.inj (Option.some.inj hsome)
            exact hmem
          refine ⟨_, by simp [hany]; rfl, h.update hspecs hkept ?_⟩
          intro hempty m hm hconflict
          have hmem := hkept hempty m hm hconflict.1
          exact Bool.false_ne_true (hiff.mpr ⟨_, hmem, hconflict.2.symm⟩)

end Step

/-- **Run.** -/
theorem foldlM_checkMethod_spec (typeName : NameID) {methods rest : List Method}
    {state : SeenMethods × List DuplicateMethod} (h : Checked methods state)
    (hdecided : (methods ++ rest).Pairwise fun a b =>
      a.name = b.name → OverlapDecided a.target b.target) :
    ∃ state', rest.foldlM (checkMethod typeName) state = some state' ∧
      Checked (methods ++ rest) state' := by
  induction rest generalizing methods state with
  | nil => exact ⟨state, rfl, (List.append_nil methods).symm ▸ h⟩
  | cons method rest ih =>
      obtain ⟨state₁, hstep, h₁⟩ := checkMethod_spec typeName h fun m hm =>
        (List.pairwise_append.mp hdecided).2.2 m hm method List.mem_cons_self
      rw [List.append_cons] at hdecided ⊢
      obtain ⟨state₂, hrun, h₂⟩ := ih h₁ hdecided
      refine ⟨state₂, ?_, h₂⟩
      rw [List.foldlM_cons, hstep]
      exact hrun

theorem duplicateErrors_spec (typeName : NameID) {impls : List (Spade.TraitName × ImplMethods)}
    (hdecided : (anonymousMethods impls).Pairwise fun a b =>
      a.name = b.name → OverlapDecided a.target b.target) :
    ∃ errors, duplicateErrors typeName impls = some errors ∧
      (errors ≠ [] ↔ ¬(anonymousMethods impls).Pairwise fun a b => ¬Conflict a b) := by
  have hperm := List.mergeSort_perm (anonymousMethods impls) fun a b => decide (a.loc ≤ b.loc)
  have hsorted := (hperm.pairwise_iff fun {a b} hab hname => (hab hname.symm).symm).mpr hdecided
  have hstart : Checked [] (fun _ => none, []) :=
    ⟨nofun, fun _ _ hm => absurd hm List.not_mem_nil, by simp⟩
  obtain ⟨state, hrun, hchecked⟩ := foldlM_checkMethod_spec typeName hstart hsorted
  rw [List.nil_append] at hchecked
  refine ⟨state.2, ?_, ?_⟩
  · unfold duplicateErrors
    simp [hrun]
  · rw [hchecked.errors_iff, hperm.pairwise_iff fun {a b} hab hconflict => hab hconflict.symm]

theorem ensureUnique_errorsExact {impls : List (NameID × List (Spade.TraitName × ImplMethods))}
    (hdecided : ∀ entry ∈ impls, (anonymousMethods entry.2).Pairwise fun a b =>
      a.name = b.name → OverlapDecided a.target b.target) : ErrorsExact impls := by
  have hall : ∃ errors, impls.mapM (fun entry => duplicateErrors entry.1 entry.2) = some errors ∧
      (errors.flatten ≠ [] ↔
        ∃ entry ∈ impls, ¬(anonymousMethods entry.2).Pairwise fun a b => ¬Conflict a b) := by
    induction impls with
    | nil => exact ⟨[], rfl, by simp⟩
    | cons entry impls ih =>
        obtain ⟨hentry, hrest⟩ := List.forall_mem_cons.mp hdecided
        obtain ⟨errors, herrors, hiff⟩ := duplicateErrors_spec entry.1 hentry
        obtain ⟨rest, hmap, hiff'⟩ := ih hrest
        refine ⟨errors :: rest, by simp [List.mapM_cons, herrors, hmap], ?_⟩
        rw [List.exists_mem_cons_iff, ← hiff, ← hiff', List.flatten_cons, Ne,
          List.append_eq_nil_iff, not_and_or]
  obtain ⟨errors, hmap, hiff⟩ := hall
  exact ⟨errors.flatten, by simp [ensureUniqueAnonymousTraits, hmap], hiff⟩

/-- **All methods.** -/
theorem ensureUnique_iff {impls : List (NameID × List (Spade.TraitName × ImplMethods))}
    (htargets : ∀ entry ∈ impls, ∀ m ∈ anonymousMethods entry.2, IsTarget m.target) :
    ((∀ entry ∈ impls, (anonymousMethods entry.2).Pairwise fun a b =>
        a.name = b.name → OverlapDecided a.target b.target) ∧ ErrorsExact impls) ↔
      ∀ entry ∈ impls, (anonymousMethods entry.2).Pairwise fun a b =>
        a.name = b.name → DifferPlainly a.target b.target := by
  have hiff : (∀ entry ∈ impls, (anonymousMethods entry.2).Pairwise fun a b =>
        a.name = b.name → OverlapDecided a.target b.target) ↔
      ∀ entry ∈ impls, (anonymousMethods entry.2).Pairwise fun a b =>
        a.name = b.name → DifferPlainly a.target b.target := by
    refine forall₂_congr fun entry hentry => List.Pairwise.iff_of_mem fun {a b} ha hb => ?_
    rw [overlapDecided_iff (htargets entry hentry a ha) (htargets entry hentry b hb)]
  rw [← hiff]
  exact and_iff_left_of_imp ensureUnique_errorsExact

/-- **Both.** -/
theorem typeSpecsOverlap_right_iff {l r : Hir.TypeSpec} (hl : IsTarget l) (hr : IsTarget r)
    {impls : List (NameID × List (Spade.TraitName × ImplMethods))}
    (htargets : ∀ entry ∈ impls, ∀ m ∈ anonymousMethods entry.2, IsTarget m.target) :
    (OverlapDecided l r ↔ DifferPlainly l r) ∧
      (((∀ entry ∈ impls, (anonymousMethods entry.2).Pairwise fun a b =>
          a.name = b.name → OverlapDecided a.target b.target) ∧ ErrorsExact impls) ↔
        ∀ entry ∈ impls, (anonymousMethods entry.2).Pairwise fun a b =>
          a.name = b.name → DifferPlainly a.target b.target) :=
  ⟨overlapDecided_iff hl hr, ensureUnique_iff htargets⟩

/-- `Pair<A, B>`. -/
def pairOf (a b : Hir.TypeSpec) : Hir.TypeSpec := .declared ⟨0, "Pair"⟩ [.typeSpec a, .typeSpec b]

def boolSpec : Hir.TypeSpec := .declared ⟨1, "bool"⟩ []

def bitSpec : Hir.TypeSpec := .declared ⟨2, "bit"⟩ []

/-- The generic `T`. -/
def genericT : Hir.TypeSpec := .generic ⟨3, "T"⟩

/-- `impl<T> Pair<T, bool>` and `impl<T> Pair<bit, T>`, both with a method `f`. -/
def twoImpls : List (Spade.TraitName × ImplMethods) :=
  [(.anonymous 0, ⟨[("f", toLex (0, 1))], pairOf genericT boolSpec⟩),
    (.anonymous 1, ⟨[("f", toLex (2, 3))], pairOf bitSpec genericT⟩)]

theorem anonymousMethods_twoImpls : anonymousMethods twoImpls =
    [⟨"f", toLex (0, 1), pairOf genericT boolSpec⟩,
      ⟨"f", toLex (2, 3), pairOf bitSpec genericT⟩] := rfl

theorem twoImpls_differPlainly :
    DifferPlainly (pairOf genericT boolSpec) (pairOf bitSpec genericT) := by
  refine ⟨?_, fun _ => .app (.declared ⟨2, "bit"⟩) [], fun _ => .app (.declared ⟨1, "bool"⟩) [], ?_⟩
  · simp [pairOf, typeTerm, exprTerms, exprTerm, genericT, boolSpec, bitSpec, Term.SameLengths,
      SameLengthsAll]
  · simp [pairOf, typeTerm, exprTerms, exprTerm, genericT, boolSpec, bitSpec, Term.leaves,
      leavesAll, Term.bind, bindAll]

/-- The two targets have the common instance `Pair<bit, bool>`. -/
theorem twoImpls_right :
    OverlapDecided (pairOf genericT boolSpec) (pairOf bitSpec genericT) ∧
      ErrorsExact [(⟨0, "Pair"⟩, twoImpls)] := by
  have htarget : IsTarget (pairOf genericT boolSpec) ∧ IsTarget (pairOf bitSpec genericT) := by
    simp [IsTarget, pairOf, genericT, boolSpec, bitSpec, AreTargetExprs, IsTargetExpr]
  have htargets : ∀ entry ∈ [((⟨0, "Pair"⟩ : NameID), twoImpls)],
      ∀ m ∈ anonymousMethods entry.2, IsTarget m.target := by
    simp [anonymousMethods_twoImpls, htarget]
  obtain ⟨hpair, hall⟩ := typeSpecsOverlap_right_iff htarget.1 htarget.2 htargets
  refine ⟨hpair.mpr twoImpls_differPlainly, (hall.mpr ?_).2⟩
  simp [anonymousMethods_twoImpls, twoImpls_differPlainly]

/-- `Pair<T, T>` and `Pair<bool, bit>` are said to overlap, so are tuples of different lengths, and
an inversion against a tuple panics. -/
theorem overlap_not_decided :
    ¬OverlapDecided (pairOf genericT genericT) (pairOf boolSpec bitSpec) ∧
      ¬OverlapDecided (.tuple [boolSpec]) (.tuple [boolSpec, boolSpec]) ∧
      ¬OverlapDecided (.inverted boolSpec) boolSpec := by
  refine ⟨?_, ?_, ?_⟩
  · rintro ⟨b, hb, -, hiff⟩
    obtain rfl : true = b := by
      simpa [pairOf, genericT, boolSpec, bitSpec, typeSpecsOverlap, typeExprsOverlapAll,
        typeExprsOverlap] using hb
    obtain ⟨σ, τ, heq⟩ := hiff.mp rfl
    simp only [pairOf, typeTerm, exprTerms, exprTerm, genericT, boolSpec, bitSpec, Term.bind,
      bindAll, Term.app.injEq, List.cons.injEq, true_and, and_true] at heq
    have hbase := heq.1.symm.trans heq.2
    simp at hbase
  · rintro ⟨b, hb, -, hiff⟩
    obtain rfl : true = b := by
      simpa [boolSpec, typeSpecsOverlap, typeSpecsOverlapAll, typeExprsOverlapAll] using hb
    obtain ⟨σ, τ, heq⟩ := hiff.mp rfl
    simp [typeTerm, typeTerms, boolSpec, Term.bind, bindAll] at heq
  · rintro ⟨b, hb, -⟩
    simp [boolSpec, typeSpecsOverlap] at hb

end Spade.AstLowering

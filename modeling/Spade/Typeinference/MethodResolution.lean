import Spade.Hir.TypeSpec
import Spade.Lib.OptionList
import Spade.Typeinference.Completions

/-!
# Method resolution

The embedding of `spade-typeinference/src/method_resolution.rs`: which of the impl blocks of a type
a method call means, where the type may still have unknown parts.

* **Generics apart** (`overlap_eq_yes_iff`): the answer is `yes` exactly when the type is made from
  the target by putting some type at every place where the target has a generic.
* **Negative answers** (`not_stands_of_no`): after `no`, no completion is an instance of the target.
* **Answers** (`answersRight_iff`): the answers are right exactly when the places of a generic agree
  in such a type.
* **Selection** (`selectMethod_only`): when a method is selected, the other candidates cannot apply.
* **Both** (`methodResolution_right_iff`).

A step is `none` where the source panics. The texts of the diagnostics are left out.
-/

namespace Spade.Typeinference

open Hir

/-! ### Overlap -/

/-- `Overlap`. -/
inductive Overlap where
  | yes | no | maybe
  deriving DecidableEq

/-- `all_overlap`, for two answers. -/
def Overlap.and : Overlap → Overlap → Overlap
  | yes, o => o
  | no, _ => no
  | maybe, _ => maybe

/-- One step of `all_overlap`: what comes after an answer other than `yes` is not looked at. -/
def andThen : Option Overlap → Option Overlap → Option Overlap
  | some .yes, o => o
  | o, _ => o

mutual

/-- `spec_is_overlapping`. -/
def specIsOverlapping : TypeSpec → TypeVar → Option Overlap
  | .generic _, _ => some .yes
  | .declared name params, var =>
      match var with
      | .unknown _ _ _ => some .maybe
      | .known (.named varName) varParams =>
          if name = varName then
            -- `exprs_are_overlapping`
            if params.length = varParams.length then exprsOverlap params varParams else some .no
          else some .no
      | _ => some .no
  | .tuple inner, var =>
      match var with
      | .unknown _ _ _ => some .maybe
      | .known .tuple vars =>
          -- `specs_are_overlapping`
          if inner.length = vars.length then specsOverlap inner vars else some .no
      | _ => some .no
  | .array inner size, var =>
      match var with
      | .unknown _ _ _ => some .maybe
      | .known .array (v :: v' :: _) => do
          let o ← specIsOverlapping inner v
          let o' ← exprIsOverlapping size v'
          some (o.and o')
      | .known .array _ => none
      | _ => some .no
  | .unit, var =>
      match var with
      | .unknown _ _ _ => some .maybe
      | _ => some .no
  | .backward inner, var =>
      match var with
      | .unknown _ _ _ => some .maybe
      | .known .backward (v :: _) => specIsOverlapping inner v
      | .known .backward [] => none
      | _ => some .no
  | .inverted inner, var =>
      match var with
      | .unknown _ _ _ => some .maybe
      | .known .inverted (v :: _) => specIsOverlapping inner v
      | .known .inverted [] => none
      | _ => some .no
  | .wire inner, var =>
      match var with
      | .unknown _ _ _ => some .maybe
      | .known .wire (v :: _) => specIsOverlapping inner v
      | .known .wire [] => none
      | _ => some .no
  | .traitSelf, var =>
      match var with
      | .unknown _ _ _ => some .maybe
      | _ => none
  | .wildcard, var =>
      match var with
      | .unknown _ _ _ => some .maybe
      | _ => none

/-- `expr_is_overlapping`. -/
def exprIsOverlapping : TypeExpression → TypeVar → Option Overlap
  | .integer eval, var =>
      match var with
      | .known (.integer vval) _ => some (if eval = vval then .yes else .no)
      | .unknown _ _ _ => some .maybe
      | _ => none
  | .typeSpec s, var => specIsOverlapping s var
  | .constGeneric _, _ => none

/-- The answers for specifications and types pairwise. -/
def specsOverlap : List TypeSpec → List TypeVar → Option Overlap
  | s :: specs, v :: vars => andThen (specIsOverlapping s v) (specsOverlap specs vars)
  | _, _ => some .yes

/-- The answers for expressions and types pairwise. -/
def exprsOverlap : List TypeExpression → List TypeVar → Option Overlap
  | e :: exprs, v :: vars => andThen (exprIsOverlapping e v) (exprsOverlap exprs vars)
  | _, _ => some .yes

end

/-! ### Instances -/

/- The type is made from the specification by putting types at the places of the generics, as far as
`R` allows. -/
mutual

def Stands (R : NameID → TypeVar → Prop) : TypeSpec → TypeVar → Prop
  | .generic name, t => R name t
  | .declared name params, t => ∃ ts, t = .known (.named name) ts ∧ StandExprs R params ts
  | .tuple inner, t => ∃ ts, t = .known .tuple ts ∧ StandSpecs R inner ts
  -- these types have no other parameters
  | .array inner size, t =>
      ∃ u v rest, t = .known .array (u :: v :: rest) ∧ Stands R inner u ∧ StandsExpr R size v
  | .backward inner, t => ∃ u rest, t = .known .backward (u :: rest) ∧ Stands R inner u
  | .inverted inner, t => ∃ u rest, t = .known .inverted (u :: rest) ∧ Stands R inner u
  | .wire inner, t => ∃ u rest, t = .known .wire (u :: rest) ∧ Stands R inner u
  | .unit, _ => False
  | .traitSelf, _ => False
  | .wildcard, _ => False

def StandsExpr (R : NameID → TypeVar → Prop) : TypeExpression → TypeVar → Prop
  | .integer val, t => ∃ rest, t = .known (.integer val) rest
  | .typeSpec s, t => Stands R s t
  | .constGeneric _, _ => False

def StandSpecs (R : NameID → TypeVar → Prop) : List TypeSpec → List TypeVar → Prop
  | [], ts => ts = []
  | s :: specs, ts => ∃ u us, ts = u :: us ∧ Stands R s u ∧ StandSpecs R specs us

def StandExprs (R : NameID → TypeVar → Prop) : List TypeExpression → List TypeVar → Prop
  | [], ts => ts = []
  | e :: exprs, ts => ∃ u us, ts = u :: us ∧ StandsExpr R e u ∧ StandExprs R exprs us

end

/-- Any type at any place of a generic. -/
def Anything (_ : NameID) (_ : TypeVar) : Prop := True

theorem Overlap.and_eq_yes {o o' : Overlap} : o.and o' = .yes ↔ o = .yes ∧ o' = .yes := by
  cases o <;> cases o' <;> decide

theorem andThen_eq_yes {o o' : Option Overlap} :
    andThen o o' = some .yes ↔ o = some .yes ∧ o' = some .yes := by
  rcases o with _ | _ | _ | _ <;> simp [andThen]

theorem ite_eq_yes {p : Prop} [Decidable p] {o : Option Overlap} :
    (if p then o else some .no) = some .yes ↔ p ∧ o = some .yes := by
  split_ifs with h <;> simp [h]

mutual

/-- The answer is `yes` exactly when all but the generics of the target stands in the type. -/
theorem overlap_eq_yes_iff : ∀ (spec : TypeSpec) (t : TypeVar),
    specIsOverlapping spec t = some .yes ↔ Stands Anything spec t
  | .generic name, t => by simp [specIsOverlapping, Stands, Anything]
  | .declared name params, .known base ts => by
      cases base with
      | named varName =>
          by_cases hname : name = varName
          · subst hname
            simpa [specIsOverlapping, Stands, ite_eq_yes] using exprs_overlap_iff params ts
          · simp [specIsOverlapping, Stands, hname, Ne.symm hname]
      | _ => simp [specIsOverlapping, Stands]
  | .tuple inner, .known base ts => by
      cases base with
      | tuple => simpa [specIsOverlapping, Stands, ite_eq_yes] using specs_overlap_iff inner ts
      | _ => simp [specIsOverlapping, Stands]
  | .array inner size, .known base ts => by
      cases base with
      | array =>
          rcases ts with _ | ⟨u, _ | ⟨v, rest⟩⟩
          · simp [specIsOverlapping, Stands]
          · simp [specIsOverlapping, Stands]
          · have hinner := overlap_eq_yes_iff inner u
            have hsize := expr_overlap_iff size v
            simp [specIsOverlapping, Stands, ← hinner, ← hsize, Option.bind_eq_some_iff,
              Overlap.and_eq_yes]
      | _ => simp [specIsOverlapping, Stands]
  | .backward inner, .known base ts => by
      cases base with
      | backward =>
          rcases ts with _ | ⟨u, rest⟩
          · simp [specIsOverlapping, Stands]
          · simpa [specIsOverlapping, Stands] using overlap_eq_yes_iff inner u
      | _ => simp [specIsOverlapping, Stands]
  | .inverted inner, .known base ts => by
      cases base with
      | inverted =>
          rcases ts with _ | ⟨u, rest⟩
          · simp [specIsOverlapping, Stands]
          · simpa [specIsOverlapping, Stands] using overlap_eq_yes_iff inner u
      | _ => simp [specIsOverlapping, Stands]
  | .wire inner, .known base ts => by
      cases base with
      | wire =>
          rcases ts with _ | ⟨u, rest⟩
          · simp [specIsOverlapping, Stands]
          · simpa [specIsOverlapping, Stands] using overlap_eq_yes_iff inner u
      | _ => simp [specIsOverlapping, Stands]
  | .unit, .known _ _ => by simp [specIsOverlapping, Stands]
  | .traitSelf, .known _ _ => by simp [specIsOverlapping, Stands]
  | .wildcard, .known _ _ => by simp [specIsOverlapping, Stands]
  | .declared _ _, .unknown _ _ _ | .tuple _, .unknown _ _ _ | .array _ _, .unknown _ _ _
  | .backward _, .unknown _ _ _ | .inverted _, .unknown _ _ _ | .wire _, .unknown _ _ _
  | .unit, .unknown _ _ _ | .traitSelf, .unknown _ _ _ | .wildcard, .unknown _ _ _ => by
      simp [specIsOverlapping, Stands]

theorem expr_overlap_iff : ∀ (e : TypeExpression) (t : TypeVar),
    exprIsOverlapping e t = some .yes ↔ StandsExpr Anything e t
  | .integer val, .known base ts => by
      cases base with
      | integer vval =>
          by_cases hval : val = vval
          · simp [exprIsOverlapping, StandsExpr, hval]
          · simp [exprIsOverlapping, StandsExpr, hval, Ne.symm hval]
      | _ => simp [exprIsOverlapping, StandsExpr]
  | .integer val, .unknown _ _ _ => by simp [exprIsOverlapping, StandsExpr]
  | .typeSpec s, t => by
      rw [exprIsOverlapping, StandsExpr]
      exact overlap_eq_yes_iff s t
  | .constGeneric g, t => by simp [exprIsOverlapping, StandsExpr]

theorem specs_overlap_iff : ∀ (specs : List TypeSpec) (ts : List TypeVar),
    specs.length = ts.length ∧ specsOverlap specs ts = some .yes ↔ StandSpecs Anything specs ts
  | [], [] => by simp [specsOverlap, StandSpecs]
  | [], _ :: _ => by simp [StandSpecs]
  | _ :: _, [] => by simp [StandSpecs]
  | s :: specs, t :: ts => by
      have hs := overlap_eq_yes_iff s t
      have hspecs := specs_overlap_iff specs ts
      simp [specsOverlap, StandSpecs, andThen_eq_yes, ← hs, ← hspecs, and_left_comm]

theorem exprs_overlap_iff : ∀ (es : List TypeExpression) (ts : List TypeVar),
    es.length = ts.length ∧ exprsOverlap es ts = some .yes ↔ StandExprs Anything es ts
  | [], [] => by simp [exprsOverlap, StandExprs]
  | [], _ :: _ => by simp [StandExprs]
  | _ :: _, [] => by simp [StandExprs]
  | e :: es, t :: ts => by
      have he := expr_overlap_iff e t
      have hes := exprs_overlap_iff es ts
      simp [exprsOverlap, StandExprs, andThen_eq_yes, ← he, ← hes, and_left_comm]

end

/-! ### Negative answers -/

theorem Overlap.and_eq_no {o o' : Overlap} (h : o.and o' = .no) : o = .no ∨ o' = .no := by
  cases o with
  | yes => exact .inr h
  | no => exact .inl rfl
  | maybe => exact nomatch h

theorem andThen_eq_no {o o' : Option Overlap} (h : andThen o o' = some .no) :
    o = some .no ∨ o' = some .no := by
  rcases o with _ | _ | _ | _
  · exact absurd h (by simp [andThen])
  · exact .inr h
  · exact .inl rfl
  · exact absurd h (by simp [andThen])

section

variable {R : NameID → TypeVar → Prop} {c : Completion}

mutual

/-- After `no`, nothing at the places of the generics makes a completion from the target. -/
theorem not_stands_of_no : ∀ (spec : TypeSpec) (t : TypeVar),
    specIsOverlapping spec t = some .no → ¬ Stands R spec (t.fill c)
  | .generic name, t, h => by simp [specIsOverlapping] at h
  | .declared name params, .known base ts, h => by
      rw [TypeVar.fill, Stands]
      rintro ⟨us, heq, hstand⟩
      obtain ⟨rfl, rfl⟩ := TypeVar.known.inj heq
      have hno : (if params.length = ts.length then exprsOverlap params ts else some .no) =
          some .no := by simpa [specIsOverlapping] using h
      exact not_standExprs_of_no params ts hno hstand
  | .tuple inner, .known base ts, h => by
      rw [TypeVar.fill, Stands]
      rintro ⟨us, heq, hstand⟩
      obtain ⟨rfl, rfl⟩ := TypeVar.known.inj heq
      exact not_standSpecs_of_no inner ts h hstand
  | .array inner size, .known base ts, h => by
      rw [TypeVar.fill, Stands]
      rintro ⟨u, v, rest, heq, hinner, hsize⟩
      obtain ⟨rfl, hts⟩ := TypeVar.known.inj heq
      rcases ts with _ | ⟨t, _ | ⟨t', ts⟩⟩
      · exact absurd hts (by simp [TypeVar.fillAll])
      · exact absurd hts (by simp [TypeVar.fillAll])
      · obtain ⟨rfl, hrest⟩ := List.cons.inj hts
        obtain ⟨rfl, -⟩ := List.cons.inj hrest
        obtain ⟨o, ho, o', ho', hand⟩ :
            ∃ o, specIsOverlapping inner t = some o ∧ ∃ o', exprIsOverlapping size t' = some o' ∧
              o.and o' = .no := by
          simpa [specIsOverlapping, Option.bind_eq_some_iff] using h
        rcases Overlap.and_eq_no hand with rfl | rfl
        · exact not_stands_of_no inner t ho hinner
        · exact not_standsExpr_of_no size t' ho' hsize
  | .backward inner, .known base ts, h => by
      rw [TypeVar.fill, Stands]
      rintro ⟨u, rest, heq, hinner⟩
      obtain ⟨rfl, hts⟩ := TypeVar.known.inj heq
      rcases ts with _ | ⟨t, ts⟩
      · exact absurd hts (by simp [TypeVar.fillAll])
      · obtain ⟨rfl, -⟩ := List.cons.inj hts
        exact not_stands_of_no inner t h hinner
  | .inverted inner, .known base ts, h => by
      rw [TypeVar.fill, Stands]
      rintro ⟨u, rest, heq, hinner⟩
      obtain ⟨rfl, hts⟩ := TypeVar.known.inj heq
      rcases ts with _ | ⟨t, ts⟩
      · exact absurd hts (by simp [TypeVar.fillAll])
      · obtain ⟨rfl, -⟩ := List.cons.inj hts
        exact not_stands_of_no inner t h hinner
  | .wire inner, .known base ts, h => by
      rw [TypeVar.fill, Stands]
      rintro ⟨u, rest, heq, hinner⟩
      obtain ⟨rfl, hts⟩ := TypeVar.known.inj heq
      rcases ts with _ | ⟨t, ts⟩
      · exact absurd hts (by simp [TypeVar.fillAll])
      · obtain ⟨rfl, -⟩ := List.cons.inj hts
        exact not_stands_of_no inner t h hinner
  | .unit, .known _ _, _ => by simp [Stands]
  | .traitSelf, .known _ _, _ => by simp [Stands]
  | .wildcard, .known _ _, _ => by simp [Stands]
  | .declared _ _, .unknown _ _ _, h | .tuple _, .unknown _ _ _, h | .array _ _, .unknown _ _ _, h
  | .backward _, .unknown _ _ _, h | .inverted _, .unknown _ _ _, h | .wire _, .unknown _ _ _, h
  | .unit, .unknown _ _ _, h | .traitSelf, .unknown _ _ _, h | .wildcard, .unknown _ _ _, h => by
      simp [specIsOverlapping] at h

theorem not_standsExpr_of_no : ∀ (e : TypeExpression) (t : TypeVar),
    exprIsOverlapping e t = some .no → ¬ StandsExpr R e (t.fill c)
  | .integer val, .known base ts, h => by
      rw [TypeVar.fill, StandsExpr]
      rintro ⟨rest, heq⟩
      obtain ⟨rfl, -⟩ := TypeVar.known.inj heq
      simp [exprIsOverlapping] at h
  | .integer val, .unknown _ _ _, h => by simp [exprIsOverlapping] at h
  | .typeSpec s, t, h => by
      rw [StandsExpr]
      exact not_stands_of_no s t h
  | .constGeneric g, t, h => by simp [exprIsOverlapping] at h

theorem not_standSpecs_of_no : ∀ (specs : List TypeSpec) (ts : List TypeVar),
    (if specs.length = ts.length then specsOverlap specs ts else some .no) = some .no →
      ¬ StandSpecs R specs (TypeVar.fillAll c ts)
  | [], [], h => by simp [specsOverlap] at h
  | [], _ :: _, _ => by simp [StandSpecs, TypeVar.fillAll]
  | _ :: _, [], _ => by simp [StandSpecs, TypeVar.fillAll]
  | s :: specs, t :: ts, h => by
      rw [TypeVar.fillAll, StandSpecs]
      rintro ⟨u, us, heq, hs, hspecs⟩
      obtain ⟨rfl, rfl⟩ := List.cons.inj heq
      by_cases hlen : specs.length = ts.length
      · have hno : andThen (specIsOverlapping s t) (specsOverlap specs ts) = some .no := by
          simpa [hlen, specsOverlap] using h
        rcases andThen_eq_no hno with hno | hno
        · exact not_stands_of_no s t hno hs
        · exact not_standSpecs_of_no specs ts (by rw [if_pos hlen, hno]) hspecs
      · exact not_standSpecs_of_no specs ts (if_neg hlen) hspecs

theorem not_standExprs_of_no : ∀ (es : List TypeExpression) (ts : List TypeVar),
    (if es.length = ts.length then exprsOverlap es ts else some .no) = some .no →
      ¬ StandExprs R es (TypeVar.fillAll c ts)
  | [], [], h => by simp [exprsOverlap] at h
  | [], _ :: _, _ => by simp [StandExprs, TypeVar.fillAll]
  | _ :: _, [], _ => by simp [StandExprs, TypeVar.fillAll]
  | e :: es, t :: ts, h => by
      rw [TypeVar.fillAll, StandExprs]
      rintro ⟨u, us, heq, he, hes⟩
      obtain ⟨rfl, rfl⟩ := List.cons.inj heq
      by_cases hlen : es.length = ts.length
      · have hno : andThen (exprIsOverlapping e t) (exprsOverlap es ts) = some .no := by
          simpa [hlen, exprsOverlap] using h
        rcases andThen_eq_no hno with hno | hno
        · exact not_standsExpr_of_no e t hno he
        · exact not_standExprs_of_no es ts (by rw [if_pos hlen, hno]) hes
      · exact not_standExprs_of_no es ts (if_neg hlen) hes

end

/-! ### Completions of instances -/

variable {R' : NameID → TypeVar → Prop}

mutual

/-- The completion is made from the completed types. -/
theorem Stands.fill (hR : ∀ name u, R name u → R' name (u.fill c)) :
    ∀ (spec : TypeSpec) {t : TypeVar}, Stands R spec t → Stands R' spec (t.fill c)
  | .generic name, t, h => hR name t h
  | .declared name params, t, h => by
      obtain ⟨ts, rfl, hparams⟩ := h
      exact ⟨_, rfl, StandExprs.fill hR params hparams⟩
  | .tuple inner, t, h => by
      obtain ⟨ts, rfl, hinner⟩ := h
      exact ⟨_, rfl, StandSpecs.fill hR inner hinner⟩
  | .array inner size, t, h => by
      obtain ⟨u, v, rest, rfl, hinner, hsize⟩ := h
      exact ⟨_, _, _, rfl, Stands.fill hR inner hinner, StandsExpr.fill hR size hsize⟩
  | .backward inner, t, h => by
      obtain ⟨u, rest, rfl, hinner⟩ := h
      exact ⟨_, _, rfl, Stands.fill hR inner hinner⟩
  | .inverted inner, t, h => by
      obtain ⟨u, rest, rfl, hinner⟩ := h
      exact ⟨_, _, rfl, Stands.fill hR inner hinner⟩
  | .wire inner, t, h => by
      obtain ⟨u, rest, rfl, hinner⟩ := h
      exact ⟨_, _, rfl, Stands.fill hR inner hinner⟩
  | .unit, _, h | .traitSelf, _, h | .wildcard, _, h => h

theorem StandsExpr.fill (hR : ∀ name u, R name u → R' name (u.fill c)) :
    ∀ (e : TypeExpression) {t : TypeVar}, StandsExpr R e t → StandsExpr R' e (t.fill c)
  | .integer val, t, h => by
      obtain ⟨rest, rfl⟩ := h
      exact ⟨_, rfl⟩
  | .typeSpec s, _, h => Stands.fill hR s h
  | .constGeneric _, _, h => h

theorem StandSpecs.fill (hR : ∀ name u, R name u → R' name (u.fill c)) :
    ∀ (specs : List TypeSpec) {ts : List TypeVar}, StandSpecs R specs ts →
      StandSpecs R' specs (TypeVar.fillAll c ts)
  | [], ts, h => by
      obtain rfl : ts = [] := h
      rfl
  | s :: specs, ts, h => by
      obtain ⟨u, us, rfl, hs, hspecs⟩ := h
      exact ⟨_, _, rfl, Stands.fill hR s hs, StandSpecs.fill hR specs hspecs⟩

theorem StandExprs.fill (hR : ∀ name u, R name u → R' name (u.fill c)) :
    ∀ (es : List TypeExpression) {ts : List TypeVar}, StandExprs R es ts →
      StandExprs R' es (TypeVar.fillAll c ts)
  | [], ts, h => by
      obtain rfl : ts = [] := h
      rfl
  | e :: es, ts, h => by
      obtain ⟨u, us, rfl, he, hes⟩ := h
      exact ⟨_, _, rfl, StandsExpr.fill hR e he, StandExprs.fill hR es hes⟩

end

variable {bound : ℕ}

mutual

/-- A type that is made from the target, the generics apart, is made as its completion is. -/
theorem Stands.unfill (hR : ∀ name u, u.bound ≤ bound → R name (u.fill c) → R' name u) :
    ∀ (spec : TypeSpec) {t : TypeVar}, t.bound ≤ bound →
      Stands Anything spec t → Stands R spec (t.fill c) → Stands R' spec t
  | .generic name, t, hbound, _, h => hR name t hbound h
  | .declared name params, t, hbound, hany, h => by
      obtain ⟨ts, rfl, hparams_any⟩ := hany
      obtain ⟨_, heq, hparams⟩ := h
      obtain ⟨-, rfl⟩ := TypeVar.known.inj heq
      exact ⟨ts, rfl, StandExprs.unfill hR params (Nat.max_le.mp hbound).2 hparams_any hparams⟩
  | .tuple inner, t, hbound, hany, h => by
      obtain ⟨ts, rfl, hinner_any⟩ := hany
      obtain ⟨_, heq, hinner⟩ := h
      obtain ⟨-, rfl⟩ := TypeVar.known.inj heq
      exact ⟨ts, rfl, StandSpecs.unfill hR inner (Nat.max_le.mp hbound).2 hinner_any hinner⟩
  | .array inner size, t, hbound, hany, h => by
      obtain ⟨u, v, rest, rfl, hinner_any, hsize_any⟩ := hany
      obtain ⟨_, _, _, heq, hinner, hsize⟩ := h
      obtain ⟨-, hts⟩ := TypeVar.known.inj heq
      obtain ⟨rfl, hrest⟩ := List.cons.inj hts
      obtain ⟨rfl, -⟩ := List.cons.inj hrest
      obtain ⟨hu, hrest⟩ := Nat.max_le.mp (Nat.max_le.mp hbound).2
      exact ⟨u, v, rest, rfl, Stands.unfill hR inner hu hinner_any hinner,
        StandsExpr.unfill hR size (Nat.max_le.mp hrest).1 hsize_any hsize⟩
  | .backward inner, t, hbound, hany, h => by
      obtain ⟨u, rest, rfl, hinner_any⟩ := hany
      obtain ⟨_, _, heq, hinner⟩ := h
      obtain ⟨rfl, -⟩ := List.cons.inj (TypeVar.known.inj heq).2
      have hu := (Nat.max_le.mp (Nat.max_le.mp hbound).2).1
      exact ⟨u, rest, rfl, Stands.unfill hR inner hu hinner_any hinner⟩
  | .inverted inner, t, hbound, hany, h => by
      obtain ⟨u, rest, rfl, hinner_any⟩ := hany
      obtain ⟨_, _, heq, hinner⟩ := h
      obtain ⟨rfl, -⟩ := List.cons.inj (TypeVar.known.inj heq).2
      have hu := (Nat.max_le.mp (Nat.max_le.mp hbound).2).1
      exact ⟨u, rest, rfl, Stands.unfill hR inner hu hinner_any hinner⟩
  | .wire inner, t, hbound, hany, h => by
      obtain ⟨u, rest, rfl, hinner_any⟩ := hany
      obtain ⟨_, _, heq, hinner⟩ := h
      obtain ⟨rfl, -⟩ := List.cons.inj (TypeVar.known.inj heq).2
      have hu := (Nat.max_le.mp (Nat.max_le.mp hbound).2).1
      exact ⟨u, rest, rfl, Stands.unfill hR inner hu hinner_any hinner⟩
  | .unit, _, _, h, _ | .traitSelf, _, _, h, _ | .wildcard, _, _, h, _ => h

theorem StandsExpr.unfill (hR : ∀ name u, u.bound ≤ bound → R name (u.fill c) → R' name u) :
    ∀ (e : TypeExpression) {t : TypeVar}, t.bound ≤ bound →
      StandsExpr Anything e t → StandsExpr R e (t.fill c) → StandsExpr R' e t
  | .integer _, _, _, h, _ => h
  | .typeSpec s, _, hbound, hany, h => Stands.unfill hR s hbound hany h
  | .constGeneric _, _, _, h, _ => h

theorem StandSpecs.unfill (hR : ∀ name u, u.bound ≤ bound → R name (u.fill c) → R' name u) :
    ∀ (specs : List TypeSpec) {ts : List TypeVar}, TypeVar.bounds ts ≤ bound →
      StandSpecs Anything specs ts → StandSpecs R specs (TypeVar.fillAll c ts) →
        StandSpecs R' specs ts
  | [], _, _, h, _ => h
  | s :: specs, ts, hbound, hany, h => by
      obtain ⟨u, us, rfl, hs_any, hspecs_any⟩ := hany
      obtain ⟨_, _, heq, hs, hspecs⟩ := h
      obtain ⟨rfl, rfl⟩ := List.cons.inj heq
      obtain ⟨hu, hus⟩ := Nat.max_le.mp hbound
      exact ⟨u, us, rfl, Stands.unfill hR s hu hs_any hs,
        StandSpecs.unfill hR specs hus hspecs_any hspecs⟩

theorem StandExprs.unfill (hR : ∀ name u, u.bound ≤ bound → R name (u.fill c) → R' name u) :
    ∀ (es : List TypeExpression) {ts : List TypeVar}, TypeVar.bounds ts ≤ bound →
      StandExprs Anything es ts → StandExprs R es (TypeVar.fillAll c ts) → StandExprs R' es ts
  | [], _, _, h, _ => h
  | e :: es, ts, hbound, hany, h => by
      obtain ⟨u, us, rfl, he_any, hes_any⟩ := hany
      obtain ⟨_, _, heq, he, hes⟩ := h
      obtain ⟨rfl, rfl⟩ := List.cons.inj heq
      obtain ⟨hu, hus⟩ := Nat.max_le.mp hbound
      exact ⟨u, us, rfl, StandsExpr.unfill hR e hu he_any he,
        StandExprs.unfill hR es hus hes_any hes⟩

end

end

/-! ### Answers -/

/-- The type is made from the specification by one type for each generic. -/
def IsInstance (spec : TypeSpec) (t : TypeVar) : Prop :=
  ∃ generics : NameID → TypeKey, Stands (fun name u => u.key = generics name) spec t

/-- What the answers promise. -/
structure AnswersRight (spec : TypeSpec) (t : TypeVar) : Prop where
  yes : specIsOverlapping spec t = some .yes → ∀ c, IsInstance spec (t.fill c)
  no : specIsOverlapping spec t = some .no → ∀ c, ¬ IsInstance spec (t.fill c)

/-- If all but the generics of the target stands in the type, then one type stands at all places of
each generic. -/
def GenericsAgree (spec : TypeSpec) (t : TypeVar) : Prop :=
  Stands Anything spec t → IsInstance spec t

/-- One value for each generic, when all types that it stands for have the same. -/
theorem exists_common {P : NameID → TypeVar → Prop} {f : TypeVar → TypeKey}
    (h : ∀ name u u', P name u → P name u' → f u = f u') :
    ∃ g : NameID → TypeKey, ∀ name u, P name u → f u = g name := by
  have hvalue : ∀ name, ∃ k, ∀ u, P name u → f u = k := by
    intro name
    by_cases hsome : ∃ u, P name u
    · obtain ⟨u, hu⟩ := hsome
      exact ⟨f u, fun u' hu' => h name u' u hu' hu⟩
    · exact ⟨.unknown 0 .any, fun u hu => absurd ⟨u, hu⟩ hsome⟩
  exact ⟨fun name => (hvalue name).choose, fun name => (hvalue name).choose_spec⟩

theorem IsInstance.fill {spec : TypeSpec} {t : TypeVar} (h : IsInstance spec t) (c : Completion) :
    IsInstance spec (t.fill c) := by
  obtain ⟨generics, hstands⟩ := h
  obtain ⟨completed, hcompleted⟩ := @exists_common (fun name u => u.key = generics name)
    (fun u => (u.fill c).key) fun _ _ _ hu hu' => TypeVar.key_fill c (hu.trans hu'.symm)
  exact ⟨completed, Stands.fill hcompleted spec hstands⟩

theorem isInstance_of_separating {spec : TypeSpec} {t : TypeVar} (hany : Stands Anything spec t)
    (h : IsInstance spec (t.fill (separating t.bound))) : IsInstance spec t := by
  obtain ⟨generics, hstands⟩ := h
  obtain ⟨original, horiginal⟩ := @exists_common
    (fun name u => u.bound ≤ t.bound ∧ (u.fill (separating t.bound)).key = generics name)
    TypeVar.key fun _ _ _ hu hu' => key_of_separating hu.1 hu'.1 (hu.2.trans hu'.2.symm)
  exact ⟨original, Stands.unfill (fun name u hbound hu => horiginal name u ⟨hbound, hu⟩) spec le_rfl
    hany hstands⟩

theorem answersRight_iff {spec : TypeSpec} {t : TypeVar} :
    AnswersRight spec t ↔ GenericsAgree spec t := by
  constructor
  · intro h hany
    exact isInstance_of_separating hany (h.yes ((overlap_eq_yes_iff spec t).mpr hany) _)
  · intro h
    constructor
    · intro hyes c
      exact (h ((overlap_eq_yes_iff spec t).mp hyes)).fill c
    · rintro hno c ⟨generics, hstands⟩
      exact not_stands_of_no spec t hno hstands

/-! ### Selection -/

/-- The parts of `ImplBlock` that are read: the methods by their names, and the target. -/
structure ImplBlock where
  fns : String → Option NameID
  target : TypeSpec

/-- The errors of `select_method`. -/
inductive SelectError where
  | genericType
  | cannotHaveMethods (other : TypeVar)
  | noSuchMethod (unmatched : List TypeSpec)
  | multipleCandidates

/-- The methods of the name in the impl blocks, with the targets of the blocks. -/
def candidates (impls : List ImplBlock) (method : String) : List (TypeSpec × NameID) :=
  impls.filterMap fun r => (r.fns method).map fun selected => (r.target, selected)

/-- `select_method`. -/
def selectMethod (traitImpls : NameID → List ImplBlock) (selfType : TypeVar) (method : String) :
    Option (Except SelectError (Option NameID)) :=
  match selfType with
  | .unknown _ _ _ => some (.error .genericType)
  | .known (.named typeName) _ => do
      let answers ← (candidates (traitImpls typeName) method).mapM fun c =>
        (specIsOverlapping c.1 selfType).map fun o => (c, o)
      let matched := answers.filter fun a => a.2 = .yes
      let maybe := answers.filter fun a => a.2 = .maybe
      let unmatched := answers.filter fun a => a.2 = .no
      if !maybe.isEmpty then some (.ok none)
      else
        match matched with
        | [a] => some (.ok (some a.1.2))
        | [] => some (.error (.noSuchMethod (unmatched.map fun a => a.1.1)))
        | _ => some (.error .multipleCandidates)
  | other => some (.error (.cannotHaveMethods other))

/-- No other candidate than the selected one can apply to a completion. -/
def OnlySelected (traitImpls : NameID → List ImplBlock) (t : TypeVar) (method : String)
    (selected : NameID) : Prop :=
  ∃ typeName params before target after, t = .known (.named typeName) params ∧
    candidates (traitImpls typeName) method = before ++ (target, selected) :: after ∧
    ∀ other ∈ before ++ after, ∀ c, ¬ IsInstance other.1 (t.fill c)

/-- The answers are those for the candidates. -/
theorem answers_eq {t : TypeVar} {cs : List (TypeSpec × NameID)}
    {answers : List ((TypeSpec × NameID) × Overlap)}
    (h : cs.mapM (fun c => (specIsOverlapping c.1 t).map fun o => (c, o)) = some answers) :
    cs = answers.map Prod.fst ∧ ∀ a ∈ answers, specIsOverlapping a.1.1 t = some a.2 := by
  have hmap := mapM_eq_some_iff.mp h
  induction hmap with
  | nil => exact ⟨rfl, fun a ha => absurd ha List.not_mem_nil⟩
  | cons hc hcs ih =>
      obtain ⟨o, ho, rfl⟩ := Option.map_eq_some_iff.mp hc
      obtain ⟨heq, hall⟩ := ih (mapM_eq_some_iff.mpr hcs)
      rw [List.forall_mem_cons, List.map_cons, ← heq]
      exact ⟨rfl, ho, hall⟩

theorem selectMethod_only {traitImpls : NameID → List ImplBlock} {t : TypeVar} {method : String}
    {selected : NameID} (h : selectMethod traitImpls t method = some (.ok (some selected))) :
    OnlySelected traitImpls t method selected := by
  unfold selectMethod at h
  split at h
  · exact nomatch h
  · rename_i typeName params
    obtain ⟨answers, hanswers, hselect⟩ := Option.bind_eq_some_iff.mp h
    obtain ⟨hcandidates, hoverlap⟩ := answers_eq hanswers
    dsimp only at hselect
    split_ifs at hselect with hmaybe
    · exact nomatch hselect
    split at hselect
    · rename_i a hmatched
      obtain ⟨before, after, rfl, hbefore, -, hafter⟩ := List.filter_eq_cons_iff.mp hmatched
      obtain rfl : a.1.2 = selected := by simpa using hselect
      refine ⟨typeName, params, before.map Prod.fst, a.1.1, after.map Prod.fst, rfl, ?_, ?_⟩
      · rw [hcandidates, List.map_append, List.map_cons]
      · rw [← List.map_append, List.forall_mem_map]
        rintro b hb c ⟨generics, hstands⟩
        -- Neither `yes`, because one candidate is selected, nor `maybe`.
        have hmem : b ∈ before ++ a :: after := by
          rcases List.mem_append.mp hb with hb | hb
          · exact List.mem_append_left _ hb
          · exact List.mem_append_right _ (List.mem_cons_of_mem a hb)
        refine not_stands_of_no b.1.1 _ ((hoverlap b hmem).trans ?_) hstands
        congr 1
        cases hb_overlap : b.2 with
        | no => rfl
        | yes =>
            exfalso
            rcases List.mem_append.mp hb with hb | hb
            · exact hbefore b hb (decide_eq_true hb_overlap)
            · have := List.filter_eq_nil_iff.mp hafter b hb
              exact this (decide_eq_true hb_overlap)
        | maybe =>
            exfalso
            rw [Bool.not_eq_true, Bool.not_eq_false', List.isEmpty_iff] at hmaybe
            exact List.filter_eq_nil_iff.mp hmaybe b hmem (decide_eq_true hb_overlap)
    · exact nomatch hselect
    · exact nomatch hselect
  · exact nomatch h

theorem methodResolution_right_iff (spec : TypeSpec) (t : TypeVar) :
    (AnswersRight spec t ∧ ∀ traitImpls method selected,
      selectMethod traitImpls t method = some (.ok (some selected)) →
        OnlySelected traitImpls t method selected) ↔ GenericsAgree spec t := by
  rw [← answersRight_iff]
  exact and_iff_left fun _ _ _ h => selectMethod_only h

/-- A target of the form `Pair<T, T>`. -/
def pairOfSame : TypeSpec :=
  .declared ⟨0, "Pair"⟩ [.typeSpec (.generic ⟨1, "T"⟩), .typeSpec (.generic ⟨1, "T"⟩)]

/-- The type `Pair<bool, clock>`. -/
def pairOfDifferent : TypeVar :=
  .known (.named ⟨0, "Pair"⟩) [.known (.named ⟨2, "bool"⟩) [], .known (.named ⟨3, "clock"⟩) []]

/-- A generic that stands twice in the target matches two different types. -/
theorem pairOfDifferent_not_right : ¬ AnswersRight pairOfSame pairOfDifferent := by
  intro h
  obtain ⟨generics, ts, hts, u, us, rfl, hu, v, vs, rfl, hv, -⟩ := h.yes rfl (separating 0)
  obtain ⟨rfl, hrest⟩ := List.cons.inj (TypeVar.known.inj hts).2
  obtain ⟨rfl, -⟩ := List.cons.inj hrest
  have hkey : (2 : ℕ) = 3 :=
    (NameID.mk.inj (KnownType.named.inj (TypeKey.known.inj (hu.trans hv.symm)).1)).1
  exact absurd hkey (by decide)

end Spade.Typeinference

import Mathlib.Algebra.BigOperators.Group.Finset.Basic
import Mathlib.Algebra.Order.BigOperators.Group.Finset
import Mathlib.Algebra.Order.Floor.Ring
import Mathlib.Data.Rat.Floor
import Mathlib.Tactic.Ring
import Mathlib.Tactic.FieldSimp
import Spade.WordlengthInference.Range

/-!
# Affine arithmetic

The affine analysis of the word length inference: an equation becomes a constant and noise terms
between minus one and one, so that a variable keeps its noise term wherever it occurs.
-/

namespace Spade.WordlengthInference

/-- How the inference ends without ranges. -/
inductive Failure where
  | panic
  | wordlengthMismatch (typechecked inferred : ℕ) (inferredAt : Var)
deriving DecidableEq

/-- The terms of an affine form: the noise of a variable of the program, noise that was generated,
and the constant, which has none. -/
inductive AffineVar where
  | var (v : Var)
  | gen (id : ℕ)
  | const
deriving DecidableEq

/-- A map from terms to coefficients, with zero for the terms that it does not have. -/
structure AAForm where
  vars : Finset AffineVar
  coeff : AffineVar → ℚ
  coeff_eq_zero : ∀ i ∉ vars, coeff i = 0

structure RadAndMid where
  rad : ℚ
  mid : ℚ

def rangeHelper (r : Range) : RadAndMid :=
  let mid := ((r.hi : ℚ) + r.lo) / 2
  { rad := max (mid - r.lo) (r.hi - mid), mid := mid }

/-- The integer part, towards zero. -/
def toInteger (q : ℚ) : ℤ := q.num.tdiv q.den

/-- Computations that generate noise terms and may panic. -/
abbrev Tracked := StateT ℕ (Except Failure)

namespace AAForm

/-- The middle of a range and its radius, as the coefficient of one noise term. -/
def ofRange (i : AffineVar) (r : Range) : AAForm where
  vars := {.const, i}
  coeff j := if j = i then (rangeHelper r).rad else if j = .const then (rangeHelper r).mid else 0
  coeff_eq_zero := by
    intro j hj
    rw [Finset.mem_insert, Finset.mem_singleton, not_or] at hj
    rw [if_neg hj.2, if_neg hj.1]

def newVar : Tracked AffineVar := fun id => .ok (.gen id, id + 1)

def fromRange (r : Range) : Tracked AAForm := do
  let newVar ← newVar
  return ofRange newVar r

def fromVar (v : Var) (r : Range) : AAForm := ofRange (.var v) r

def rad (f : AAForm) : ℚ := ∑ i ∈ f.vars, if i = .const then 0 else |f.coeff i|

def mid (f : AAForm) : ℚ := f.coeff .const

/-- `alpha * x + beta * y + gamma`, and the noise term `d` with the coefficient `delta`. -/
def combine (x y : AAForm) (alpha beta gamma delta : ℚ) (d : AffineVar) : AAForm where
  vars := insert d (x.vars ∪ y.vars)
  coeff i :=
    if i = d then delta
    else if i ∈ x.vars ∪ y.vars then
      alpha * x.coeff i + beta * y.coeff i + if i = .const then gamma else 0
    else 0
  coeff_eq_zero := by
    intro i hi
    rw [Finset.mem_insert, not_or] at hi
    rw [if_neg hi.1, if_neg hi.2]

def affine (x y : AAForm) (alpha beta gamma delta : ℚ) : Tracked AAForm := do
  let d ← newVar
  return combine x y alpha beta gamma delta d

/-- The integers between the ends of a form. -/
def ends (f : AAForm) : Range := .new (toInteger (f.mid - f.rad)) (toInteger (f.mid + f.rad))

def bitManip (f : AAForm) : Tracked AAForm :=
  match f.ends.bitManip with
  | some bits => fromRange bits
  | none => throw .panic

def mul (f other : AAForm) : Tracked AAForm :=
  let x0 := f.mid
  let y0 := other.mid
  let p := rangeHelper ((Range.new ⌈x0⌉ ⌈x0⌉).mul (.new ⌈y0⌉ ⌈y0⌉))
  let gamma := -p.mid
  let delta := f.rad * other.rad + p.rad
  affine f other y0 x0 gamma delta

def add (f other : AAForm) : AAForm where
  vars := f.vars ∪ other.vars
  coeff i := f.coeff i + other.coeff i
  coeff_eq_zero := by
    intro i hi
    rw [Finset.mem_union, not_or] at hi
    rw [f.coeff_eq_zero i hi.1, other.coeff_eq_zero i hi.2, add_zero]

def union (f other : AAForm) : Tracked AAForm := fromRange (f.ends.union other.ends)

def neg (f : AAForm) : AAForm where
  vars := f.vars
  coeff i := -f.coeff i
  coeff_eq_zero := by
    intro i hi
    rw [f.coeff_eq_zero i hi, neg_zero]

end AAForm

/-- An operation on the form of an equation, if it has one. -/
def withForm (x : Tracked (Option AAForm)) (op : AAForm → Tracked AAForm) :
    Tracked (Option AAForm) := do
  match ← x with
  | some a => return some (← op a)
  | none => return none

/-- An operation on the forms of two equations, if both have one. -/
def withForms (x y : Tracked (Option AAForm)) (op : AAForm → AAForm → Tracked AAForm) :
    Tracked (Option AAForm) := do
  match ← x, ← y with
  | some a, some b => return some (← op a b)
  | _, _ => return none

def evaluateAa (known : Known) : Equation → Tracked (Option AAForm)
  | .v var => return (known.lookup var).map (AAForm.fromVar var)
  | .constant r => return some (← AAForm.fromRange r)
  | .add a b => withForms (evaluateAa known a) (evaluateAa known b) fun a b => return a.add b
  | .sub a b => withForms (evaluateAa known a) (evaluateAa known b) fun a b => return a.add b.neg
  | .mul a b => withForms (evaluateAa known a) (evaluateAa known b) AAForm.mul
  | .neg a => withForm (evaluateAa known a) fun a => return a.neg
  | .bitManpi a => withForm (evaluateAa known a) AAForm.bitManip
  | .bitManipMax a b => withForms (evaluateAa known a) (evaluateAa known b) fun a b => do
    let b ← b.bitManip
    (← a.bitManip).union b
  | .union a b => withForms (evaluateAa known a) (evaluateAa known b) AAForm.union

/-- The range of an equation by affine arithmetic. -/
def evaluateAaAndSimplifyToRange (known : Known) (body : Equation) :
    Except Failure (Option Range) :=
  match evaluateAa known body 0 with
  | .error e => .error e
  | .ok (some aaExpr, _) =>
    .ok (some (.new ⌊aaExpr.mid - aaExpr.rad⌋ ⌈aaExpr.mid + aaExpr.rad⌉))
  | .ok (none, _) => .ok none

end Spade.WordlengthInference

import Spade.HirLowering.Patterns

/-!
# The usefulness of patterns

The algorithm of `spade-hir-lowering/src/usefulness.rs`, which finds out whether a pattern matches
a value that no pattern of a matrix matches. Its recursion is bounded by fuel, and a step is `none`
where the source panics.
-/

namespace Spade.HirLowering

/-- `PatStack`. -/
abbrev PatStack := List DeconstructedPattern

/-- `PatStack::pop_head`. -/
def PatStack.popHead (ctor : Constructor) : PatStack → Option PatStack
  | [] => none
  | head :: rest => do some ((← head.specialize ctor) ++ rest)

/-- `Matrix`: the rows of patterns. -/
abbrev Matrix := List PatStack

/-- `Matrix::specialize`. -/
def Matrix.specialize (ctor : Constructor) : Matrix → Option Matrix
  | [] => some []
  | row :: rows => do
      let head ← row.head?
      let covered ← ctor.isCoveredBy head.ctor
      let result ← Matrix.specialize ctor rows
      if covered then some ((← row.popHead ctor) :: result) else some result

/-- `Witness`. -/
abbrev Witness := List DeconstructedPattern

/-- `Witness::apply_constructor`. -/
def Witness.applyConstructor (ctor : Constructor) (ty : ConcreteType) (w : Witness) :
    Option Witness := do
  let arity ← ctor.arity ty
  if w.length < arity then none
  else some (w.take (w.length - arity) ++ [.mk ctor (w.drop (w.length - arity)).reverse ty])

/-- The witnesses that a witness becomes in `Usefulness::apply_constructor`: one for every missing
constructor. -/
def Witness.applyConstructors (ctor : Constructor) (ty : ConcreteType) (w : Witness) :
    Option (List Witness) :=
  match ctor with
  | .missing allMissing => allMissing.mapM fun ctor => w.applyConstructor ctor ty
  | other => do some [← w.applyConstructor other ty]

/-- `Usefulness`. -/
structure Usefulness where
  witnesses : List Witness

namespace Usefulness

/-- `Usefulness::new_useful`. -/
def newUseful : Usefulness := ⟨[[]]⟩

/-- `Usefulness::new_useless`. -/
def newUseless : Usefulness := ⟨[]⟩

/-- `Usefulness::is_useful`. -/
def isUseful (u : Usefulness) : Bool := !u.witnesses.isEmpty

/-- `Usefulness::apply_constructor`. -/
def applyConstructor (ctor : Constructor) (ty : ConcreteType) (u : Usefulness) :
    Option Usefulness :=
  if u.witnesses.isEmpty then some u
  else do
    let witnesses ← u.witnesses.mapM (Witness.applyConstructors ctor ty)
    some ⟨witnesses.flatten⟩

/-- `Usefulness::extend`. -/
def extend (u other : Usefulness) : Usefulness :=
  match u.witnesses.isEmpty, other.witnesses.isEmpty with
  | _, true => u
  | true, _ => other
  | _, _ => ⟨u.witnesses ++ other.witnesses⟩

end Usefulness

/-- The loop of `is_useful` over the constructors, with the recursive call as a parameter. -/
def usefulCtors (recurse : PatStack → Matrix → Option Usefulness) (pattern : PatStack)
    (prevPatterns : Matrix) (ty : ConcreteType) : List Constructor → Usefulness →
    Option Usefulness
  | [], ret => some ret
  | ctor :: ctors, ret => do
      let usefulness ← recurse (← pattern.popHead ctor) (← prevPatterns.specialize ctor)
      usefulCtors recurse pattern prevPatterns ty ctors
        (ret.extend (← usefulness.applyConstructor ctor ty))

/-- `is_useful`. -/
def isUseful : ℕ → PatStack → Matrix → Option Usefulness
  | 0, _, _ => none
  | _ + 1, [], prevPatterns =>
      some (if prevPatterns.isEmpty then .newUseful else .newUseless)
  | fuel + 1, head :: rest, prevPatterns => do
      let heads ← prevPatterns.mapM List.head?
      let ctors ← head.ctor.split head.ty (heads.map DeconstructedPattern.ctor)
      usefulCtors (isUseful fuel) (head :: rest) prevPatterns head.ty ctors .newUseless

end Spade.HirLowering

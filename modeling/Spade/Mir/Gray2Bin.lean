import Spade.Stdlib.Cdc
import Spade.Mir.Codegen

/-!
# The block emitted for `gray_to_bin`

`Operator::Gray2Bin` in `forward_expression_code` of `spade-mir/src/codegen/mod.rs`, which becomes a
list of assignments to single bits, and the run of that list.

* **One pass** (`Gray2Bin.run_code`): the assignments leave the bits of the number whose code the
  operand is.
* **Inverse** (`Gray2Bin.invertsBinToGray_iff`): from two bits on, and as long as the width fits a
  `u128`, the block inverts `bin_to_gray`. With one bit the number of assignments after the first is
  computed below zero.
-/

namespace Spade.Mir

namespace Gray2Bin

/-! ### The assignments -/

/-- An assignment of the block for the operand `op` of the binding `name`. -/
inductive BitAssignment where
  /-- `name[n] = op[n];` -/
  | first (n : ℕ)
  /-- `name[n] = op[n] ^ name[above];` -/
  | rest (n above : ℕ)
  deriving DecidableEq, Repr

/-- The bit of the result it assigns. -/
def BitAssignment.target : BitAssignment → ℕ
  | .first n => n
  | .rest n _ => n

/-- The bits of the result it reads. -/
def BitAssignment.reads : BitAssignment → List ℕ
  | .first _ => []
  | .rest _ above => [above]

/-- `BigUint::to_u128`. -/
def toU128 (n : ℕ) : Option ℕ := if n < 2 ^ 128 then some n else none

/-- The assignments of `Operator::Gray2Bin`, in order. -/
def code (numBits : ℕ) : Option (List BitAssignment) := do
  let numBits ← toU128 numBits
  let first := BitAssignment.first (← checkedSub numBits 1)
  let last ← checkedSub numBits 2
  let rest := (List.range (last + 1)).map fun i =>
    let n := last - i
    BitAssignment.rest n (n + 1)
  some (first :: rest)

/-! ### Runs of the block -/

variable {w : ℕ}

/-- An assignment on the bits of the result assigned so far: `none` if it reads a bit that has no
value yet or names one outside the `w` declared ones. -/
def BitAssignment.exec (op : BitVec w) (bits : ℕ → Option Bool) :
    BitAssignment → Option (ℕ → Option Bool)
  | .first n => if n < w then some (Function.update bits n (some (op.getLsbD n))) else none
  | .rest n above => do
      let aboveBit ← bits above
      if n < w then some (Function.update bits n (some (op.getLsbD n ^^ aboveBit))) else none

theorem BitAssignment.exec_first {op : BitVec w} {bits : ℕ → Option Bool} {n : ℕ} {b : Bool}
    (hn : n < w) (hb : op.getLsbD n = b) :
    BitAssignment.exec op bits (.first n) = some (Function.update bits n (some b)) := by
  rw [BitAssignment.exec, if_pos hn, hb]

theorem BitAssignment.exec_rest {op : BitVec w} {bits : ℕ → Option Bool} {n above : ℕ} {a b : Bool}
    (hn : n < w) (ha : bits above = some a) (hb : (op.getLsbD n ^^ a) = b) :
    BitAssignment.exec op bits (.rest n above) = some (Function.update bits n (some b)) := by
  rw [BitAssignment.exec, ha, Option.bind_eq_bind, Option.bind_some, if_pos hn, hb]

/-- The word of the lowest `w` bits, if all of them are assigned. -/
def assignedWord (bits : ℕ → Option Bool) : (w : ℕ) → Option (BitVec w)
  | 0 => some 0#0
  | w + 1 => do
      let bit ← bits w
      let word ← assignedWord bits w
      some (word.cons bit)

/-- What the assignments, executed in order, give the result. -/
def run (op : BitVec w) (assignments : List BitAssignment) : Option (BitVec w) := do
  let bits ← assignments.foldlM (BitAssignment.exec op) fun _ => none
  assignedWord bits w

/-- Every bit of the result is assigned exactly once. -/
def AssignsOnce (w : ℕ) (assignments : List BitAssignment) : Prop :=
  (assignments.map BitAssignment.target).Perm (List.range w)

/-- Every assignment reads bits only that an earlier one has assigned. -/
def AssignsBeforeReads (assignments : List BitAssignment) : Prop :=
  ∀ before a after, assignments = before ++ a :: after →
    ∀ i ∈ a.reads, i ∈ before.map BitAssignment.target

/-- Code generation for `Gray2Bin` with `num_bits = w` succeeds, with a block that undoes
`bin_to_gray` and is undone by it; the codes of neighbouring numbers differ in one bit. -/
structure InvertsBinToGray (w : ℕ) : Prop where
  emitted : ∃ assignments, code w = some assignments ∧ AssignsOnce w assignments ∧
    AssignsBeforeReads assignments ∧
    (∀ x : BitVec w, run (Stdlib.binToGray x) assignments = some x) ∧
    ∀ y : BitVec w, ∃ x, run y assignments = some x ∧ Stdlib.binToGray x = y
  neighbours : ∀ x : BitVec w,
    ∃! i, (Stdlib.binToGray x).getLsbD i ≠ (Stdlib.binToGray (x + 1#w)).getLsbD i

/-! ### The chain from the top bit -/

/-- The assignments to the lowest `n` bits, from the top one on. -/
def chain : ℕ → List BitAssignment
  | 0 => []
  | n + 1 => .rest n (n + 1) :: chain n

theorem map_range_eq_chain (n : ℕ) :
    ((List.range (n + 1)).map fun i => BitAssignment.rest (n - i) (n - i + 1)) = chain (n + 1) := by
  induction n with
  | zero => rfl
  | succ n ih =>
      rw [List.range_succ_eq_map, List.map_cons, List.map_map, chain, ← ih]
      congr 1
      exact List.map_congr_left fun i _ => by simp [Nat.add_sub_add_right]

theorem code_eq (hw : w + 2 < 2 ^ 128) : code (w + 2) = some (.first (w + 1) :: chain (w + 1)) := by
  have hfits : toU128 (w + 2) = some (w + 2) := if_pos hw
  have hfirst : checkedSub (w + 2) 1 = some (w + 1) := checkedSub_of_le (by omega)
  have hlast : checkedSub (w + 2) 2 = some w := checkedSub_of_le (by omega)
  rw [← map_range_eq_chain]
  simp [code, hfits, hfirst, hlast]

theorem exists_of_code_eq_some {assignments : List BitAssignment} (h : code w = some assignments) :
    2 ≤ w ∧ w < 2 ^ 128 := by
  simp only [code, toU128, Option.bind_eq_bind, Option.bind_eq_some_iff,
    Option.ite_none_right_eq_some, checkedSub_eq_some_iff] at h
  obtain ⟨n, ⟨hn, hw⟩, _, _, _, ⟨hle, _⟩, _⟩ := h
  obtain rfl : w = n := Option.some.inj hw
  exact ⟨hle, hn⟩

theorem target_chain (n : ℕ) : (chain n).map BitAssignment.target = (List.range n).reverse := by
  induction n with
  | zero => rfl
  | succ n ih => rw [chain, List.map_cons, ih, List.range_succ, List.reverse_concat]; rfl

/-- A split of a chain is at some bit, and all bits above it are assigned before the split. -/
theorem chain_split {n : ℕ} {before after : List BitAssignment} {a : BitAssignment}
    (h : chain n = before ++ a :: after) :
    ∃ i < n, a = .rest i (i + 1) ∧ ∀ j, i < j → j < n → j ∈ before.map BitAssignment.target := by
  induction n generalizing before with
  | zero => simp [chain] at h
  | succ n ih =>
      rcases before with _ | ⟨b, before⟩
      · obtain ⟨rfl, _⟩ := List.cons.inj h
        exact ⟨n, Nat.lt_succ_self n, rfl, fun j hlo hhi => by omega⟩
      · obtain ⟨rfl, htail⟩ := List.cons.inj h
        obtain ⟨i, hi, ha, hall⟩ := ih htail
        refine ⟨i, Nat.lt_succ_of_lt hi, ha, fun j hlo hhi => ?_⟩
        rcases Nat.lt_succ_iff_lt_or_eq.mp hhi with hj | rfl
        · exact List.mem_cons_of_mem _ (hall j hlo hj)
        · exact List.mem_cons_self

theorem assignsOnce_chain (n : ℕ) : AssignsOnce (n + 1) (.first n :: chain n) := by
  rw [AssignsOnce, List.map_cons, target_chain, List.range_succ]
  exact ((List.reverse_perm _).cons n).trans (List.perm_append_singleton n _).symm

theorem assignsBeforeReads_chain (n : ℕ) : AssignsBeforeReads (.first n :: chain n) := by
  intro before a after h i hi
  rcases before with _ | ⟨b, before⟩
  · obtain ⟨rfl, _⟩ := List.cons.inj h
    exact absurd hi List.not_mem_nil
  · obtain ⟨rfl, htail⟩ := List.cons.inj h
    obtain ⟨j, hj, rfl, hall⟩ := chain_split htail
    obtain rfl : i = j + 1 := List.mem_singleton.mp hi
    rcases Nat.lt_or_ge (j + 1) n with hlt | hge
    · exact List.mem_cons_of_mem _ (hall (j + 1) (Nat.lt_succ_self j) hlt)
    · obtain rfl : j + 1 = n := by omega
      exact List.mem_cons_self

/-! ### What the block computes -/

/-- The bits of `x` from bit `n` up are assigned, and no others. -/
def AssignedAbove (n : ℕ) (x : BitVec w) (bits : ℕ → Option Bool) : Prop :=
  ∀ i, bits i = if n ≤ i ∧ i < w then some (x.getLsbD i) else none

theorem AssignedAbove.update {n : ℕ} {x : BitVec w} {bits : ℕ → Option Bool}
    (h : AssignedAbove (n + 1) x bits) (hn : n < w) :
    AssignedAbove n x (Function.update bits n (some (x.getLsbD n))) := by
  intro i
  by_cases hi : i = n
  · subst hi
    rw [Function.update_self, if_pos ⟨le_refl i, hn⟩]
  · rw [Function.update_of_ne hi, h i]
    exact if_congr (by omega) rfl rfl

/-- A chain over the code of a number turns the bits above it into all bits. -/
theorem foldlM_chain {n : ℕ} {x : BitVec w} {bits : ℕ → Option Bool} (hn : n < w)
    (h : AssignedAbove n x bits) :
    ∃ bits', (chain n).foldlM (BitAssignment.exec (Stdlib.binToGray x)) bits = some bits' ∧
      AssignedAbove 0 x bits' := by
  induction n generalizing bits with
  | zero => exact ⟨bits, rfl, h⟩
  | succ n ih =>
      have habove : bits (n + 1) = some (x.getLsbD (n + 1)) := by
        rw [h, if_pos ⟨le_refl _, hn⟩]
      have hbit : ((Stdlib.binToGray x).getLsbD n ^^ x.getLsbD (n + 1)) = x.getLsbD n := by
        rw [Stdlib.binToGray, GrayCode.encode_getLsbD, Bool.xor_comm, ← Bool.xor_assoc,
          Bool.xor_self, Bool.false_xor]
      have hexec : BitAssignment.exec (Stdlib.binToGray x) bits (.rest n (n + 1)) =
          some (Function.update bits n (some (x.getLsbD n))) :=
        BitAssignment.exec_rest (Nat.lt_of_succ_lt hn) habove hbit
      obtain ⟨bits', hrun, hall⟩ := ih (Nat.lt_of_succ_lt hn) (h.update (Nat.lt_of_succ_lt hn))
      refine ⟨bits', ?_, hall⟩
      rw [chain, List.foldlM_cons, hexec]
      exact hrun

theorem assignedWord_eq {bits : ℕ → Option Bool} {x : BitVec w}
    (h : ∀ i < w, bits i = some (x.getLsbD i)) : assignedWord bits w = some x := by
  induction w with
  | zero => exact congrArg some (Subsingleton.elim _ _)
  | succ w ih =>
      have hlow : assignedWord bits w = some (x.setWidth w) := by
        refine ih fun i hi => ?_
        rw [h i (Nat.lt_succ_of_lt hi), BitVec.getLsbD_setWidth, decide_eq_true hi, Bool.true_and]
      have htop : bits w = some x.msb := by
        rw [h w (Nat.lt_succ_self w), BitVec.msb_eq_getLsbD_last, Nat.add_sub_cancel]
      rw [assignedWord, htop, hlow]
      exact congrArg some (BitVec.cons_msb_setWidth x)

/-- **One pass.** The block reads the number off its code. -/
theorem run_code {n : ℕ} (x : BitVec (n + 1)) :
    run (Stdlib.binToGray x) (.first n :: chain n) = some x := by
  have htop : (Stdlib.binToGray x).getLsbD n = x.getLsbD n := by
    rw [Stdlib.binToGray, GrayCode.encode_getLsbD, BitVec.getLsbD_of_ge x (n + 1) (le_refl _),
      Bool.false_xor]
  have hfirst : AssignedAbove n x (Function.update (fun _ => none) n (some (x.getLsbD n))) :=
    AssignedAbove.update (fun i => by rw [if_neg (by omega)]) (Nat.lt_succ_self n)
  obtain ⟨bits, hrun, hall⟩ := foldlM_chain (Nat.lt_succ_self n) hfirst
  have hexec : BitAssignment.exec (Stdlib.binToGray x) (fun _ => none) (.first n) =
      some (Function.update (fun _ => none) n (some (x.getLsbD n))) :=
    BitAssignment.exec_first (Nat.lt_succ_self n) htop
  rw [run, List.foldlM_cons, hexec, Option.bind_eq_bind, Option.bind_eq_bind, Option.bind_some,
    hrun, Option.bind_some]
  exact assignedWord_eq fun i hi => by rw [hall, if_pos ⟨Nat.zero_le i, hi⟩]

/-! ### When the block inverts the code -/

theorem invertsBinToGray_of_code {n : ℕ} (h : code (n + 1) = some (.first n :: chain n)) :
    InvertsBinToGray (n + 1) where
  emitted := ⟨_, h, assignsOnce_chain n, assignsBeforeReads_chain n, run_code, fun y =>
    ⟨GrayCode.decode y, by
      have hrun := run_code (GrayCode.decode y)
      rwa [Stdlib.binToGray, GrayCode.encode_decode] at hrun, GrayCode.encode_decode y⟩⟩
  neighbours := GrayCode.existsUnique_ne_encode_succ n.succ_pos

/-- **Inverse.** The block is emitted and inverts `bin_to_gray` at the widths from two on that fit
a `u128`. -/
theorem invertsBinToGray_iff (w : ℕ) : InvertsBinToGray w ↔ 2 ≤ w ∧ w < 2 ^ 128 := by
  constructor
  · rintro ⟨⟨assignments, hcode, _⟩, _⟩
    exact exists_of_code_eq_some hcode
  · rintro ⟨htwo, hlt⟩
    obtain ⟨n, rfl⟩ := Nat.exists_eq_add_of_le' htwo
    exact invertsBinToGray_of_code (code_eq hlt)

/-- For the code of one bit there is no block: `num_bits - 2` underflows. -/
theorem not_invertsBinToGray_bit : code 1 = none ∧ ¬InvertsBinToGray 1 := by
  have hcode : code 1 = none := by decide
  refine ⟨hcode, ?_⟩
  rintro ⟨⟨assignments, hsome, _⟩, _⟩
  exact absurd (hcode.symm.trans hsome) nofun

example : run (Stdlib.binToGray 0b1101#4) ((code 4).getD []) = some 0b1101#4 := by decide

end Gray2Bin

end Spade.Mir

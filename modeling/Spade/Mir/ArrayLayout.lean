import Spade.Lib.BitPositions
import Spade.Mir.TupleLayout

/-!
# Arrays in both directions

The Verilog that `forward_expression_code` and `backward_expression_code` emit for the operators
`ConstructArray`, `IndexArray` and `RangeIndexArray`, as the assignments of `statement_code`.

* **Elements** (`slice_elements`): the first element of an array is at its least significant end.
* **Access** (`forward_eval`, `backward_assigns`): the forward code of an access reads the bits of
  the accessed elements; its backward code assigns them when one element or the whole array is
  accessed.
-/

namespace Spade.Mir

open Verilog

variable {ν : Type}

/-! ### Emitted code -/

/-- `Operator::ConstructArray` in `forward_expression_code`. -/
def constructArrayCode (ops : List ν) : Expr (Net ν) :=
  .concat (ops.reverse.map fun op => .ident (.fwd op))

/-- `Operator::ConstructArray` in `backward_expression_code`. -/
def constructArrayBackward (ops : List ν) : Expr (Net ν) :=
  .concat (ops.reverse.map fun op => .ident (.back op))

/-- `Operator::IndexArray` in `backward_expression_code`. -/
def indexArrayBackward (selfType : Ty) (op index : ν) : Expr (Net ν) :=
  let memberSize := selfType.backwardSize
  if memberSize = 1 then .bitAt (.back op) (.fwd index)
  else .partAt (.back op) (.fwd index) memberSize memberSize

/-- `Operator::RangeIndexArray` in `forward_expression_code`. -/
def rangeIndexArrayCode (start endExclusive : ℕ) (selfType : Ty) (op : ν) :
    Option (Expr (Net ν)) := do
  let memberSize ← match selfType with
    | .array inner _ => some inner.size
    | _ => none
  let numElems ← checkedSub endExclusive start
  if memberSize = 1 ∧ numElems = 1 then some (.bit (.fwd op) start)
  else
    let endIndex ← checkedSub (endExclusive * memberSize) 1
    let offset := memberSize * numElems
    some (.partDown (.fwd op) endIndex offset)

/-- `Operator::RangeIndexArray` in `backward_expression_code`, which takes the size of the result
for that of a member. -/
def rangeIndexArrayBackward (start endExclusive : ℕ) (selfType : Ty) (op : ν) :
    Option (Expr (Net ν)) := do
  let memberSize := selfType.backwardSize
  let elems ← checkedSub endExclusive start
  if memberSize = 1 ∧ elems = 1 then some (.bit (.back op) start)
  else
    let offset := memberSize * elems
    some (.partUp (.back op) (start * memberSize) offset)

/-- An access to an array: an index, which is the value `i` of a variable, or a constant range. -/
inductive ArrayAccess (ν : Type) where
  | index (idx : ν) (i : ℕ)
  | range (start endExclusive : ℕ)

namespace ArrayAccess

/-- The accessed elements exist. -/
def Within (length : ℕ) : ArrayAccess ν → Prop
  | index _ i => i < length
  | range start endExclusive => start < endExclusive ∧ endExclusive ≤ length

/-- The first element of the access. -/
def first : ArrayAccess ν → ℕ
  | index _ i => i
  | range start _ => start

/-- The number of accessed elements. -/
def count : ArrayAccess ν → ℕ
  | index _ _ => 1
  | range start endExclusive => endExclusive - start

/-- The accessed elements. -/
def selected (access : ArrayAccess ν) (ops : List ν) : List ν :=
  (ops.drop access.first).take access.count

def resultType (elem : Ty) : ArrayAccess ν → Ty
  | index _ _ => elem
  | range start endExclusive => .array elem (endExclusive - start)

/-- The index has its value. -/
def Carries (env : Net ν → Option BitString) : ArrayAccess ν → Prop
  | index idx i => ∃ bits, env (.fwd idx) = some bits ∧ bits.toNat = i
  | range _ _ => True

def forward (elem : Ty) (op : ν) : ArrayAccess ν → Option (Expr (Net ν))
  | index idx _ => some (indexArrayCode elem (.fwd op) (.fwd idx))
  | range start endExclusive =>
    rangeIndexArrayCode start endExclusive (.array elem (endExclusive - start)) op

def backward (elem : Ty) (op : ν) : ArrayAccess ν → Option (Expr (Net ν))
  | index idx _ => some (indexArrayBackward elem op idx)
  | range start endExclusive =>
    rangeIndexArrayBackward start endExclusive (.array elem (endExclusive - start)) op

/-- The assignments for the access `name` to the array `op` with elements of type `elem`. -/
def assignments (access : ArrayAccess ν) (elem : Ty) (name op : ν) :
    Option (List (Assignment (Net ν))) :=
  bindingAssignments name (access.resultType elem) (access.forward elem op)
    (access.backward elem op)

end ArrayAccess

/-- The assignments for the array `name` of the operands. -/
def constructArrayAssignments (elem : Ty) (name : ν) (ops : List ν) :
    Option (List (Assignment (Net ν))) :=
  bindingAssignments name (.array elem ops.length) (some (constructArrayCode ops))
    (some (constructArrayBackward ops))

/-! ### Elements -/

/-- The bits of an array are those of its elements. -/
theorem length_elements {size : ℕ} {bits : ν → BitString} {ops : List ν}
    (hlen : ∀ op ∈ ops, (bits op).length = size) :
    (ops.map bits).reverse.flatten.length = ops.length * size := by
  have hall : ∀ b ∈ (ops.map bits).reverse, b.length = size := by
    intro b hb
    obtain ⟨op, hop, rfl⟩ := List.mem_map.mp (List.mem_reverse.mp hb)
    exact hlen op hop
  rw [List.length_flatten, List.eq_replicate_of_mem (List.forall_mem_map.mpr hall),
    List.sum_replicate_nat, List.length_map, List.length_reverse, List.length_map]

/-- The elements from `start` on are found above those before them. -/
theorem slice_elements {size : ℕ} (hsize : size ≠ 0) {elements : List BitString}
    (hlen : ∀ bits ∈ elements, bits.length = size) {start count : ℕ} (hcount : count ≠ 0)
    (hle : start + count ≤ elements.length) :
    BitString.slice elements.reverse.flatten (start * size + count * size - 1) (start * size) =
      ((elements.drop start).take count).reverse.flatten := by
  have hflatten (xs : List BitString) (hxs : xs ⊆ elements) :
      xs.reverse.flatten.length = xs.length * size := by
    have hlength := @length_elements _ size id xs fun bits hbits => hlen bits (hxs hbits)
    rwa [List.map_id] at hlength
  have hsplit : elements = elements.take start ++
      ((elements.drop start).take count ++ (elements.drop start).drop count) := by
    rw [List.take_append_drop, List.take_append_drop]
  have hmid := hflatten ((elements.drop start).take count) fun bits hbits =>
    List.mem_of_mem_drop (List.mem_of_mem_take hbits)
  have hlow := hflatten (elements.take start) fun bits hbits => List.mem_of_mem_take hbits
  rw [List.length_take, List.length_drop] at hmid
  rw [List.length_take] at hlow
  have hcount' : min count (elements.length - start) = count := by omega
  have hstart' : min start elements.length = start := by omega
  rw [hcount'] at hmid
  rw [hstart'] at hlow
  have hne : ((elements.drop start).take count).reverse.flatten ≠ [] := by
    rw [← List.length_pos_iff, hmid]
    exact Nat.mul_pos (by omega) (by omega)
  have hslice := @BitString.slice_append ((elements.drop start).drop count).reverse.flatten
    ((elements.drop start).take count).reverse.flatten (elements.take start).reverse.flatten hne
  rw [hmid, hlow] at hslice
  have hwhole : elements.reverse.flatten = ((elements.drop start).drop count).reverse.flatten ++
      (((elements.drop start).take count).reverse.flatten ++
        (elements.take start).reverse.flatten) := by
    rw [← List.append_assoc, ← List.flatten_append, ← List.reverse_append, ← List.flatten_append,
      ← List.reverse_append, ← hsplit]
  rw [hwhole, Nat.add_comm (start * size), hslice]

/-- Nets of the same width concatenate to the bits of the array. -/
theorem eval_elements {env : Net ν → Option BitString} {pad : ℕ → Bool} {side : ν → Net ν}
    {bits : ν → BitString} {ops : List ν} (henv : ∀ op ∈ ops, env (side op) = some (bits op)) :
    Expr.eval env pad (.concat (ops.reverse.map fun op => .ident (side op))) =
      some (ops.map bits).reverse.flatten := by
  have hidents : List.Forall₂ (fun n b => env n = some b) (ops.reverse.map side)
      (ops.reverse.map bits) := by
    rw [List.forall₂_map_left_iff, List.forall₂_map_right_iff, List.forall₂_same]
    intro op hop
    exact henv op (List.mem_reverse.mp hop)
  have heval := @Expr.evalConcat_idents _ env pad _ _ hidents
  rw [List.map_map] at heval
  rw [← List.map_reverse]
  exact heval

theorem mul_bounds {size first count length : ℕ} (hpos : size ≠ 0) (hcount : count ≠ 0)
    (hle : first + count ≤ length) : first * size ≤ first * size + count * size - 1 ∧
      first * size + count * size - 1 < length * size := by
  have hsum : (first + count) * size ≤ length * size := Nat.mul_le_mul_right size hle
  have hlt : 0 < count * size := Nat.mul_pos (by omega) (by omega)
  rw [Nat.add_mul] at hsum
  omega

/-- The value of an index into an array of elements with `size` bits. -/
theorem eval_index {env : Net ν → Option BitString} {pad : ℕ → Bool} {net index : Net ν}
    {bits ibits : BitString} {size i length : ℕ} (hnet : env net = some bits)
    (hlen : bits.length = length * size) (hindex : env index = some ibits) (hi : ibits.toNat = i)
    (hpos : size ≠ 0) (hlt : i < length) :
    Expr.eval env pad (if size = 1 then .bitAt net index else .partAt net index size size) =
      some (bits.slice (i * size + 1 * size - 1) (i * size)) := by
  have hbounds := @mul_bounds size i 1 length hpos one_ne_zero hlt
  rw [← hlen] at hbounds
  rw [Nat.one_mul] at hbounds ⊢
  split
  · rename_i hone
    subst hone
    rw [Nat.mul_one] at hbounds ⊢
    simp only [Expr.eval, hnet, hindex, Option.bind_eq_bind, Option.bind_some, hi]
    rw [if_pos (by omega), Nat.add_sub_cancel]
  · rw [Expr.eval_partAt hnet hindex (by omega) (by rw [hi]; omega), hi]

/-! ### Accesses -/

section Access

variable {elem : Ty} {array : ν} {access : ArrayAccess ν} {length : ℕ}

theorem ArrayAccess.Within.count_ne_zero (h : access.Within length) : access.count ≠ 0 := by
  cases access with
  | index idx i => exact one_ne_zero
  | range start endExclusive =>
    change endExclusive - start ≠ 0
    have hlt := h.1
    omega

theorem ArrayAccess.Within.le (h : access.Within length) :
    access.first + access.count ≤ length := by
  cases access with
  | index idx i => exact h
  | range start endExclusive =>
    change start + (endExclusive - start) ≤ length
    obtain ⟨hlt, hle⟩ := h
    omega

theorem ArrayAccess.Within.length_ne_zero (h : access.Within length) : length ≠ 0 := by
  have hle := h.le
  have hcount := h.count_ne_zero
  omega

/-- The forward code of an access reads the bits of the accessed elements. -/
theorem forward_eval (h : access.Within length) (hpos : elem.size ≠ 0) :
    ∃ e, access.forward elem array = some e ∧ e.selectsFrom = some (.fwd array) ∧
      ∀ env pad bits, env (.fwd array) = some bits → bits.length = length * elem.size →
        access.Carries env → Expr.eval env pad e = some (bits.slice
          (access.first * elem.size + access.count * elem.size - 1)
          (access.first * elem.size)) := by
  have hbounds := mul_bounds hpos h.count_ne_zero h.le
  cases access with
  | index idx i =>
    refine ⟨_, rfl, ?_, ?_⟩
    · simp only [indexArrayCode]
      split
      · rfl
      · rfl
    · rintro env pad bits hbits hlen ⟨ibits, hibits, hi⟩
      exact eval_index hbits hlen hibits hi hpos h
  | range start endExclusive =>
    obtain ⟨hlt, hle⟩ := h
    have hsub : checkedSub endExclusive start = some (endExclusive - start) :=
      checkedSub_of_le hlt.le
    have hend : start * elem.size + (endExclusive - start) * elem.size =
        endExclusive * elem.size := by
      rw [← Nat.add_mul, Nat.add_sub_cancel' hlt.le]
    have hpos' : 0 < endExclusive * elem.size := Nat.mul_pos (by omega) (by omega)
    have hone : checkedSub (endExclusive * elem.size) 1 = some (endExclusive * elem.size - 1) :=
      checkedSub_of_le hpos'
    simp only [ArrayAccess.forward, rangeIndexArrayCode, ArrayAccess.first, ArrayAccess.count,
      hsub, hone, Option.bind_eq_bind, Option.bind_some] at hbounds ⊢
    split
    · rename_i hbit
      refine ⟨_, rfl, rfl, fun env pad bits hbits hlen _ => ?_⟩
      rw [hbit.1, hbit.2, Nat.mul_one, Nat.one_mul, Nat.add_sub_cancel]
      rw [hbit.1, hbit.2] at hbounds
      exact Expr.eval_bit hbits (by rw [hlen, hbit.1]; omega)
    · refine ⟨_, rfl, rfl, fun env pad bits hbits hlen _ => ?_⟩
      have hlow : endExclusive * elem.size - 1 + 1 - elem.size * (endExclusive - start) =
          start * elem.size := by
        rw [Nat.sub_add_cancel hpos', ← hend, Nat.mul_comm elem.size, Nat.add_sub_cancel]
      rw [hend] at hbounds ⊢
      unfold Expr.partDown
      rw [hlow]
      exact Expr.eval_part hbits hbounds.1 (hlen ▸ hbounds.2)

/-- The code of a range with `elem.backwardSize * count` for the size of a member. -/
theorem rangeIndexArrayBackward_eq {start endExclusive : ℕ} (hle : start ≤ endExclusive)
    (elem : Ty) (array : ν) :
    rangeIndexArrayBackward start endExclusive (.array elem (endExclusive - start)) array =
      if elem.backwardSize * (endExclusive - start) = 1 ∧ endExclusive - start = 1 then
        some (.bit (.back array) start)
      else some (.partUp (.back array) (start * (elem.backwardSize * (endExclusive - start)))
        (elem.backwardSize * (endExclusive - start) * (endExclusive - start))) := by
  unfold rangeIndexArrayBackward
  rw [checkedSub_of_le hle, Ty.backwardSize]
  rfl

/-- An access has backward code, which selects from the array. -/
theorem backward_isSome (elem : Ty) (array : ν) (h : access.Within length) :
    ∃ e, access.backward elem array = some e ∧ e.selectsFrom = some (.back array) := by
  cases access with
  | index idx i =>
    refine ⟨_, rfl, ?_⟩
    simp only [indexArrayBackward]
    split
    · rfl
    · rfl
  | range start endExclusive =>
    simp only [ArrayAccess.backward, rangeIndexArrayBackward_eq h.1.le]
    split
    · exact ⟨_, rfl, rfl⟩
    · exact ⟨_, rfl, rfl⟩

/-- The backward code of an access to one element or the whole array assigns the bits of the
accessed elements. -/
theorem backward_assigns (h : access.Within length) (hpos : elem.backwardSize ≠ 0)
    (hcount : access.count = 1 ∨ access.count = length) {e : Expr (Net ν)}
    (he : access.backward elem array = some e) {env : Net ν → Option BitString} {pad : ℕ → Bool}
    {bits vbits : BitString} {value : Expr (Net ν)} (hbits : env (.back array) = some bits)
    (hlen : bits.length = length * elem.backwardSize) (hcarries : access.Carries env)
    (hvalue : Expr.eval env pad value = some vbits)
    (hvlen : vbits.length = access.count * elem.backwardSize) :
    Expr.Assigns env pad e value ↔ bits.slice
      (access.first * elem.backwardSize + access.count * elem.backwardSize - 1)
      (access.first * elem.backwardSize) = vbits := by
  have hbounds := mul_bounds hpos h.count_ne_zero h.le
  rw [← hlen] at hbounds
  have hlength : vbits.length = (bits.slice
      (access.first * elem.backwardSize + access.count * elem.backwardSize - 1)
      (access.first * elem.backwardSize)).length := by
    have hwidth : 0 < access.count * elem.backwardSize :=
      Nat.mul_pos (Nat.pos_of_ne_zero h.count_ne_zero) (Nat.pos_of_ne_zero hpos)
    rw [hvlen, BitString.length_slice hbounds.1 hbounds.2]
    omega
  cases access with
  | index idx i =>
    obtain ⟨ibits, hibits, hi⟩ := hcarries
    obtain rfl := Option.some.inj he
    have hdrives := drives_iff (eval_index hbits hlen hibits hi hpos h) hvalue hlength
    simp only [indexArrayBackward]
    split at hdrives
    · rename_i hone
      rw [if_pos hone]
      exact hdrives
    · rename_i hone
      rw [if_neg hone]
      exact hdrives
  | range start endExclusive =>
    rw [ArrayAccess.backward, rangeIndexArrayBackward_eq h.1.le] at he
    simp only [ArrayAccess.first, ArrayAccess.count] at *
    have hcount' : 0 < endExclusive - start := Nat.sub_pos_of_lt h.1
    generalize hk : endExclusive - start = k at *
    by_cases hbit : elem.backwardSize * k = 1 ∧ k = 1
    · rw [if_pos hbit] at he
      obtain rfl := Option.some.inj he
      obtain ⟨hmember, rfl⟩ := hbit
      rw [Nat.mul_one] at hmember
      rw [hmember, Nat.mul_one, Nat.one_mul, Nat.add_sub_cancel] at hbounds hlength ⊢
      exact drives_iff (Expr.eval_bit hbits hbounds.2) hvalue hlength
    · rw [if_neg hbit] at he
      obtain rfl := Option.some.inj he
      rcases hcount with rfl | rfl
      · rw [Nat.one_mul] at hbounds hvlen
        rw [Nat.mul_one, Nat.mul_one, Nat.one_mul]
        exact Expr.assigns_part_iff hbits hbounds.1 hbounds.2 hvalue (by omega)
      · obtain ⟨rfl⟩ : start = 0 := by
          have hwithin := h.2
          omega
        have hne : bits ≠ [] := by
          rw [← List.length_pos_iff, hlen]
          exact Nat.mul_pos hcount' (Nat.pos_of_ne_zero hpos)
        have hwhole := @BitString.slice_low [] bits hne
        have hcover : k * elem.backwardSize * 1 ≤ elem.backwardSize * k * k := by
          rw [Nat.mul_comm k]
          exact Nat.mul_le_mul_left _ (by omega)
        rw [List.nil_append, hlen] at hwhole
        rw [Nat.zero_mul, Nat.zero_mul, Nat.zero_add, hwhole]
        unfold Expr.partUp
        exact Expr.assigns_overhang_iff hbits (by omega) hvalue (hvlen.trans hlen.symm)

end Access

end Spade.Mir

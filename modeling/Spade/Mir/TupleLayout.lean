import Spade.Mir.FieldAccess

/-!
# Tuples in both directions

The Verilog that `forward_expression_code` and `backward_expression_code` emit for the operators
`ConstructTuple` and `IndexTuple`, as the assignments of `statement_code`. A value has a net for its
forward bits and one for its backward bits (`Net`); the assignment of backward bits goes from the
result of an operator to its operands.

* **Members** (`computeTupleIndex_eval`, `flatten_filter`): the index computation selects the bits
  of a member, and leaving out members without bits leaves the concatenation as it is.
* **Round trip** (`tuple_roundTrip`): under the assignments emitted for the construction of a tuple
  and for an index into it, the result carries the forward bits of the member and the member the
  backward bits of the result.
-/

namespace Spade.Mir

open Verilog

/-- The two nets of a value: `ValueName::var_name` and `ValueName::backward_var_name`. -/
inductive Net (ν : Type) where
  | fwd (n : ν)
  | back (n : ν)
  deriving DecidableEq, Repr

variable {ν : Type}

/-- An assignment `assign target = value;`. -/
structure Assignment (ν : Type) where
  target : Expr ν
  value : Expr ν

/-- The assignment holds for the values of the nets. -/
def Assignment.Holds (env : ν → Option BitString) (pad : ℕ → Bool) (a : Assignment ν) : Prop :=
  Expr.Drives env pad a.target a.value

/-- `Operator::ConstructTuple` in `forward_expression_code`: `types` is the type list. -/
def constructTupleCode (types : ν → Ty) (ops : List ν) : Expr (Net ν) :=
  .concat ((ops.filter fun op => (types op).size != 0).map fun op => .ident (.fwd op))

/-- `Operator::ConstructTuple` in `backward_expression_code`. -/
def constructTupleBackward (types : ν → Ty) (ops : List ν) : Expr (Net ν) :=
  .concat ((ops.filter fun op => (types op).backwardSize != 0).map fun op => .ident (.back op))

/-- `Operator::IndexTuple` in `backward_expression_code`. -/
def indexTupleBackward (idx : ℕ) (innerTypes : List Ty) (selfType : Ty) (op : ν) :
    Option (Expr (Net ν)) := do
  if (← innerTypes[idx]?).beq selfType then
    (← computeTupleIndex idx (innerTypes.map Ty.backwardSize)).verilogCode (.back op)
  else none

/-- The assignments of `statement_code` for an operator without an arm of its own, given the forward
and the backward expression: the forward expression is assigned to the result, and the backward bits
of the result to the backward expression. -/
def bindingAssignments (name : ν) (ty : Ty) (forward backward : Option (Expr (Net ν))) :
    Option (List (Assignment (Net ν))) := do
  let forwardAssignment ←
    if ty.size ≠ 0 then do some [⟨.ident (.fwd name), ← forward⟩] else some []
  let backwardAssignment ←
    if ty.backwardSize ≠ 0 then do some [⟨← backward, .ident (.back name)⟩] else some []
  some (forwardAssignment ++ backwardAssignment)

/-- The assignments for the tuple `name` of the operands. -/
def constructTupleAssignments (types : ν → Ty) (name : ν) (ops : List ν) :
    Option (List (Assignment (Net ν))) :=
  bindingAssignments name (.tuple (ops.map types)) (some (constructTupleCode types ops))
    (some (constructTupleBackward types ops))

/-- The assignments for the element `idx` of the tuple `op`, named `name`. -/
def indexTupleAssignments (idx : ℕ) (innerTypes : List Ty) (ty : Ty) (name op : ν) :
    Option (List (Assignment (Net ν))) :=
  bindingAssignments name ty (indexTupleCode idx innerTypes (.fwd op))
    (indexTupleBackward idx innerTypes ty op)

theorem bindingAssignments_spec {name : ν} {ty : Ty} {forward backward : Option (Expr (Net ν))}
    (hforward : ty.size ≠ 0 → ∃ e, forward = some e)
    (hbackward : ty.backwardSize ≠ 0 → ∃ e, backward = some e) :
    ∃ assignments, bindingAssignments name ty forward backward = some assignments ∧
      (ty.size ≠ 0 → ∃ e, forward = some e ∧ ⟨.ident (.fwd name), e⟩ ∈ assignments) ∧
      (ty.backwardSize ≠ 0 → ∃ e, backward = some e ∧
        ⟨e, .ident (.back name)⟩ ∈ assignments) := by
  unfold bindingAssignments
  by_cases h : ty.size = 0 <;> by_cases h' : ty.backwardSize = 0
  · simp [h, h']
  · obtain ⟨b, rfl⟩ := hbackward h'
    simp [h, h']
  · obtain ⟨f, rfl⟩ := hforward h
    simp [h, h']
  · obtain ⟨b, rfl⟩ := hbackward h'
    obtain ⟨f, rfl⟩ := hforward h
    simp [h, h']

/-! ### Members -/

theorem sum_take_add {sizes : List ℕ} {i w : ℕ} (h : sizes[i]? = some w) :
    (sizes.take i).sum + w + (sizes.drop (i + 1)).sum = sizes.sum := by
  obtain ⟨hi, rfl⟩ := List.getElem?_eq_some_iff.mp h
  rw [← List.sum_take_succ _ _ hi, List.sum_take_add_sum_drop]

/-- The index computation selects the bits of the member. -/
theorem computeTupleIndex_eval {env : ν → Option BitString} {pad : ℕ → Bool} {op : ν}
    {sizes : List ℕ} {idx w : ℕ} (hw : sizes[idx]? = some w) (hpos : w ≠ 0) {bits : BitString}
    (hop : env op = some bits) (hlen : bits.length = sizes.sum) :
    ∃ e, (computeTupleIndex idx sizes).bind (TupleIndex.verilogCode op) = some e ∧
      e.eval env pad = some (bits.field (sizes.take idx).sum w) := by
  have hsum := sum_take_add hw
  obtain ⟨pre, post, hbits, hpre, hpost⟩ := @BitString.eq_append_field
    (sizes.take idx).sum w bits (by omega)
  have hfield : (bits.field (sizes.take idx).sum w).length = w :=
    BitString.length_field (by omega)
  have hslice := @BitString.slice_append pre (bits.field (sizes.take idx).sum w) post
    fun h => hpos (by rw [← hfield, h]; rfl)
  rw [← hbits, hfield] at hslice
  have hlow : sizes.sum - ((sizes.take idx).sum + w) = post.length := by omega
  have hhigh : sizes.sum - (sizes.take idx).sum - 1 = w + post.length - 1 := by omega
  simp only [computeTupleIndex, hw, Option.bind_eq_bind, Option.bind_some, if_neg hpos]
  by_cases htotal : sizes.sum = 1
  · -- a tuple of one bit is a scalar, which cannot be indexed
    rw [if_pos htotal]
    refine ⟨_, rfl, ?_⟩
    have hpre0 : pre = [] := List.length_eq_zero_iff.mp (by omega)
    have hpost0 : post = [] := List.length_eq_zero_iff.mp (by omega)
    rw [hpre0, hpost0, List.append_nil, List.nil_append] at hbits
    rw [Expr.eval_ident, hop]
    exact congrArg some hbits
  rw [if_neg htotal]
  by_cases hone : w = 1
  · rw [if_pos hone, hhigh]
    refine ⟨_, rfl, ?_⟩
    rw [Expr.eval_bit hop (by omega)]
    rw [show w + post.length - 1 = post.length by omega] at hslice ⊢
    rw [hslice]
  · rw [if_neg hone, hhigh, hlow]
    refine ⟨_, rfl, ?_⟩
    rw [Expr.eval_part hop (by omega) (by omega), hslice]

/-- Members without bits may be left out of a concatenation. -/
theorem flatten_filter {size : ν → ℕ} {bits : ν → BitString} {ops : List ν}
    (h : ∀ op ∈ ops, (bits op).length = size op) :
    ((ops.filter fun op => size op != 0).map bits).flatten = (ops.map bits).flatten := by
  induction ops with
  | nil => rfl
  | cons op ops ih =>
      rw [List.forall_mem_cons] at h
      by_cases h0 : size op = 0
      · have hnil : bits op = [] := List.length_eq_zero_iff.mp (by omega)
        simp [h0, hnil, ih h.2]
      · simp [h0, ih h.2]

/-- A member is found behind the members before it. -/
theorem field_flatten {size : ν → ℕ} (bits : ν → BitString) {ops : List ν}
    (h : ∀ op ∈ ops, (bits op).length = size op) {i : ℕ} {op : ν} (hop : ops[i]? = some op) :
    BitString.field ((ops.map size).take i).sum (size op) (ops.map bits).flatten = bits op := by
  induction ops generalizing i with
  | nil => simp at hop
  | cons op' ops ih =>
      rw [List.forall_mem_cons] at h
      cases i with
      | zero =>
          obtain rfl : op' = op := by simpa using hop
          have hfield := @BitString.field_append [] (bits op') (ops.map bits).flatten
          rw [h.1] at hfield
          simpa using hfield
      | succ i =>
          rw [List.map_cons, List.take_succ_cons, List.sum_cons, List.map_cons, List.flatten_cons,
            ← h.1, BitString.field_append_right]
          exact ih h.2 (by simpa using hop)

theorem length_flatten_map (size : ν → ℕ) (bits : ν → BitString) {ops : List ν}
    (h : ∀ op ∈ ops, (bits op).length = size op) :
    (ops.map bits).flatten.length = (ops.map size).sum := by
  rw [List.length_flatten, List.map_map]
  exact congrArg List.sum (List.map_congr_left h)

/-- The nets of the operands concatenate to the bits of all operands. -/
theorem eval_concat_filter {env : Net ν → Option BitString} {pad : ℕ → Bool} {side : ν → Net ν}
    {size : ν → ℕ} {bits : ν → BitString} {ops : List ν}
    (hlen : ∀ op ∈ ops, (bits op).length = size op)
    (henv : ∀ op ∈ ops, size op ≠ 0 → env (side op) = some (bits op)) :
    Expr.eval env pad
        (.concat ((ops.filter fun op => size op != 0).map fun op => .ident (side op))) =
      some (ops.map bits).flatten := by
  have hidents : List.Forall₂ (fun n b => env n = some b)
      ((ops.filter fun op => size op != 0).map side)
      ((ops.filter fun op => size op != 0).map bits) := by
    rw [List.forall₂_map_left_iff, List.forall₂_map_right_iff, List.forall₂_same]
    intro op hop
    obtain ⟨hmem, hsize⟩ := List.mem_filter.mp hop
    exact henv op hmem (by simpa using hsize)
  have heval := @Expr.evalConcat_idents _ env pad _ _ hidents
  rw [List.map_map, flatten_filter hlen] at heval
  exact heval

/-! ### Round trip -/

/-- The nets of a value are declared with the sizes of its type, and only those with bits. -/
structure DeclaresNets (env : Net ν → Option BitString) (n : ν) (ty : Ty) : Prop where
  fwd : ty.size ≠ 0 → ∃ bits, env (.fwd n) = some bits ∧ bits.length = ty.size
  back : ty.backwardSize ≠ 0 → ∃ bits, env (.back n) = some bits ∧ bits.length = ty.backwardSize

/-- The bits of a net, none when it is not declared. -/
def netBits (env : Net ν → Option BitString) (size : ℕ) (n : Net ν) : BitString :=
  if size = 0 then [] else (env n).getD []

theorem netBits_spec {env : Net ν → Option BitString} {size : ℕ} {n : Net ν}
    (h : size ≠ 0 → ∃ bits, env n = some bits ∧ bits.length = size) :
    (netBits env size n).length = size ∧ (size ≠ 0 → env n = some (netBits env size n)) := by
  unfold netBits
  split_ifs with h0
  · exact ⟨h0.symm, fun h => (h h0).elim⟩
  · obtain ⟨bits, hbits, hlen⟩ := h h0
    rw [hbits]
    exact ⟨hlen, fun _ => rfl⟩

/-- A member of a tuple and the result of an index into the tuple, in one direction. `source` is
the net that the tuple is concatenated from or split into. -/
theorem member_eq_index {env : Net ν → Option BitString} (pad : ℕ → Bool) {side : ν → Net ν}
    {size : ν → ℕ} {ops : List ν} {i : ℕ} {op : ν} (hop : ops[i]? = some op) (hpos : size op ≠ 0)
    (hops : ∀ op ∈ ops, size op ≠ 0 → ∃ bits, env (side op) = some bits ∧ bits.length = size op)
    {bits : BitString} (hbits : (ops.map fun op => netBits env (size op) (side op)).flatten = bits)
    {t : Net ν} (ht : env t = some bits) :
    ∃ e, (computeTupleIndex i (ops.map size)).bind (TupleIndex.verilogCode t) = some e ∧
      e.eval env pad = env (side op) := by
  have hspec := fun op hop => netBits_spec (hops op hop)
  have hlen : ∀ op ∈ ops, (netBits env (size op) (side op)).length = size op :=
    fun op hop => (hspec op hop).1
  obtain ⟨e, he, heval⟩ := @computeTupleIndex_eval _ env pad t (ops.map size) i (size op)
    (by rw [List.getElem?_map, hop]; rfl) hpos bits ht
    (by rw [← hbits, length_flatten_map size (fun op => netBits env (size op) (side op)) hlen])
  refine ⟨e, he, ?_⟩
  rw [heval, ← hbits, field_flatten (fun op => netBits env (size op) (side op)) hlen hop,
    (hspec op (List.mem_of_getElem? hop)).2 hpos]

/-- An assignment between equal widths is an equation. -/
theorem drives_iff {env : ν → Option BitString} {pad : ℕ → Bool} {target value : Expr ν}
    {bits bits' : BitString} (htarget : target.eval env pad = some bits)
    (hvalue : value.eval env pad = some bits') (hlen : bits'.length = bits.length) :
    Expr.Drives env pad target value ↔ bits = bits' := by
  unfold Expr.Drives
  rw [htarget, hvalue]
  constructor
  · rintro ⟨b, b', hb, hb', h⟩
    obtain rfl := Option.some.inj hb
    obtain rfl := Option.some.inj hb'
    rw [h, BitString.resize_of_length_eq hlen]
  · rintro rfl
    exact ⟨bits, bits, rfl, rfl, (BitString.resize_of_length_eq hlen).symm⟩

theorem Ty.size_tuple_map (types : ν → Ty) (ops : List ν) :
    (Ty.tuple (ops.map types)).size = (ops.map fun op => (types op).size).sum := by
  rw [Ty.size, Ty.sizeSum_eq, List.map_map]
  rfl

theorem Ty.backwardSize_tuple_map (types : ν → Ty) (ops : List ν) :
    (Ty.tuple (ops.map types)).backwardSize = (ops.map fun op => (types op).backwardSize).sum := by
  rw [Ty.backwardSize, Ty.backwardSizeSum_eq, List.map_map]
  rfl

/-- A sum is nonzero when one of its summands is. -/
theorem sum_ne_zero_of_get (size : ν → ℕ) {ops : List ν} {i : ℕ} {op : ν} (hop : ops[i]? = some op)
    (hpos : size op ≠ 0) : (ops.map size).sum ≠ 0 := by
  have := List.single_le_sum (fun _ _ => Nat.zero_le _) _
    (List.mem_map_of_mem (f := size) (List.mem_of_getElem? hop))
  omega

/-- The index into a member with bits does not panic. -/
theorem computeTupleIndex_isSome {sizes : List ℕ} {idx w : ℕ} (hw : sizes[idx]? = some w)
    (hpos : w ≠ 0) (op : ν) :
    ∃ e, (computeTupleIndex idx sizes).bind (TupleIndex.verilogCode op) = some e := by
  obtain ⟨e, he, -⟩ := @computeTupleIndex_eval _ (fun _ => some (List.replicate sizes.sum false))
    (fun _ => false) op _ _ _ hw hpos _ rfl List.length_replicate
  exact ⟨e, he⟩

section RoundTrip

variable {types : ν → Ty} {ops : List ν} {i : ℕ} {op t x : ν} {env : Net ν → Option BitString}
  {pad : ℕ → Bool}

/-- **Forward bits.** -/
theorem tuple_forward (hop : ops[i]? = some op) (hpos : (types op).size ≠ 0)
    (hops : ∀ n ∈ ops, DeclaresNets env n (types n))
    (ht : DeclaresNets env t (.tuple (ops.map types))) (hx : DeclaresNets env x (types op))
    (htuple : Expr.Drives env pad (.ident (.fwd t)) (constructTupleCode types ops))
    {e : Expr (Net ν)} (he : indexTupleCode i (ops.map types) (.fwd t) = some e)
    (hindex : Expr.Drives env pad (.ident (.fwd x)) e) : env (.fwd x) = env (.fwd op) := by
  have hsizes := sum_ne_zero_of_get (fun n => (types n).size) hop hpos
  obtain ⟨bits, hbits, hlen⟩ := ht.fwd (by rwa [Ty.size_tuple_map])
  rw [Ty.size_tuple_map] at hlen
  have hmembers := fun n hn => (hops n hn).fwd
  have hspec := fun n hn => netBits_spec (hmembers n hn)
  have hconcat := @eval_concat_filter _ env pad Net.fwd (fun n => (types n).size)
    (fun n => netBits env (types n).size (.fwd n)) ops (fun n hn => (hspec n hn).1)
    (fun n hn => (hspec n hn).2)
  have hflatten := length_flatten_map (fun n => (types n).size)
    (fun n => netBits env (types n).size (.fwd n)) (fun n hn => (hspec n hn).1)
  have heq := (drives_iff (show Expr.eval env pad (.ident (.fwd t)) = _ from hbits) hconcat
    (by rw [hlen, hflatten])).mp htuple
  obtain ⟨e', he', heval⟩ := member_eq_index pad hop hpos hmembers heq.symm hbits
  rw [indexTupleCode, List.map_map] at he
  obtain rfl : e' = e := Option.some.inj (he'.symm.trans he)
  obtain ⟨xbits, hxbits, hxlen⟩ := hx.fwd hpos
  obtain ⟨opbits, hopbits, hoplen⟩ := hmembers op (List.mem_of_getElem? hop) hpos
  rw [hxbits, hopbits, (drives_iff (show Expr.eval env pad (.ident (.fwd x)) = _ from hxbits)
    (heval.trans hopbits) (by rw [hxlen, hoplen])).mp hindex]

/-- **Backward bits.** -/
theorem tuple_backward (hop : ops[i]? = some op) (hpos : (types op).backwardSize ≠ 0)
    (hops : ∀ n ∈ ops, DeclaresNets env n (types n))
    (ht : DeclaresNets env t (.tuple (ops.map types))) (hx : DeclaresNets env x (types op))
    (htuple : Expr.Drives env pad (constructTupleBackward types ops) (.ident (.back t)))
    {e : Expr (Net ν)} (he : indexTupleBackward i (ops.map types) (types op) t = some e)
    (hindex : Expr.Drives env pad e (.ident (.back x))) : env (.back op) = env (.back x) := by
  have hsizes := sum_ne_zero_of_get (fun n => (types n).backwardSize) hop hpos
  obtain ⟨bits, hbits, hlen⟩ := ht.back (by rwa [Ty.backwardSize_tuple_map])
  rw [Ty.backwardSize_tuple_map] at hlen
  have hmembers := fun n hn => (hops n hn).back
  have hspec := fun n hn => netBits_spec (hmembers n hn)
  have hconcat := @eval_concat_filter _ env pad Net.back (fun n => (types n).backwardSize)
    (fun n => netBits env (types n).backwardSize (.back n)) ops (fun n hn => (hspec n hn).1)
    (fun n hn => (hspec n hn).2)
  have hflatten := length_flatten_map (fun n => (types n).backwardSize)
    (fun n => netBits env (types n).backwardSize (.back n)) (fun n hn => (hspec n hn).1)
  have heq := (drives_iff hconcat (show Expr.eval env pad (.ident (.back t)) = _ from hbits)
    (by rw [hlen, hflatten])).mp htuple
  obtain ⟨e', he', heval⟩ := member_eq_index pad hop hpos hmembers heq hbits
  simp only [indexTupleBackward, List.getElem?_map, hop, Option.map_some, Option.bind_eq_bind,
    Option.bind_some, Ty.beq_self, if_true, List.map_map] at he
  obtain rfl : e' = e := Option.some.inj (he'.symm.trans he)
  obtain ⟨xbits, hxbits, hxlen⟩ := hx.back hpos
  obtain ⟨opbits, hopbits, hoplen⟩ := hmembers op (List.mem_of_getElem? hop) hpos
  rw [hxbits, hopbits, (drives_iff (heval.trans hopbits)
    (show Expr.eval env pad (.ident (.back x)) = _ from hxbits) (by rw [hxlen, hoplen])).mp hindex]

end RoundTrip

/-- **Tuples.** Both operators have code for a member of any size, and in every valuation of the nets
that obeys the assignments, a member agrees with the result of the index in both directions. -/
theorem tuple_roundTrip (types : ν → Ty) (ops : List ν) {i : ℕ} {op : ν} (hop : ops[i]? = some op)
    (t x : ν) :
    ∃ tuple index, constructTupleAssignments types t ops = some tuple ∧
      indexTupleAssignments i (ops.map types) (types op) x t = some index ∧
      ∀ env pad, (∀ n ∈ ops, DeclaresNets env n (types n)) →
        DeclaresNets env t (.tuple (ops.map types)) → DeclaresNets env x (types op) →
        (∀ a ∈ tuple ++ index, a.Holds env pad) →
        ((types op).size ≠ 0 → env (.fwd x) = env (.fwd op)) ∧
          ((types op).backwardSize ≠ 0 → env (.back op) = env (.back x)) := by
  have hforward : (types op).size ≠ 0 →
      ∃ e, indexTupleCode i (ops.map types) (Net.fwd t) = some e := by
    intro hpos
    exact computeTupleIndex_isSome (by simp [hop]) hpos _
  have hbackward : (types op).backwardSize ≠ 0 →
      ∃ e, indexTupleBackward i (ops.map types) (types op) t = some e := by
    intro hpos
    obtain ⟨e, he⟩ := @computeTupleIndex_isSome _ ((ops.map types).map Ty.backwardSize) i
      (types op).backwardSize (by simp [hop]) hpos (Net.back t)
    refine ⟨e, ?_⟩
    simpa only [indexTupleBackward, List.getElem?_map, hop, Option.map_some, Option.bind_eq_bind,
      Option.bind_some, Ty.beq_self, if_true] using he
  obtain ⟨tuple, htuple, htupleFwd, htupleBack⟩ := @bindingAssignments_spec _ t
    (.tuple (ops.map types)) (some (constructTupleCode types ops))
    (some (constructTupleBackward types ops)) (fun _ => ⟨_, rfl⟩) (fun _ => ⟨_, rfl⟩)
  obtain ⟨index, hindex, hindexFwd, hindexBack⟩ := @bindingAssignments_spec _ x (types op)
    (indexTupleCode i (ops.map types) (.fwd t)) (indexTupleBackward i (ops.map types) (types op) t)
    hforward hbackward
  refine ⟨tuple, index, htuple, hindex, fun env pad hops ht hx hholds => ?_⟩
  rw [List.forall_mem_append] at hholds
  constructor
  · intro hpos
    have hsize := sum_ne_zero_of_get (fun n => (types n).size) hop hpos
    obtain ⟨c, hc, hmem⟩ := htupleFwd (by rwa [Ty.size_tuple_map])
    obtain rfl := Option.some.inj hc
    obtain ⟨e, he, hmem'⟩ := hindexFwd hpos
    exact tuple_forward hop hpos hops ht hx (hholds.1 _ hmem) he (hholds.2 _ hmem')
  · intro hpos
    have hsize := sum_ne_zero_of_get (fun n => (types n).backwardSize) hop hpos
    obtain ⟨c, hc, hmem⟩ := htupleBack (by rwa [Ty.backwardSize_tuple_map])
    obtain rfl := Option.some.inj hc
    obtain ⟨e, he, hmem'⟩ := hindexBack hpos
    exact tuple_backward hop hpos hops ht hx (hholds.1 _ hmem) he (hholds.2 _ hmem')

/-- A `bool`, and values of type `int<2>` carried against the direction of the tuple. -/
def pairTypes : ValueName → Ty
  | .expr 0 => .bool
  | _ => .backward (.int 2)

theorem tuple_roundTrip_pair :
    ∃ tuple index, constructTupleAssignments pairTypes (.expr 2) [.expr 0, .expr 1] = some tuple ∧
      indexTupleAssignments 1 [.bool, .backward (.int 2)] (.backward (.int 2)) (.expr 3) (.expr 2) =
        some index ∧
      ∀ env pad, (∀ n ∈ [ValueName.expr 0, .expr 1], DeclaresNets env n (pairTypes n)) →
        DeclaresNets env (.expr 2) (.tuple [.bool, .backward (.int 2)]) →
        DeclaresNets env (.expr 3) (.backward (.int 2)) →
        (∀ a ∈ tuple ++ index, a.Holds env pad) →
        ((Ty.backward (.int 2)).size ≠ 0 → env (.fwd (.expr 3)) = env (.fwd (.expr 1))) ∧
          ((Ty.backward (.int 2)).backwardSize ≠ 0 →
            env (.back (.expr 1)) = env (.back (.expr 3))) :=
  tuple_roundTrip pairTypes [.expr 0, .expr 1] (i := 1) rfl (.expr 2) (.expr 3)

end Spade.Mir

import Mathlib.Data.Fintype.EquivFin
import Mathlib.Data.List.Nodup
import Spade.Mir.ArrayLayout

/-!
# Accesses to the elements of an array

The assignments for the construction of an array and for an access to it, as a whole.

* **Exactness** (`exact_of_whole`): the assignments for an access are legal, and say exactly that
  the result has the forward bits of the accessed elements, and these the backward bits of the
  result, when the array is no scalar, and a range with backward bits is one element or the whole
  array.
* **Converse** (`not_exact_of_range`, `access_exact_iff`): for all other accesses they do not.
-/

namespace Spade.Mir

open Verilog

variable {ν : Type}

/-- The width that a net is declared with. -/
def netSize (types : ν → Ty) : Net ν → ℕ
  | .fwd n => (types n).size
  | .back n => (types n).backwardSize

namespace Assignment

/-- A net of one bit is declared as a scalar, from which nothing can be selected. -/
def Legal (types : ν → Ty) (a : Assignment (Net ν)) : Prop :=
  ∀ n, a.target.selectsFrom = some n ∨ a.value.selectsFrom = some n → netSize types n ≠ 1

/-- The bits of the target that exist have the bits of the value. -/
def Assigned (env : Net ν → Option BitString) (pad : ℕ → Bool) (a : Assignment (Net ν)) : Prop :=
  Expr.Assigns env pad a.target a.value

end Assignment

/-- The types of the values in a program that constructs an array and accesses it. -/
structure ArrayAccess.Typed (types : ν → Ty) (elem : Ty) (ops : List ν) (array name : ν)
    (access : ArrayAccess ν) : Prop where
  ops_eq : ∀ op ∈ ops, types op = elem
  array_eq : types array = .array elem ops.length
  name_eq : types name = access.resultType elem
  array_notMem : array ∉ ops
  name_notMem : name ∉ ops
  name_ne : name ≠ array

/-- The result of the access has the forward bits of the accessed elements in their order, and
these have the backward bits of the result. -/
def ArrayAccess.Transfers (elem : Ty) (ops : List ν) (name : ν) (access : ArrayAccess ν)
    (env : Net ν → Option BitString) (pad : ℕ → Bool) : Prop :=
  (elem.size ≠ 0 →
    env (.fwd name) = Expr.eval env pad (constructArrayCode (access.selected ops))) ∧
  (elem.backwardSize ≠ 0 →
    Expr.eval env pad (constructArrayBackward (access.selected ops)) = env (.back name))

/-- The assignments for an array of the operands and for the access to it are legal, and the latter
say exactly that the access transfers the bits of the accessed elements. -/
def ArrayAccess.Exact (types : ν → Ty) (elem : Ty) (ops : List ν) (array name : ν)
    (access : ArrayAccess ν) : Prop :=
  ∃ construct assigns, constructArrayAssignments elem array ops = some construct ∧
    access.assignments elem name array = some assigns ∧
    (∀ a ∈ construct ++ assigns, a.Legal types) ∧
    ∀ env pad, (∀ n ∈ name :: array :: ops, DeclaresNets env n (types n)) → access.Carries env →
      (∀ a ∈ construct, a.Assigned env pad) →
      ((∀ a ∈ assigns, a.Assigned env pad) ↔ access.Transfers elem ops name env pad)

/-- A property of all assignments of a statement is one of the two that it may have. -/
theorem forall_bindingAssignments {name : ν} {ty : Ty} {forward backward : Option (Expr (Net ν))}
    {assigns : List (Assignment (Net ν))}
    (h : bindingAssignments name ty forward backward = some assigns)
    (P : Assignment (Net ν) → Prop) :
    (∀ a ∈ assigns, P a) ↔
      (ty.size ≠ 0 → ∃ e, forward = some e ∧ P ⟨.ident (.fwd name), e⟩) ∧
        (ty.backwardSize ≠ 0 → ∃ e, backward = some e ∧ P ⟨e, .ident (.back name)⟩) := by
  unfold bindingAssignments at h
  by_cases hf : ty.size = 0 <;> by_cases hb : ty.backwardSize = 0
  · obtain rfl : [] = assigns := by simpa [hf, hb] using h
    simp [hf, hb]
  · obtain ⟨b, rfl, rfl⟩ : ∃ b, backward = some b ∧ [⟨b, .ident (.back name)⟩] = assigns := by
      simpa [hf, hb, Option.bind_eq_some_iff] using h
    simp [hf, hb]
  · obtain ⟨f, rfl, rfl⟩ : ∃ f, forward = some f ∧ [⟨.ident (.fwd name), f⟩] = assigns := by
      simpa [hf, hb, Option.bind_eq_some_iff] using h
    simp [hf, hb]
  · obtain ⟨f, rfl, b, rfl, rfl⟩ : ∃ f, forward = some f ∧ ∃ b, backward = some b ∧
        [⟨.ident (.fwd name), f⟩, ⟨b, .ident (.back name)⟩] = assigns := by
      simpa [hf, hb, Option.bind_eq_some_iff] using h
    simp [hf, hb]

/-! ### Values of the elements -/

section Direction

variable {env : Net ν → Option BitString} {pad : ℕ → Bool} {side : ν → Net ν} {size : ℕ}
  {ops : List ν} {access : ArrayAccess ν}

/-- The elements have bits in the environment, and the accessed ones are found in the array. -/
theorem elements_spec (hsize : size ≠ 0) (h : access.Within ops.length)
    (hops : ∀ op ∈ ops, ∃ bits, env (side op) = some bits ∧ bits.length = size) :
    ∃ bits vbits : BitString,
      Expr.eval env pad (.concat (ops.reverse.map fun op => .ident (side op))) = some bits ∧
      bits.length = ops.length * size ∧
      Expr.eval env pad (.concat ((access.selected ops).reverse.map fun op => .ident (side op))) =
        some vbits ∧
      vbits.length = access.count * size ∧
      bits.slice (access.first * size + access.count * size - 1) (access.first * size) = vbits := by
  have hvalues : ∀ op ∈ ops, env (side op) = some ((env (side op)).getD []) ∧
      ((env (side op)).getD []).length = size := by
    intro op hop
    obtain ⟨bits, hbits, hlen⟩ := hops op hop
    rw [hbits]
    exact ⟨rfl, hlen⟩
  have hsub : ∀ op ∈ access.selected ops, op ∈ ops :=
    fun op hop => List.mem_of_mem_drop (List.mem_of_mem_take hop)
  have hcount : (access.selected ops).length = access.count := by
    have hle := h.le
    rw [ArrayAccess.selected, List.length_take, List.length_drop]
    omega
  refine ⟨_, _, eval_elements fun op hop => (hvalues op hop).1,
    length_elements fun op hop => (hvalues op hop).2,
    eval_elements fun op hop => (hvalues op (hsub op hop)).1, ?_, ?_⟩
  · rw [length_elements fun op hop => (hvalues op (hsub op hop)).2, hcount]
  · have hslice := @slice_elements size hsize (ops.map fun op => (env (side op)).getD [])
      (List.forall_mem_map.mpr fun op hop => (hvalues op hop).2) access.first access.count
      h.count_ne_zero (by rw [List.length_map]; exact h.le)
    rw [hslice, ArrayAccess.selected, List.map_take, List.map_drop]

end Direction

/-! ### Both directions -/

section Exactness

variable {types : ν → Ty} {elem : Ty} {ops : List ν} {array name : ν} {access : ArrayAccess ν}
  {env : Net ν → Option BitString} {pad : ℕ → Bool}

theorem ArrayAccess.size_resultType (elem : Ty) (access : ArrayAccess ν) :
    (access.resultType elem).size = access.count * elem.size := by
  cases access with
  | index idx i => exact (Nat.one_mul _).symm
  | range start endExclusive => exact Nat.mul_comm _ _

theorem ArrayAccess.backwardSize_resultType (elem : Ty) (access : ArrayAccess ν) :
    (access.resultType elem).backwardSize = access.count * elem.backwardSize := by
  cases access with
  | index idx i => exact (Nat.one_mul _).symm
  | range start endExclusive => exact Nat.mul_comm _ _

/-- **Forward bits.** -/
theorem forward_iff (ht : access.Typed types elem ops array name) (h : access.Within ops.length)
    (hpos : elem.size ≠ 0) (hdecl : ∀ n ∈ name :: array :: ops, DeclaresNets env n (types n))
    (hcarries : access.Carries env)
    (hconstruct : Expr.Assigns env pad (.ident (.fwd array)) (constructArrayCode ops))
    {e : Expr (Net ν)} (he : access.forward elem array = some e) :
    Expr.Assigns env pad (.ident (.fwd name)) e ↔
      env (.fwd name) = Expr.eval env pad (constructArrayCode (access.selected ops)) := by
  have hlength := h.length_ne_zero
  have hops : ∀ op ∈ ops, ∃ bits, env (.fwd op) = some bits ∧ bits.length = elem.size := by
    intro op hop
    have hop' := (hdecl op (by simp [hop])).fwd
    rw [ht.ops_eq op hop] at hop'
    exact hop' hpos
  have harray := (hdecl array (by simp)).fwd
  have hname := (hdecl name (by simp)).fwd
  rw [ht.array_eq, Ty.size] at harray
  rw [ht.name_eq, ArrayAccess.size_resultType] at hname
  obtain ⟨abits, habits, halen⟩ := harray (Nat.mul_ne_zero hpos hlength)
  obtain ⟨nbits, hnbits, hnlen⟩ := hname (Nat.mul_ne_zero h.count_ne_zero hpos)
  obtain ⟨bits, vbits, hbits, hlen, hvbits, hvlen, hslice⟩ := elements_spec hpos h hops
  obtain rfl : abits = bits := (drives_iff (show Expr.eval env pad (.ident (.fwd array)) = _ from
    habits) hbits (by rw [hlen, halen, Nat.mul_comm])).mp hconstruct
  obtain ⟨e', he', -, heval⟩ := @forward_eval _ elem array access _ h hpos
  obtain rfl : e' = e := Option.some.inj (he'.symm.trans he)
  have hvalue := heval env pad abits habits hlen hcarries
  rw [hslice] at hvalue
  rw [constructArrayCode, hvbits, hnbits, Option.some.injEq]
  exact drives_iff (show Expr.eval env pad (.ident (.fwd name)) = _ from hnbits) hvalue
    (hvlen.trans hnlen.symm)

/-- The forward assignment of an access, if there is one. -/
theorem forward_congr (ht : access.Typed types elem ops array name)
    (h : access.Within ops.length)
    (hdecl : ∀ n ∈ name :: array :: ops, DeclaresNets env n (types n))
    (hcarries : access.Carries env)
    (hconstruct : (Ty.array elem ops.length).size ≠ 0 →
      ∃ e, some (constructArrayCode ops) = some e ∧
        Assignment.Assigned env pad ⟨.ident (.fwd array), e⟩) :
    (access.count * elem.size ≠ 0 → ∃ e, access.forward elem array = some e ∧
      Assignment.Assigned env pad ⟨.ident (.fwd name), e⟩) ↔
      (elem.size ≠ 0 →
        env (.fwd name) = Expr.eval env pad (constructArrayCode (access.selected ops))) := by
  by_cases hpos : elem.size = 0
  · simp [hpos]
  · obtain ⟨e, he, -⟩ := @forward_eval _ elem array access _ h hpos
    obtain ⟨c, hc, hassigned⟩ := hconstruct (Nat.mul_ne_zero hpos h.length_ne_zero)
    obtain rfl := Option.some.inj hc
    have hiff := forward_iff ht h hpos hdecl hcarries hassigned he
    rw [he]
    simp [hpos, h.count_ne_zero, Assignment.Assigned, hiff]

/-- **Backward bits.** -/
theorem backward_iff (ht : access.Typed types elem ops array name) (h : access.Within ops.length)
    (hpos : elem.backwardSize ≠ 0) (hcount : access.count = 1 ∨ access.count = ops.length)
    (hdecl : ∀ n ∈ name :: array :: ops, DeclaresNets env n (types n))
    (hcarries : access.Carries env)
    (hconstruct : Expr.Assigns env pad (constructArrayBackward ops) (.ident (.back array)))
    {e : Expr (Net ν)} (he : access.backward elem array = some e) :
    Expr.Assigns env pad e (.ident (.back name)) ↔
      Expr.eval env pad (constructArrayBackward (access.selected ops)) = env (.back name) := by
  have hlength := h.length_ne_zero
  have hops : ∀ op ∈ ops, ∃ bits, env (.back op) = some bits ∧
      bits.length = elem.backwardSize := by
    intro op hop
    have hop' := (hdecl op (by simp [hop])).back
    rw [ht.ops_eq op hop] at hop'
    exact hop' hpos
  have harray := (hdecl array (by simp)).back
  have hname := (hdecl name (by simp)).back
  rw [ht.array_eq, Ty.backwardSize] at harray
  rw [ht.name_eq, ArrayAccess.backwardSize_resultType] at hname
  obtain ⟨abits, habits, halen⟩ := harray (Nat.mul_ne_zero hpos hlength)
  obtain ⟨nbits, hnbits, hnlen⟩ := hname (Nat.mul_ne_zero h.count_ne_zero hpos)
  obtain ⟨bits, vbits, hbits, hlen, hvbits, hvlen, hslice⟩ := elements_spec hpos h hops
  obtain rfl : bits = abits := (drives_iff hbits (show Expr.eval env pad (.ident (.back array)) = _
    from habits) (by rw [hlen, halen, Nat.mul_comm])).mp hconstruct
  have hassigns := backward_assigns h hpos hcount he habits hlen hcarries
    (show Expr.eval env pad (.ident (.back name)) = _ from hnbits) hnlen
  rw [hassigns, hslice, constructArrayBackward, hvbits, hnbits, Option.some.injEq]

/-- The assignments are legal exactly when the array is no scalar. -/
theorem legal_iff (ht : access.Typed types elem ops array name) (h : access.Within ops.length)
    {construct assigns : List (Assignment (Net ν))}
    (hconstruct : constructArrayAssignments elem array ops = some construct)
    (hassigns : access.assignments elem name array = some assigns) :
    (∀ a ∈ construct ++ assigns, a.Legal types) ↔
      elem.size * ops.length ≠ 1 ∧ elem.backwardSize * ops.length ≠ 1 := by
  have hselects (side : ν → Net ν) {a : Assignment (Net ν)} {e : Expr (Net ν)}
      (he : e.selectsFrom = some (side array)) (ha : a = ⟨.ident (.fwd name), e⟩ ∨
        a = ⟨e, .ident (.back name)⟩) : a.Legal types ↔ netSize types (side array) ≠ 1 := by
    constructor
    · intro hlegal
      rcases ha with rfl | rfl
      · exact hlegal _ (.inr he)
      · exact hlegal _ (.inl he)
    · intro hne n hn
      rcases ha with rfl | rfl
      · obtain rfl := Option.some.inj (he.symm.trans (hn.resolve_left (nomatch ·)))
        exact hne
      · obtain rfl := Option.some.inj (he.symm.trans (hn.resolve_right (nomatch ·)))
        exact hne
  rw [List.forall_mem_append, forall_bindingAssignments hconstruct,
    forall_bindingAssignments hassigns, ArrayAccess.size_resultType,
    ArrayAccess.backwardSize_resultType]
  have hplain : ((Ty.array elem ops.length).size ≠ 0 → ∃ e, some (constructArrayCode ops) = some e ∧
      Assignment.Legal types ⟨.ident (.fwd array), e⟩) ∧
      ((Ty.array elem ops.length).backwardSize ≠ 0 →
        ∃ e, some (constructArrayBackward ops) = some e ∧ Assignment.Legal types ⟨e, .ident (.back array)⟩) :=
    ⟨fun _ => ⟨_, rfl, fun n hn => hn.elim (nomatch ·) (nomatch ·)⟩,
      fun _ => ⟨_, rfl, fun n hn => hn.elim (nomatch ·) (nomatch ·)⟩⟩
  rw [and_iff_right hplain]
  apply and_congr
  · by_cases hpos : elem.size = 0
    · simp [hpos]
    · obtain ⟨e, he, hsel, -⟩ := @forward_eval _ elem array access _ h hpos
      have hlegal := hselects Net.fwd hsel (.inl rfl)
      rw [netSize, ht.array_eq, Ty.size] at hlegal
      rw [he]
      simp [hlegal, h.count_ne_zero, hpos]
  · by_cases hpos : elem.backwardSize = 0
    · simp [hpos]
    · obtain ⟨e, he, hsel⟩ := backward_isSome elem array h
      have hlegal := hselects Net.back hsel (.inr rfl)
      rw [netSize, ht.array_eq, Ty.backwardSize] at hlegal
      rw [he]
      simp [hlegal, h.count_ne_zero, hpos]

/-- Both statements have assignments. -/
theorem assignments_isSome (elem : Ty) (ops : List ν) (array name : ν)
    (h : access.Within ops.length) :
    ∃ construct assigns, constructArrayAssignments elem array ops = some construct ∧
      access.assignments elem name array = some assigns := by
  obtain ⟨construct, hconstruct, -⟩ := @bindingAssignments_spec _ array (.array elem ops.length)
    (some (constructArrayCode ops)) (some (constructArrayBackward ops)) (fun _ => ⟨_, rfl⟩)
    (fun _ => ⟨_, rfl⟩)
  obtain ⟨b, hb, -⟩ := backward_isSome elem array h
  obtain ⟨assigns, hassigns, -⟩ := @bindingAssignments_spec _ name (access.resultType elem)
    (access.forward elem array) (access.backward elem array)
    (fun hsize => by
      rw [ArrayAccess.size_resultType] at hsize
      obtain ⟨e, he, -⟩ := @forward_eval _ elem array access _ h (right_ne_zero_of_mul hsize)
      exact ⟨e, he⟩)
    (fun _ => ⟨b, hb⟩)
  exact ⟨construct, assigns, hconstruct, hassigns⟩

/-- **Exactness.** -/
theorem exact_of_whole (ht : access.Typed types elem ops array name)
    (h : access.Within ops.length) (hfwd : elem.size * ops.length ≠ 1)
    (hback : elem.backwardSize * ops.length ≠ 1)
    (hcount : elem.backwardSize = 0 ∨ access.count = 1 ∨ access.count = ops.length) :
    access.Exact types elem ops array name := by
  obtain ⟨construct, assigns, hconstruct, hassigns⟩ := assignments_isSome elem ops array name h
  refine ⟨construct, assigns, hconstruct, hassigns,
    (legal_iff ht h hconstruct hassigns).mpr ⟨hfwd, hback⟩, ?_⟩
  intro env pad hdecl hcarries hholds
  rw [forall_bindingAssignments hconstruct] at hholds
  rw [forall_bindingAssignments hassigns, ArrayAccess.size_resultType,
    ArrayAccess.backwardSize_resultType]
  refine and_congr (forward_congr ht h hdecl hcarries hholds.1) ?_
  by_cases hpos : elem.backwardSize = 0
  · simp [hpos]
  · obtain ⟨e, he, -⟩ := backward_isSome elem array h
    obtain ⟨c, hc, hassigned⟩ := hholds.2 (Nat.mul_ne_zero hpos (h.length_ne_zero))
    obtain rfl := Option.some.inj hc
    have hiff := backward_iff ht h hpos (hcount.resolve_left hpos) hdecl hcarries hassigned he
    rw [he]
    simp [hpos, h.count_ne_zero, Assignment.Assigned, hiff]

/-- In an exact access, the backward assignment says by itself that the backward bits are
transferred. -/
theorem ArrayAccess.Exact.backward_iff (hexact : access.Exact types elem ops array name)
    (ht : access.Typed types elem ops array name) (h : access.Within ops.length)
    (hpos : elem.backwardSize ≠ 0)
    (hdecl : ∀ n ∈ name :: array :: ops, DeclaresNets env n (types n))
    (hcarries : access.Carries env)
    (hconstructed : ∀ construct, constructArrayAssignments elem array ops = some construct →
      ∀ a ∈ construct, a.Assigned env pad)
    (hfwd : elem.size ≠ 0 →
      env (.fwd name) = Expr.eval env pad (constructArrayCode (access.selected ops)))
    {e : Expr (Net ν)} (he : access.backward elem array = some e) :
    Expr.Assigns env pad e (.ident (.back name)) ↔
      Expr.eval env pad (constructArrayBackward (access.selected ops)) = env (.back name) := by
  obtain ⟨construct, assigns, hconstruct, hassigns, -, hholds⟩ := hexact
  have hall := hconstructed construct hconstruct
  have hiff := hholds env pad hdecl hcarries hall
  rw [forall_bindingAssignments hconstruct] at hall
  rw [forall_bindingAssignments hassigns, size_resultType, backwardSize_resultType,
    and_iff_right ((forward_congr ht h hdecl hcarries hall.1).mpr hfwd), Transfers,
    and_iff_right hfwd, he] at hiff
  simpa [hpos, h.count_ne_zero, Assignment.Assigned] using hiff

end Exactness

/-! ### Ranges of several elements with backward bits -/

section Converse

variable {types : ν → Ty} {elem : Ty} {ops : List ν} {array name : ν}

/-- Bits for all values: `bits` for the elements, those of its elements for the array, and `result`
for the result of the access. -/
def sideBits [DecidableEq ν] (ops : List ν) (array name : ν) (bits : ν → BitString)
    (result : BitString) (n : ν) : BitString :=
  if n = name then result else if n = array then (ops.map bits).reverse.flatten else bits n

/-- Bits for all nets, with the same in both directions for every element. -/
def sideEnv [DecidableEq ν] (ops : List ν) (array name : ν) (fwd : ν → BitString)
    (fwdResult : BitString) (back : ν → BitString) (backResult : BitString) :
    Net ν → Option BitString
  | .fwd n => some (sideBits ops array name fwd fwdResult n)
  | .back n => some (sideBits ops array name back backResult n)

section SideBits

variable [DecidableEq ν] {access : ArrayAccess ν} {bits : ν → BitString} {result : BitString}

theorem sideBits_name : sideBits ops array name bits result name = result := if_pos rfl

theorem sideBits_array (ht : access.Typed types elem ops array name) :
    sideBits ops array name bits result array = (ops.map bits).reverse.flatten := by
  unfold sideBits
  rw [if_neg ht.name_ne.symm, if_pos rfl]

theorem sideBits_of_mem (ht : access.Typed types elem ops array name) {op : ν} (hop : op ∈ ops) :
    sideBits ops array name bits result op = bits op := by
  have hname : op ≠ name := fun h => ht.name_notMem (h ▸ hop)
  have harray : op ≠ array := fun h => ht.array_notMem (h ▸ hop)
  unfold sideBits
  rw [if_neg hname, if_neg harray]

/-- All nets are declared. -/
theorem declares_sideEnv (ht : access.Typed types elem ops array name) {fwd back : ν → BitString}
    {fwdResult backResult : BitString} (hfwd : ∀ op ∈ ops, (fwd op).length = elem.size)
    (hfwdResult : fwdResult.length = access.count * elem.size)
    (hback : ∀ op ∈ ops, (back op).length = elem.backwardSize)
    (hbackResult : backResult.length = access.count * elem.backwardSize) :
    ∀ n ∈ name :: array :: ops,
      DeclaresNets (sideEnv ops array name fwd fwdResult back backResult) n (types n) := by
  intro n hn
  rcases List.mem_cons.mp hn with rfl | hn
  · rw [ht.name_eq]
    refine ⟨fun _ => ⟨_, rfl, ?_⟩, fun _ => ⟨_, rfl, ?_⟩⟩
    · rw [sideBits_name, hfwdResult, ArrayAccess.size_resultType]
    · rw [sideBits_name, hbackResult, ArrayAccess.backwardSize_resultType]
  rcases List.mem_cons.mp hn with rfl | hn
  · rw [ht.array_eq]
    refine ⟨fun _ => ⟨_, rfl, ?_⟩, fun _ => ⟨_, rfl, ?_⟩⟩
    · rw [sideBits_array ht, length_elements hfwd, Ty.size, Nat.mul_comm]
    · rw [sideBits_array ht, length_elements hback, Ty.backwardSize, Nat.mul_comm]
  · rw [ht.ops_eq n hn]
    refine ⟨fun _ => ⟨_, rfl, ?_⟩, fun _ => ⟨_, rfl, ?_⟩⟩
    · rw [sideBits_of_mem ht hn, hfwd n hn]
    · rw [sideBits_of_mem ht hn, hback n hn]

/-- The array consists of its elements, and what is concatenated from some of them has their
bits. -/
theorem eval_sideEnv (ht : access.Typed types elem ops array name) {fwd back : ν → BitString}
    {fwdResult backResult : BitString} (pad : ℕ → Bool) {members : List ν}
    (hmembers : members ⊆ ops) :
    Expr.eval (sideEnv ops array name fwd fwdResult back backResult) pad
        (constructArrayCode members) = some (members.map fwd).reverse.flatten ∧
      Expr.eval (sideEnv ops array name fwd fwdResult back backResult) pad
        (constructArrayBackward members) = some (members.map back).reverse.flatten := by
  constructor
  · apply eval_elements
    intro op hop
    rw [sideEnv, sideBits_of_mem ht (hmembers hop)]
  · apply eval_elements
    intro op hop
    rw [sideEnv, sideBits_of_mem ht (hmembers hop)]

/-- The nets obey the assignments for the construction of the array. -/
theorem sideEnv_constructed (ht : access.Typed types elem ops array name) (fwd back : ν → BitString)
    (fwdResult backResult : BitString) (pad : ℕ → Bool) {construct : List (Assignment (Net ν))}
    (hconstruct : constructArrayAssignments elem array ops = some construct) :
    ∀ a ∈ construct,
      a.Assigned (sideEnv ops array name fwd fwdResult back backResult) pad := by
  obtain ⟨hfwd, hback⟩ := @eval_sideEnv _ _ _ _ _ _ _ _ ht fwd back fwdResult backResult pad ops
    (List.Subset.refl ops)
  have hnets (n : Net ν) (hn : n = .fwd array ∨ n = .back array) :
      Expr.eval (sideEnv ops array name fwd fwdResult back backResult) pad (.ident n) =
        sideEnv ops array name fwd fwdResult back backResult n := rfl
  rw [forall_bindingAssignments hconstruct]
  refine ⟨fun _ => ⟨_, rfl, (drives_iff (hnets _ (.inl rfl)) hfwd ?_).mpr ?_⟩,
    fun _ => ⟨_, rfl, (drives_iff hback (hnets _ (.inr rfl)) ?_).mpr ?_⟩⟩
  all_goals rw [sideBits_array ht]

end SideBits

/-- An exact access to a range says that the bits from `start * (size * count)` on are those of the
result exactly when the accessed elements have them. -/
theorem range_exact [DecidableEq ν] {start endExclusive : ℕ}
    (ht : (ArrayAccess.range start endExclusive).Typed types elem ops array name)
    (h : (ArrayAccess.range start endExclusive : ArrayAccess ν).Within ops.length)
    (hpos : elem.backwardSize ≠ 0) (hone : endExclusive - start ≠ 1)
    (hexact : (ArrayAccess.range start endExclusive).Exact types elem ops array name)
    {bits : ν → BitString} (hbits : ∀ op ∈ ops, (bits op).length = elem.backwardSize)
    {result : BitString} (hresult : result.length = (endExclusive - start) * elem.backwardSize) :
    (∀ p, start * (elem.backwardSize * (endExclusive - start)) ≤ p →
      p ≤ start * (elem.backwardSize * (endExclusive - start)) +
        elem.backwardSize * (endExclusive - start) * (endExclusive - start) - 1 →
      p < ops.length * elem.backwardSize →
      BitString.bit (ops.map bits).reverse.flatten p =
        result.bit (p - start * (elem.backwardSize * (endExclusive - start)))) ↔
      (((ops.drop start).take (endExclusive - start)).map bits).reverse.flatten = result := by
  have hsub : (ArrayAccess.range start endExclusive).selected ops ⊆ ops :=
    fun op hop => List.mem_of_mem_drop (List.mem_of_mem_take hop)
  have hzeros : ∀ op ∈ ops, ((fun _ => List.replicate elem.size false) op).length = elem.size :=
    fun _ _ => List.length_replicate
  have hselected : ((ArrayAccess.range start endExclusive).selected ops).length =
      endExclusive - start := by
    have hle := h.le
    rw [ArrayAccess.selected, List.length_take, List.length_drop]
    exact Nat.min_eq_left (Nat.le_sub_of_add_le' hle)
  let zeros := (((ArrayAccess.range start endExclusive).selected ops).map
    fun _ => List.replicate elem.size false).reverse.flatten
  have hdecl : ∀ n ∈ name :: array :: ops, DeclaresNets
      (sideEnv ops array name (fun _ => List.replicate elem.size false) zeros bits result) n
      (types n) := by
    apply declares_sideEnv ht hzeros _ hbits hresult
    rw [length_elements fun op hop => hzeros op (hsub hop), hselected]
    rfl
  have heval := @eval_sideEnv _ _ _ _ _ _ _ _ ht (fun _ => List.replicate elem.size false) bits
    zeros result (fun _ => false) _ hsub
  have hcode : (ArrayAccess.range start endExclusive).backward elem array =
      some (.partUp (.back array) (start * (elem.backwardSize * (endExclusive - start)))
        (elem.backwardSize * (endExclusive - start) * (endExclusive - start))) := by
    rw [ArrayAccess.backward, rangeIndexArrayBackward_eq h.1.le, if_neg fun hbit => hone hbit.2]
  have hiff := hexact.backward_iff ht h hpos hdecl trivial
    (fun construct hconstruct => sideEnv_constructed ht _ _ _ _ _ hconstruct)
    (fun _ => by rw [heval.1]; exact congrArg some sideBits_name) hcode
  rw [heval.2] at hiff
  have hname : sideEnv ops array name (fun _ => List.replicate elem.size false) zeros bits result
      (.back name) = some result := congrArg some sideBits_name
  have harray : sideEnv ops array name (fun _ => List.replicate elem.size false) zeros bits result
      (.back array) = some (ops.map bits).reverse.flatten := congrArg some (sideBits_array ht)
  rw [hname, Option.some.injEq] at hiff
  refine Iff.trans ?_ hiff
  have hlen := @length_elements _ _ bits ops hbits
  constructor
  · intro hall
    refine ⟨_, _, harray, hname, fun p hlow hhigh hp => hall p hlow hhigh (hlen ▸ hp)⟩
  · rintro ⟨abits, nbits, habits, hnbits, hall⟩ p hlow hhigh hp
    obtain rfl := Option.some.inj (harray.symm.trans habits)
    obtain rfl := Option.some.inj (hname.symm.trans hnbits)
    exact hall p hlow hhigh (hlen.symm ▸ hp)

/-- Elements with the same bits at all positions. -/
theorem elements_replicate {size : ℕ} {b : Bool} {bits : ν → BitString} {members : List ν}
    (h : ∀ op ∈ members, bits op = List.replicate size b) :
    (members.map bits).reverse.flatten = List.replicate (members.length * size) b := by
  rw [List.eq_replicate_iff]
  refine ⟨length_elements fun op hop => by rw [h op hop, List.length_replicate], ?_⟩
  intro x hx
  obtain ⟨xs, hxs, hx⟩ := List.mem_flatten.mp hx
  obtain ⟨op, hop, rfl⟩ := List.mem_map.mp (List.mem_reverse.mp hxs)
  rw [h op hop] at hx
  exact (List.mem_replicate.mp hx).2

/-- A range of several elements that is not the whole array has the wrong backward bits. -/
theorem not_exact_of_range {access : ArrayAccess ν}
    (ht : access.Typed types elem ops array name) (h : access.Within ops.length)
    (hnodup : ops.Nodup) (hpos : elem.backwardSize ≠ 0) (hone : access.count ≠ 1)
    (hwhole : access.count ≠ ops.length) : ¬ access.Exact types elem ops array name := by
  classical
  intro hexact
  cases access with
  | index idx i => exact hone rfl
  | range start endExclusive =>
    have hle := h.le
    have hne := h.count_ne_zero
    have hrange {bits : ν → BitString} := @range_exact _ _ _ _ _ _ _ _ _ ht h hpos hone hexact bits
    simp only [ArrayAccess.first, ArrayAccess.count] at hle hne hone hwhole
    generalize endExclusive - start = k at *
    generalize elem.backwardSize = size at *
    have hlow : start * (size * k) = start * k * size := by ring
    have hwidth : k * size * 2 ≤ size * k * k := by
      rw [Nat.mul_comm size k]
      exact Nat.mul_le_mul_left _ (by omega)
    have hpart : 0 < k * size := Nat.mul_pos (by omega) (by omega)
    have hselected : ((ops.drop start).take k).length = k := by
      rw [List.length_take, List.length_drop]
      omega
    rcases Nat.lt_trichotomy (start * (size * k) + k * size) (ops.length * size) with
      hinside | hend | hbeyond
    · -- an element after those assigned from the result gets zeros
      have hones : ∀ members : List ν, ∀ op ∈ members,
          (fun _ => List.replicate size true) op = List.replicate size true := fun _ _ _ => rfl
      have hselected' := elements_replicate (hones ((ops.drop start).take k))
      rw [hselected] at hselected'
      have hall := (hrange (fun _ _ => List.length_replicate)
        (by rw [List.length_replicate])).mpr hselected'
      have hbit := hall (start * (size * k) + k * size) (by omega) (by omega) hinside
      rw [elements_replicate (hones ops), BitString.bit_replicate, decide_eq_true hinside,
        Nat.add_sub_cancel_left, BitString.bit_replicate, decide_eq_false (Nat.lt_irrefl _)] at hbit
      exact absurd hbit (by decide)
    · -- the last elements are assigned, not those from `start` on
      have hlast : start * k + k = ops.length := by
        rw [hlow, ← Nat.add_mul] at hend
        exact Nat.eq_of_mul_eq_mul_right (Nat.pos_of_ne_zero hpos) hend
      have hlt : start < start * k := by
        have hstart : start ≠ 0 := by
          rintro rfl
          omega
        have htwo : start * 2 ≤ start * k := Nat.mul_le_mul_left _ (by omega)
        omega
      let bits : ν → BitString := fun n =>
        if n = ops[start] then List.replicate size true else List.replicate size false
      have hbits : ∀ op ∈ ops, (bits op).length = size := by
        intro op _
        simp only [bits]
        split
        · exact List.length_replicate
        · exact List.length_replicate
      have hothers : ∀ op ∈ (ops.drop (start * k)).take k, bits op = List.replicate size false := by
        intro op hop
        refine if_neg ?_
        rintro rfl
        obtain ⟨j, hj, hget⟩ := List.mem_iff_getElem.mp (List.mem_of_mem_take hop)
        rw [List.getElem_drop, List.Nodup.getElem_inj_iff hnodup] at hget
        omega
      have hslice := @slice_elements size hpos (ops.map bits) (List.forall_mem_map.mpr hbits)
        (start * k) k hne (by rw [List.length_map, hlast])
      rw [← List.map_drop, ← List.map_take, elements_replicate hothers] at hslice
      have hlast_length : ((ops.drop (start * k)).take k).length = k := by
        rw [List.length_take, List.length_drop]
        omega
      have heq := (hrange hbits (@List.length_replicate _ (k * size) false)).mp (by
        intro p hplow _ hp
        obtain ⟨q, rfl⟩ := Nat.exists_eq_add_of_le hplow
        have hlen := length_elements hbits
        rw [hlow] at hp hend ⊢
        rw [← @BitString.bit_slice _ (start * k * size + k * size - 1) _ q (by omega) (by omega)
          (by omega), hslice, hlast_length, Nat.add_sub_cancel_left])
      have hmem : true ∈ List.replicate (k * size) false := by
        have hfirst : bits ops[start] = List.replicate size true := if_pos rfl
        rw [← heq, List.mem_flatten]
        refine ⟨bits ops[start], ?_, ?_⟩
        · rw [List.mem_reverse]
          refine List.mem_map_of_mem (List.mem_iff_getElem.mpr ⟨0, by omega, ?_⟩)
          rw [List.getElem_take, List.getElem_drop]
          rfl
        · rw [hfirst]
          exact List.mem_replicate.mpr ⟨hpos, rfl⟩
      exact absurd (List.mem_replicate.mp hmem).2 (by decide)
    · -- the last bit of the result is lost
      have hzeros : ∀ members : List ν, ∀ op ∈ members,
          (fun _ => List.replicate size false) op = List.replicate size false := fun _ _ _ => rfl
      have hselected' := elements_replicate (hzeros ((ops.drop start).take k))
      have heq := (@hrange (fun _ => List.replicate size false) (fun _ _ => List.length_replicate)
        (true :: List.replicate (k * size - 1) false)
        (by rw [List.length_cons, List.length_replicate]; omega)).mp (by
          intro p hplow _ hp
          rw [elements_replicate (hzeros ops), BitString.bit_replicate, Bool.and_false,
            ← List.singleton_append, BitString.bit_append, List.length_replicate,
            if_pos (by omega), BitString.bit_replicate, Bool.and_false])
      rw [hselected'] at heq
      have hmem : true ∈ List.replicate (((ops.drop start).take k).length * size) false := by
        rw [heq]
        exact List.mem_cons_self
      exact absurd (List.mem_replicate.mp hmem).2 (by decide)

end Converse

/-- **Accesses.** In all programs the access to an array of `length` elements yields exactly the
accessed elements, in both directions, if and only if the array is no scalar in either direction and
a range with backward bits is one element or the whole array. -/
theorem access_exact_iff [Infinite ν] (elem : Ty) {length : ℕ} {access : ArrayAccess ν}
    (h : access.Within length) :
    (∀ types ops array name, ops.length = length → access.Typed types elem ops array name →
      access.Exact types elem ops array name) ↔
    elem.size * length ≠ 1 ∧ elem.backwardSize * length ≠ 1 ∧
      (elem.backwardSize = 0 ∨ access.count = 1 ∨ access.count = length) := by
  classical
  constructor
  · intro hexact
    -- different names for all values
    let names := Infinite.natEmbedding ν
    let ops := (List.range length).map names
    have hlength : ops.length = length := by
      rw [List.length_map, List.length_range]
    have hnodup : ops.Nodup := List.nodup_range.map names.injective
    have hfresh : ∀ i, length ≤ i → names i ∉ ops := by
      intro i hi hmem
      obtain ⟨j, hj, hij⟩ := List.mem_map.mp hmem
      have hlt := List.mem_range.mp hj
      have heq := names.injective hij
      omega
    have hne : names (length + 1) ≠ names length := by
      intro heq
      have hsucc := names.injective heq
      omega
    let types : ν → Ty := fun n =>
      if n = names length then .array elem length
      else if n = names (length + 1) then access.resultType elem else elem
    have ht : access.Typed types elem ops (names length) (names (length + 1)) := by
      refine ⟨fun op hop => ?_, ?_, ?_, hfresh _ le_rfl, hfresh _ (Nat.le_succ _), hne⟩
      · have harray : op ≠ names length := fun heq => hfresh _ le_rfl (heq ▸ hop)
        have hname : op ≠ names (length + 1) := fun heq => hfresh _ (Nat.le_succ _) (heq ▸ hop)
        exact (if_neg harray).trans (if_neg hname)
      · rw [hlength]
        exact if_pos rfl
      · exact (if_neg hne).trans (if_pos rfl)
    have hthis := hexact types ops _ _ hlength ht
    rw [← hlength] at h ⊢
    obtain ⟨construct, assigns, hconstruct, hassigns, hlegal, -⟩ := id hthis
    obtain ⟨hfwd, hback⟩ := (legal_iff ht h hconstruct hassigns).mp hlegal
    refine ⟨hfwd, hback, ?_⟩
    by_contra hneither
    push Not at hneither
    exact not_exact_of_range ht h hnodup hneither.1 hneither.2.1 hneither.2.2 hthis
  · rintro ⟨hfwd, hback, hcount⟩ types ops array name rfl ht
    exact exact_of_whole ht h hfwd hback hcount

instance : Infinite ValueName := Infinite.of_injective ValueName.expr fun _ _ h => by
  injection h

theorem access_exact_iff_bool :
    (∀ types ops array name, ops.length = 2 →
      (ArrayAccess.index (.expr 0) 1 : ArrayAccess ValueName).Typed types .bool ops array name →
      (ArrayAccess.index (.expr 0) 1).Exact types .bool ops array name) ↔
    Ty.bool.size * 2 ≠ 1 ∧ Ty.bool.backwardSize * 2 ≠ 1 ∧
      (Ty.bool.backwardSize = 0 ∨
        (ArrayAccess.index (.expr 0) 1 : ArrayAccess ValueName).count = 1 ∨
        (ArrayAccess.index (.expr 0) 1 : ArrayAccess ValueName).count = 2) :=
  access_exact_iff .bool (show 1 < 2 by decide)

/-- Three elements of type `inv bool` in `expr 0` to `expr 2`, the array of them in `expr 3`, and
its first two elements in `expr 4`. -/
def invTypes : ValueName → Ty
  | .expr 3 => .array (.backward .bool) 3
  | .expr 4 => .array (.backward .bool) 2
  | _ => .backward .bool

/-- The first two of three elements with one backward bit: the third one gets a bit as well. -/
theorem invRange_not_exact :
    ¬ (ArrayAccess.range 0 2 : ArrayAccess ValueName).Exact invTypes (.backward .bool)
      [.expr 0, .expr 1, .expr 2] (.expr 3) (.expr 4) := by
  refine not_exact_of_range ⟨?_, rfl, rfl, by decide, by decide, by decide⟩ ⟨by decide, by decide⟩
    (by decide) (by decide) (by decide) (by decide)
  simp only [List.forall_mem_cons, List.not_mem_nil, invTypes, false_implies, implies_true,
    and_self]

end Spade.Mir

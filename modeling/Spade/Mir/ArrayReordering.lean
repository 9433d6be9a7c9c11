import Spade.Mir.ArrayRoundTrip

/-!
# Reversed and joined arrays

The Verilog for `flip_array`, which `handle_flip_array` lowers to `Operator::Bitreverse`, and for
`concat_arrays`, which is an `unsafe_cast` of the tuple of its arguments in the other order.

* **Bits** (`bitreverse_holds_iff`): the loop of `Operator::Bitreverse` reverses the bits of the
  whole array.
* **Elements** (`flipsArray_iff`): this moves whole elements when these have one bit. The loop is
  legal when the array is no scalar and its variable is an identifier, which it is not for a result
  whose name is escaped.
* **Concatenation** (`concatenatesArrays_iff`): the cast of the tuple joins arrays of any elements
  without backward bits.
-/

namespace Spade.Mir

open Verilog

/-! ### Names -/

/-- `Display` of a `ValueName`, which is the text of a variable. -/
def ValueName.unescapedVarName : ValueName → String
  | .named id name =>
      if id = 0 ∧ name ≠ "new" then name else name ++ "_n" ++ toString id
  | .expr id => "_e_" ++ toString id

def ValueName.needsEscaping : ValueName → Bool
  | .named id _ => id == 0
  | .expr _ => false

def ValueName.varName (name : ValueName) : String :=
  if name.needsEscaping then "\\" ++ name.unescapedVarName ++ " " else name.unescapedVarName

/-- The name is not escaped and has no characters that Verilog allows in escaped names only. -/
def ValueName.IsPlain : ValueName → Prop
  | .named id name => id ≠ 0 ∧ IsWord name.toList
  | .expr _ => True

/-! ### Emitted code -/

/-- `genvar g; for (g = 0; g < bound; g = g + 1) begin … end` with one assignment. -/
structure GenerateLoop (ν : Type) where
  genvar : String
  bound : ℕ
  body : ℕ → Assignment ν

/-- The assignments that the loop stands for. -/
def GenerateLoop.unrolled {ν : Type} (loop : GenerateLoop ν) : List (Assignment ν) :=
  (List.range loop.bound).map loop.body

/-- `Operator::Bitreverse` in `statement_code`: `none` where `backward_expression_code` panics. -/
def bitreverseCode (name : ValueName) (ty : Ty) (op : ValueName) :
    Option (GenerateLoop (Net ValueName)) :=
  if ty.backwardSize ≠ 0 then none
  else
    some
      { genvar := name.varName ++ "_i"
        bound := ty.size
        body := fun i => ⟨.bit (.fwd name) i, .bit (.fwd op) (ty.size - 1 - i)⟩ }

variable {ν : Type}

/-- `Operator::ZeroExtend` in `forward_expression_code`. -/
def zeroExtendCode (extraBits : ℕ) (op : ν) : Expr (Net ν) :=
  if extraBits = 0 then .ident (.fwd op) else .concat [.sized extraBits 0, .ident (.fwd op)]

/-- The assignments for `handle_unsafe_cast`: `none` for its errors. -/
def unsafeCastAssignments (selfType inputType : Ty) (name op : ν) :
    Option (List (Assignment (Net ν))) :=
  if selfType.backwardSize ≠ 0 then none
  else if inputType.backwardSize ≠ 0 then none
  else if selfType.size ≠ inputType.size then none
  else
    let extraBits := if selfType.size > inputType.size then selfType.size - inputType.size else 0
    bindingAssignments name selfType (some (zeroExtendCode extraBits op)) none

/-! ### What the functions are for -/

/-- The code of `IndexArray` has this value, for an array with the bits `xs` and an index `i`. -/
def ReadsElement (elem : Ty) (xs : BitString) (i : ℕ) (element : BitString) : Prop :=
  ∀ (env : Net ValueName → Option BitString) (pad : ℕ → Bool) (array index : Net ValueName)
    (ibits : BitString), env array = some xs → env index = some ibits → ibits.toNat = i →
    Expr.eval env pad (indexArrayCode elem array index) = some element

/-- Element `i` of the array `x` is element `j` of the array `y`. -/
def SameElement (elem : Ty) (env : Net ν → Option BitString) (x : ν) (i : ℕ) (y : ν) (j : ℕ) :
    Prop :=
  ∃ xs ys element, env (.fwd x) = some xs ∧ env (.fwd y) = some ys ∧
    ReadsElement elem xs i element ∧ ReadsElement elem ys j element

/-- The code for `name = flip_array(op)` is legal, and element `i` of the result is the element of
`op` that is as far from the other end. -/
def FlipsArray (types : ValueName → Ty) (elem : Ty) (n : ℕ) (name op : ValueName) : Prop :=
  ∃ loop, bitreverseCode name (types name) op = some loop ∧ IsIdentifier loop.genvar ∧
    (∀ a ∈ loop.unrolled, a.Legal types) ∧
    ∀ env pad, (∀ x ∈ [name, op], DeclaresNets env x (types x)) →
      (∀ a ∈ loop.unrolled, a.Holds env pad) →
      ∀ i < n, SameElement elem env name i op (n - 1 - i)

/-- The code for `name = concat_arrays(l, r)` is legal, and the result has the elements of `l` and
then those of `r`. -/
def ConcatenatesArrays (types : ν → Ty) (elem : Ty) (lhsLength rhsLength : ℕ)
    (name tuple l r : ν) : Prop :=
  ∃ construct cast, constructTupleAssignments types tuple [r, l] = some construct ∧
    unsafeCastAssignments (types name) (types tuple) name tuple = some cast ∧
    (∀ a ∈ construct ++ cast, a.Legal types) ∧
    ∀ env pad, (∀ x ∈ [name, tuple, l, r], DeclaresNets env x (types x)) →
      (∀ a ∈ construct ++ cast, a.Holds env pad) →
      (∀ i < lhsLength, SameElement elem env name i l i) ∧
      ∀ i, lhsLength ≤ i → i < lhsLength + rhsLength →
        SameElement elem env name i r (i - lhsLength)

/-! ### The name of the loop variable -/

/-- The number and the suffix behind a text end an identifier. -/
theorem isWord_numbered_iff (text : List Char) {first : Char} {rest : List Char}
    (hfirst : identStart first) (hrest : (first :: rest).all identRest) (id : ℕ) :
    IsWord (text ++ (first :: rest ++ (toString id).toList ++ "_i".toList)) ↔ IsWord text := by
  have hsuffix : ∀ c ∈ "_i".toList, identRest c := List.all_eq_true.mp (by decide)
  apply isWord_append_iff
  · intro c hc
    obtain rfl : first = c := by simpa using hc
    exact hfirst
  · intro c hc
    rcases List.mem_append.mp hc with hc | hc
    · rcases List.mem_append.mp hc with hc | hc
      · exact List.all_eq_true.mp hrest c hc
      · rw [Nat.toString_eq_ofList_toDigits, String.toList_ofList] at hc
        have hdigit := Nat.isDigit_of_mem_toDigits (by decide) (le_refl 10) hc
        simp [identRest, Char.isAlphanum, hdigit]
    · exact hsuffix c hc

/-- **Identifier.** The variable of the loop is one identifier exactly when the name is plain. -/
theorem isIdentifier_genvar_iff (name : ValueName) :
    IsIdentifier (name.varName ++ "_i") ↔ name.IsPlain := by
  have hlast (text : String) : (text ++ "_i").toList.getLast? = some 'i' := by
    rw [String.toList_append]
    exact List.getLast?_append_of_ne_nil _ (by decide)
  rw [isIdentifier_iff_of_getLast? (hlast _) (by decide)]
  cases name with
  | expr id =>
      refine iff_of_true ?_ trivial
      have hword := (@isWord_numbered_iff [] '_' ['e', '_'] (by decide) (by decide) id).mpr
        ⟨nofun, nofun⟩
      simpa [ValueName.varName, ValueName.needsEscaping, ValueName.unescapedVarName] using hword
  | named id name =>
      by_cases hid : id = 0
      · -- the text starts with the backslash of the escaped name
        subst hid
        refine iff_of_false (fun hword => ?_) fun h => h.1 rfl
        have hstart := hword.1 '\\'
          (by simp [ValueName.varName, ValueName.needsEscaping])
        exact absurd hstart (by decide)
      · have hword := @isWord_numbered_iff name.toList '_' ['n'] (by decide) (by decide) id
        simpa [ValueName.varName, ValueName.needsEscaping, ValueName.unescapedVarName, hid,
          ValueName.IsPlain] using hword

/-! ### Reading an element -/

theorem readsElement_slice {elem : Ty} {xs : BitString} {n i : ℕ} (hpos : elem.size ≠ 0)
    (hlen : xs.length = n * elem.size) (hi : i < n) :
    ReadsElement elem xs i (xs.slice (i * elem.size + 1 * elem.size - 1) (i * elem.size)) :=
  fun _ _ _ _ _ harray hindex hvalue => eval_index harray hlen hindex hvalue hpos hi

/-- An element is all that the code reads. -/
theorem ReadsElement.eq_slice {elem : Ty} {xs element : BitString} {n i : ℕ}
    (h : ReadsElement elem xs i element) (hpos : elem.size ≠ 0)
    (hlen : xs.length = n * elem.size) (hi : i < n) :
    element = xs.slice (i * elem.size + 1 * elem.size - 1) (i * elem.size) := by
  let env : Net ValueName → Option BitString :=
    fun net => if net = .fwd (.expr 0) then some xs else some (BitString.ofNat i i)
  have hindex : BitString.toNat (BitString.ofNat i i) = i :=
    BitString.toNat_ofNat_of_lt Nat.lt_two_pow_self
  have hread := h env (fun _ => false) (.fwd (.expr 0)) (.fwd (.expr 1)) _ rfl rfl hindex
  have heval := readsElement_slice hpos hlen hi env (fun _ => false) (.fwd (.expr 0))
    (.fwd (.expr 1)) _ rfl rfl hindex
  exact Option.some.inj (hread.symm.trans heval)

theorem exists_readsElement_low {elem : Ty} {high low : BitString} {m n i : ℕ}
    (hpos : elem.size ≠ 0) (hhigh : high.length = m * elem.size)
    (hlow : low.length = n * elem.size) (hi : i < n) :
    ∃ element, ReadsElement elem (high ++ low) i element ∧ ReadsElement elem low i element := by
  have hbounds := @mul_bounds elem.size i 1 n hpos one_ne_zero hi
  have hlen : (high ++ low).length = (m + n) * elem.size := by
    rw [List.length_append, hhigh, hlow, Nat.add_mul]
  have hread := readsElement_slice hpos hlen (Nat.lt_add_left m hi)
  rw [BitString.slice_append_low (hlow ▸ hbounds.2)] at hread
  exact ⟨_, hread, readsElement_slice hpos hlow hi⟩

theorem exists_readsElement_high {elem : Ty} {high low : BitString} {m n i : ℕ}
    (hpos : elem.size ≠ 0) (hhigh : high.length = m * elem.size)
    (hlow : low.length = n * elem.size) (hi : i < m) :
    ∃ element, ReadsElement elem (high ++ low) (n + i) element ∧
      ReadsElement elem high i element := by
  have hbounds := @mul_bounds elem.size i 1 m hpos one_ne_zero hi
  have hlen : (high ++ low).length = (n + m) * elem.size := by
    rw [List.length_append, hhigh, hlow, Nat.add_mul, Nat.add_comm]
  have hread := readsElement_slice hpos hlen (Nat.add_lt_add_left hi n)
  have hright : (n + i) * elem.size = i * elem.size + low.length := by
    rw [hlow, Nat.add_mul, Nat.add_comm]
  have hleft : (n + i) * elem.size + 1 * elem.size - 1 =
      i * elem.size + 1 * elem.size - 1 + low.length := by
    rw [hright]
    omega
  rw [hleft, hright, BitString.slice_append_high hbounds.1 (hhigh ▸ hbounds.2)] at hread
  exact ⟨_, hread, readsElement_slice hpos hhigh hi⟩

/-! ### Reversed arrays -/

theorem drives_bit_iff {env : Net ν → Option BitString} {pad : ℕ → Bool} {x y : Net ν}
    {xs ys : BitString} {i j : ℕ} (hx : env x = some xs) (hy : env y = some ys)
    (hi : i < xs.length) (hj : j < ys.length) :
    Assignment.Holds env pad ⟨.bit x i, .bit y j⟩ ↔ xs.bit i = ys.bit j := by
  have hdrives := @drives_iff _ env pad _ _ _ _ (Expr.eval_bit hx hi) (Expr.eval_bit hy hj) (by
    rw [BitString.length_slice (le_refl j) hj, BitString.length_slice (le_refl i) hi]
    omega)
  rw [BitString.slice_self hi, BitString.slice_self hj, List.singleton_inj] at hdrives
  exact hdrives

/-- **Bits.** The loop says that the result has the bits of the operand in the other order. -/
theorem bitreverse_holds_iff {name op : ValueName} {ty : Ty} {loop : GenerateLoop (Net ValueName)}
    (hloop : bitreverseCode name ty op = some loop) {env : Net ValueName → Option BitString}
    {pad : ℕ → Bool} {xs ys : BitString} (hx : env (.fwd name) = some xs)
    (hy : env (.fwd op) = some ys) (hxlen : xs.length = ty.size) (hylen : ys.length = ty.size) :
    (∀ a ∈ loop.unrolled, a.Holds env pad) ↔ xs = ys.reverse := by
  unfold bitreverseCode at hloop
  split_ifs at hloop with hback
  obtain rfl := Option.some.inj hloop
  rw [GenerateLoop.unrolled, List.forall_mem_map]
  constructor
  · intro h
    apply BitString.ext_bit (by rw [List.length_reverse, hxlen, hylen])
    intro p hp
    have hbit := (drives_bit_iff hx hy hp (by omega)).mp (h p (List.mem_range.mpr (hxlen ▸ hp)))
    rw [hbit, BitString.bit_reverse (by omega), hylen]
  · rintro rfl p hp
    have hp' : p < ty.size := List.mem_range.mp hp
    apply (drives_bit_iff hx hy (by omega) (by omega)).mpr
    rw [BitString.bit_reverse (by omega), hylen]

section Flip

variable {types : ValueName → Ty} {elem : Ty} {n : ℕ} {name op : ValueName}

/-- The loop selects bits of both arrays. -/
theorem bitreverse_legal_iff (hname : types name = .array elem n)
    (hop : types op = .array elem n) (hsize : elem.size * n ≠ 0)
    {loop : GenerateLoop (Net ValueName)}
    (hloop : bitreverseCode name (types name) op = some loop) :
    (∀ a ∈ loop.unrolled, a.Legal types) ↔ elem.size * n ≠ 1 := by
  unfold bitreverseCode at hloop
  split_ifs at hloop with hback
  obtain rfl := Option.some.inj hloop
  rw [GenerateLoop.unrolled, List.forall_mem_map]
  constructor
  · intro h
    have hzero : 0 ∈ List.range (types name).size := by
      rw [hname]
      exact List.mem_range.mpr (Nat.pos_of_ne_zero hsize)
    have hlegal := h 0 hzero (.fwd name) (.inl rfl)
    rwa [netSize, hname] at hlegal
  · rintro h i _ net (hnet | hnet)
    · obtain rfl := Option.some.inj hnet
      rwa [netSize, hname]
    · obtain rfl := Option.some.inj hnet
      rwa [netSize, hop]

/-- Elements of one bit are moved. -/
theorem flipsArray_of_bit (hname : types name = .array elem n) (hop : types op = .array elem n)
    (hbit : elem.size = 1) (hback : elem.backwardSize = 0) (hn : 2 ≤ n) (hplain : name.IsPlain) :
    FlipsArray types elem n name op := by
  have hsize : (types name).size = n := by rw [hname, Ty.size, hbit, Nat.one_mul]
  have hopsize : (types op).size = n := by rw [hop, Ty.size, hbit, Nat.one_mul]
  have hloop : ∃ loop, bitreverseCode name (types name) op = some loop ∧
      loop.genvar = name.varName ++ "_i" := by
    unfold bitreverseCode
    rw [if_neg (by simp [hname, Ty.backwardSize, hback])]
    exact ⟨_, rfl, rfl⟩
  obtain ⟨loop, hloop, hgenvar⟩ := hloop
  refine ⟨loop, hloop, ?_, ?_, fun env pad hdecl hholds i hi => ?_⟩
  · rw [hgenvar]
    exact (isIdentifier_genvar_iff name).mpr hplain
  · apply (bitreverse_legal_iff hname hop _ hloop).mpr
    · rw [hbit]
      omega
    · rw [hbit]
      omega
  · obtain ⟨xs, hxs, hxlen⟩ := (hdecl name (by simp)).fwd (by omega)
    obtain ⟨ys, hys, hylen⟩ := (hdecl op (by simp)).fwd (by omega)
    have hrev := (bitreverse_holds_iff hloop hxs hys hxlen (by omega)).mp hholds
    have hread {zs : BitString} {j : ℕ} (hlen : zs.length = n) (hj : j < n) :
        ReadsElement elem zs j [zs.bit j] := by
      have hslice := @readsElement_slice elem zs n j (by omega)
        (by rw [hbit, Nat.mul_one]; exact hlen) hj
      rw [hbit, Nat.mul_one, Nat.mul_one, Nat.add_sub_cancel,
        BitString.slice_self (by omega)] at hslice
      exact hslice
    refine ⟨xs, ys, [xs.bit i], hxs, hys, hread (by omega) hi, ?_⟩
    have hbits : xs.bit i = ys.bit (n - 1 - i) := by
      rw [hrev, BitString.bit_reverse (by omega), hylen, hopsize]
    rw [hbits]
    exact hread (by omega) (by omega)

/-- Of an element with more bits, the other end comes first. -/
theorem size_eq_one_of_flipsArray (hname : types name = .array elem n)
    (hop : types op = .array elem n) (hne : name ≠ op) (hpos : elem.size ≠ 0) (hn : n ≠ 0)
    (hback : elem.backwardSize = 0) (h : FlipsArray types elem n name op) : elem.size = 1 := by
  obtain ⟨loop, hloop, -, -, hflips⟩ := h
  by_contra hsize
  obtain ⟨m, rfl⟩ := Nat.exists_eq_succ_of_ne_zero hn
  let ys := BitString.ofNat (elem.size * (m + 1)) 1
  let env : Net ValueName → Option BitString :=
    fun net => if net = .fwd name then some ys.reverse else some ys
  have hylen : ys.length = (m + 1) * elem.size :=
    (BitString.length_ofNat _ _).trans (Nat.mul_comm _ _)
  have hxlen : ys.reverse.length = (m + 1) * elem.size := ys.length_reverse.trans hylen
  have htypes : ∀ x ∈ [name, op], types x = .array elem (m + 1) := by simp [hname, hop]
  have hx : env (.fwd name) = some ys.reverse := if_pos rfl
  have hy : env (.fwd op) = some ys := if_neg fun heq => hne (Net.fwd.inj heq).symm
  have hdecl : ∀ x ∈ [name, op], DeclaresNets env x (types x) := by
    intro x hmem
    rw [htypes x hmem]
    constructor
    · intro _
      rw [Ty.size, Nat.mul_comm]
      rcases eq_or_ne x name with rfl | hxne
      · exact ⟨_, hx, hxlen⟩
      · exact ⟨ys, if_neg fun heq => hxne (Net.fwd.inj heq), hylen⟩
    · intro hne
      exact absurd (by rw [Ty.backwardSize, hback, Nat.zero_mul]) hne
  have hholds := (@bitreverse_holds_iff _ _ _ _ hloop env (fun _ => false) _ _ hx hy
    (by rw [hxlen, hname, Ty.size, Nat.mul_comm])
    (by rw [hylen, hname, Ty.size, Nat.mul_comm])).mpr rfl
  obtain ⟨xs', ys', element, hxs', hys', hread, hread'⟩ :=
    hflips env (fun _ => false) hdecl hholds m (Nat.lt_succ_self m)
  obtain rfl := Option.some.inj (hx.symm.trans hxs')
  obtain rfl := Option.some.inj (hy.symm.trans hys')
  rw [Nat.succ_sub_one, Nat.sub_self] at hread'
  -- the lowest bits of the last element of the result and of the first one of the operand
  have hlast := congrArg (BitString.bit · 0) (hread.eq_slice hpos hxlen (Nat.lt_succ_self m))
  have hfirst := congrArg (BitString.bit · 0) (hread'.eq_slice hpos hylen (Nat.succ_pos m))
  have hsucc : (m + 1) * elem.size = m * elem.size + elem.size := Nat.succ_mul _ _
  simp only [Nat.zero_mul, Nat.one_mul, Nat.zero_add] at hlast hfirst
  rw [BitString.bit_slice (by omega) (by omega) (by omega), Nat.add_zero,
    BitString.bit_reverse (by omega)] at hlast
  rw [BitString.bit_slice (Nat.zero_le _) (by omega) (by omega), hlast] at hfirst
  have hbit (p : ℕ) : ys.bit p = true ↔ p = 0 := by
    have hone : 1 < 2 ^ (elem.size * (m + 1)) :=
      Nat.one_lt_two_pow (Nat.mul_ne_zero hpos (Nat.succ_ne_zero m))
    rw [BitString.bit, BitString.toNat_ofNat_of_lt hone]
    exact Nat.testBit_one_eq_true_iff_self_eq_zero
  have hzero := (hbit _).mp (hfirst.trans ((hbit 0).mpr rfl))
  omega

/-- **Elements.** -/
theorem flipsArray_iff (hname : types name = .array elem n) (hop : types op = .array elem n)
    (hne : name ≠ op) (hpos : elem.size ≠ 0) (hn : n ≠ 0) :
    FlipsArray types elem n name op ↔
      elem.size = 1 ∧ elem.backwardSize = 0 ∧ 2 ≤ n ∧ name.IsPlain := by
  constructor
  · intro h
    obtain ⟨loop, hloop, hident, hlegal, -⟩ := id h
    have hback : elem.backwardSize = 0 := by
      unfold bitreverseCode at hloop
      split_ifs at hloop with hback
      rw [hname, Ty.backwardSize, not_not] at hback
      exact (Nat.mul_eq_zero.mp hback).resolve_right hn
    have hbit := size_eq_one_of_flipsArray hname hop hne hpos hn hback h
    have hwide := (bitreverse_legal_iff hname hop (Nat.mul_ne_zero hpos hn) hloop).mp hlegal
    rw [hbit] at hwide
    refine ⟨hbit, hback, by omega, ?_⟩
    unfold bitreverseCode at hloop
    split_ifs at hloop
    obtain rfl := Option.some.inj hloop
    exact (isIdentifier_genvar_iff name).mp hident
  · rintro ⟨hbit, hback, htwo, hplain⟩
    exact flipsArray_of_bit hname hop hbit hback htwo hplain

end Flip

/-! ### Joined arrays -/

section Concat

variable {types : ν → Ty} {elem : Ty} {lhsLength rhsLength : ℕ} {name tuple l r : ν}

theorem unsafeCastAssignments_eq_some_iff {selfType inputType : Ty}
    {cast : List (Assignment (Net ν))} :
    unsafeCastAssignments selfType inputType name tuple = some cast ↔
      selfType.backwardSize = 0 ∧ inputType.backwardSize = 0 ∧ selfType.size = inputType.size ∧
        bindingAssignments name selfType (some (.ident (.fwd tuple))) none = some cast := by
  unfold unsafeCastAssignments
  split_ifs with hself hinput hsize hgt
  · simp [hself]
  · simp [hinput]
  · simp [hsize]
  · omega
  · rw [not_not] at hself hinput hsize
    simp [hself, hinput, hsize, zeroExtendCode]

/-- The assignments to the tuple and to the result say that the result has the bits of both arrays,
those of the first one at the end. -/
theorem concat_holds {env : Net ν → Option BitString} {pad : ℕ → Bool}
    (htuple : types tuple = .tuple [types r, types l]) (hpos : (types name).size ≠ 0)
    (hdecl : ∀ x ∈ [name, tuple, l, r], DeclaresNets env x (types x))
    {construct cast : List (Assignment (Net ν))}
    (hconstruct : constructTupleAssignments types tuple [r, l] = some construct)
    (hcast : unsafeCastAssignments (types name) (types tuple) name tuple = some cast)
    (hholds : ∀ a ∈ construct ++ cast, a.Holds env pad) :
    env (.fwd name) = some (netBits env (types r).size (.fwd r) ++
      netBits env (types l).size (.fwd l)) := by
  obtain ⟨-, -, hsize, hcast⟩ := unsafeCastAssignments_eq_some_iff.mp hcast
  obtain ⟨nbits, hnbits, hnlen⟩ := (hdecl name (by simp)).fwd hpos
  obtain ⟨tbits, htbits, htlen⟩ := (hdecl tuple (by simp)).fwd (hsize ▸ hpos)
  have hmembers (x : ν) (hx : x ∈ [r, l]) :=
    netBits_spec (hdecl x (by simp at hx ⊢; tauto)).fwd
  have hconcat := @eval_concat_filter _ env pad Net.fwd (fun x => (types x).size)
    (fun x => netBits env (types x).size (.fwd x)) [r, l] (fun x hx => (hmembers x hx).1)
    (fun x hx => (hmembers x hx).2)
  have hlen := length_flatten_map (fun x => (types x).size)
    (fun x => netBits env (types x).size (.fwd x)) (fun x hx => (hmembers x hx).1)
  have hcasted := (forall_bindingAssignments hcast (·.Holds env pad)).mp
    fun a ha => hholds a (List.mem_append_right _ ha)
  have hconstructed := (forall_bindingAssignments hconstruct (·.Holds env pad)).mp
    fun a ha => hholds a (List.mem_append_left _ ha)
  obtain ⟨_, hcode, hname⟩ := hcasted.1 hpos
  obtain rfl := Option.some.inj hcode
  have htuple' : (types tuple).size = (Ty.tuple ([r, l].map types)).size := by rw [htuple]; rfl
  obtain ⟨_, hcode, hbits⟩ := hconstructed.1 (htuple' ▸ hsize ▸ hpos)
  obtain rfl := Option.some.inj hcode
  have heq := (drives_iff (show Expr.eval env pad (.ident (.fwd name)) = _ from hnbits)
    (show Expr.eval env pad (.ident (.fwd tuple)) = _ from htbits) (by omega)).mp hname
  have heq' := (drives_iff (show Expr.eval env pad (.ident (.fwd tuple)) = _ from htbits)
    hconcat (by rw [hlen, htlen, htuple', Ty.size_tuple_map])).mp hbits
  rw [hnbits, heq, heq']
  simp

/-- **Concatenation.** -/
theorem concatenatesArrays_iff (hname : types name = .array elem (lhsLength + rhsLength))
    (hl : types l = .array elem lhsLength) (hr : types r = .array elem rhsLength)
    (htuple : types tuple = .tuple [types r, types l]) (hpos : elem.size ≠ 0)
    (hlength : lhsLength + rhsLength ≠ 0) :
    ConcatenatesArrays types elem lhsLength rhsLength name tuple l r ↔ elem.backwardSize = 0 := by
  have hsize : (types name).size = (lhsLength + rhsLength) * elem.size := by
    rw [hname, Ty.size, Nat.mul_comm]
  have hlsize : (types l).size = lhsLength * elem.size := by rw [hl, Ty.size, Nat.mul_comm]
  have hrsize : (types r).size = rhsLength * elem.size := by rw [hr, Ty.size, Nat.mul_comm]
  have hback : (types name).backwardSize = elem.backwardSize * (lhsLength + rhsLength) := by
    rw [hname, Ty.backwardSize]
  constructor
  · rintro ⟨construct, cast, -, hcast, -, -⟩
    have hzero := (unsafeCastAssignments_eq_some_iff.mp hcast).1
    rw [hback] at hzero
    exact (Nat.mul_eq_zero.mp hzero).resolve_right hlength
  · intro hzero
    have hsum : (types tuple).size = (types name).size := by
      rw [hsize, Nat.add_mul, ← hlsize, ← hrsize, htuple]
      simp [Ty.size, Ty.sizeSum, Nat.add_comm]
    have hbackTuple : (types tuple).backwardSize = 0 := by
      rw [htuple, hl, hr]
      simp [Ty.backwardSize, Ty.backwardSizeSum, hzero]
    have hnoBack : (types name).backwardSize = 0 := by rw [hback, hzero, Nat.zero_mul]
    have hconstruct : ∃ construct,
        constructTupleAssignments types tuple [r, l] = some construct := by
      apply (bindingAssignments_spec (fun _ => ⟨_, rfl⟩) fun _ => ⟨_, rfl⟩).imp
      exact fun _ h => h.1
    have hcast : ∃ cast, bindingAssignments name (types name)
        (some (.ident (.fwd tuple))) none = some cast := by
      apply (bindingAssignments_spec (fun _ => ⟨_, rfl⟩) fun hne => absurd hnoBack hne).imp
      exact fun _ h => h.1
    obtain ⟨construct, hconstruct⟩ := hconstruct
    obtain ⟨cast, hcast⟩ := hcast
    have hunsafe := unsafeCastAssignments_eq_some_iff.mpr ⟨hnoBack, hbackTuple, hsum.symm, hcast⟩
    refine ⟨construct, cast, hconstruct, hunsafe, ?_, fun env pad hdecl hholds => ?_⟩
    · -- nothing is selected from a net
      have hlegal {target value : Expr (Net ν)} (ht : target.selectsFrom = none)
          (hv : value.selectsFrom = none) : Assignment.Legal types ⟨target, value⟩ := by
        rintro n (hn | hn)
        · exact absurd (hn.symm.trans ht) (Option.some_ne_none _)
        · exact absurd (hn.symm.trans hv) (Option.some_ne_none _)
      intro a ha
      rcases List.mem_append.mp ha with ha | ha
      · exact (forall_bindingAssignments hconstruct (·.Legal types)).mpr
          ⟨fun _ => ⟨_, rfl, hlegal rfl rfl⟩, fun _ => ⟨_, rfl, hlegal rfl rfl⟩⟩ a ha
      · exact (forall_bindingAssignments hcast (·.Legal types)).mpr
          ⟨fun _ => ⟨_, rfl, hlegal rfl rfl⟩, fun hne => absurd hnoBack hne⟩ a ha
    · have hbits := concat_holds htuple (by rw [hsize]; exact Nat.mul_ne_zero hlength hpos) hdecl
        hconstruct hunsafe hholds
      obtain ⟨hllen, hlbits⟩ := netBits_spec (hdecl l (by simp)).fwd
      obtain ⟨hrlen, hrbits⟩ := netBits_spec (hdecl r (by simp)).fwd
      have hpositive {k : ℕ} (hk : k ≠ 0) : k * elem.size ≠ 0 := Nat.mul_ne_zero hk hpos
      constructor
      · intro i hi
        have hne : (types l).size ≠ 0 := by
          rw [hlsize]
          exact hpositive (Nat.ne_zero_of_lt hi)
        obtain ⟨element, hread, hread'⟩ := exists_readsElement_low hpos (hrlen.trans hrsize)
          (hllen.trans hlsize) hi
        exact ⟨_, _, element, hbits, hlbits hne, hread, hread'⟩
      · intro i hle hi
        obtain ⟨j, rfl⟩ := Nat.exists_eq_add_of_le hle
        have hj : j < rhsLength := Nat.lt_of_add_lt_add_left hi
        have hne : (types r).size ≠ 0 := by
          rw [hrsize]
          exact hpositive (Nat.ne_zero_of_lt hj)
        obtain ⟨element, hread, hread'⟩ := exists_readsElement_high hpos (hrlen.trans hrsize)
          (hllen.trans hlsize) hj
        rw [Nat.add_sub_cancel_left]
        exact ⟨_, _, element, hbits, hrbits hne, hread, hread'⟩

end Concat

/-! ### Both functions -/

/-- The values of the calls `flipped = flip_array(op)` and `joined = concat_arrays(l, r)`. -/
structure ReorderingCalls where
  flipped : ValueName
  op : ValueName
  joined : ValueName
  tuple : ValueName
  l : ValueName
  r : ValueName

/-- The types of the values. -/
structure ReorderingCalls.Typed (calls : ReorderingCalls) (types : ValueName → Ty) (elem : Ty)
    (n lhsLength rhsLength : ℕ) : Prop where
  flipped_eq : types calls.flipped = .array elem n
  op_eq : types calls.op = .array elem n
  flipped_ne : calls.flipped ≠ calls.op
  joined_eq : types calls.joined = .array elem (lhsLength + rhsLength)
  tuple_eq : types calls.tuple = .tuple [types calls.r, types calls.l]
  l_eq : types calls.l = .array elem lhsLength
  r_eq : types calls.r = .array elem rhsLength

/-- Both calls move whole elements. -/
def ReorderingCalls.MoveElements (calls : ReorderingCalls) (types : ValueName → Ty) (elem : Ty)
    (n lhsLength rhsLength : ℕ) : Prop :=
  FlipsArray types elem n calls.flipped calls.op ∧
    ConcatenatesArrays types elem lhsLength rhsLength calls.joined calls.tuple calls.l calls.r

/-- **Both functions.** Whole elements are moved exactly when they have one bit and no backward
bits, there are two of them, and the name of the flipped array is plain. -/
theorem reordering_movesElements_iff {calls : ReorderingCalls} {types : ValueName → Ty}
    {elem : Ty} {n lhsLength rhsLength : ℕ} (ht : calls.Typed types elem n lhsLength rhsLength)
    (hpos : elem.size ≠ 0) (hn : n ≠ 0) (hlength : lhsLength + rhsLength ≠ 0) :
    calls.MoveElements types elem n lhsLength rhsLength ↔
      elem.size = 1 ∧ elem.backwardSize = 0 ∧ 2 ≤ n ∧ calls.flipped.IsPlain := by
  have hflips := flipsArray_iff ht.flipped_eq ht.op_eq ht.flipped_ne hpos hn
  have hconcat := concatenatesArrays_iff ht.joined_eq ht.l_eq ht.r_eq ht.tuple_eq hpos hlength
  constructor
  · rintro ⟨hflip, -⟩
    exact hflips.mp hflip
  · intro h
    exact ⟨hflips.mpr h, hconcat.mpr h.2.1⟩

/-- The types of calls on arrays of the same length. -/
def sampleTypes (elem : Ty) (n : ℕ) : ValueName → Ty
  | .expr 2 => .array elem (n + n)
  | .expr 3 => .tuple [.array elem n, .array elem n]
  | _ => .array elem n

/-- Calls whose results have these names. -/
def sampleCalls (flipped : ValueName) : ReorderingCalls :=
  ⟨flipped, .expr 1, .expr 2, .expr 3, .expr 4, .expr 5⟩

theorem sampleCalls_typed (elem : Ty) (n : ℕ) {flipped : ValueName}
    (h : flipped ∉ [.expr 1, .expr 2, .expr 3]) :
    (sampleCalls flipped).Typed (sampleTypes elem n) elem n n n where
  flipped_eq := by
    change sampleTypes elem n flipped = .array elem n
    unfold sampleTypes
    split
    · exact absurd (by simp) h
    · exact absurd (by simp) h
    · rfl
  op_eq := rfl
  flipped_ne := fun heq => h (by simp [show flipped = .expr 1 from heq])
  joined_eq := rfl
  tuple_eq := rfl
  l_eq := rfl
  r_eq := rfl

/-- Arrays of two booleans, flipped without a name. -/
theorem reordering_two_bits :
    (sampleCalls (.expr 0)).MoveElements (sampleTypes .bool 2) .bool 2 2 2 :=
  (reordering_movesElements_iff (sampleCalls_typed .bool 2 (by decide)) Nat.one_ne_zero
    two_ne_zero (by decide)).mpr ⟨rfl, rfl, le_refl 2, trivial⟩

/-- The elements of `[uint<2>; 2]` come out with their bits reversed, and the loop for the first
variable `x` declares `\x _i`. -/
theorem not_reordering_pairs :
    ¬(sampleCalls (.expr 0)).MoveElements (sampleTypes (.uint 2) 2) (.uint 2) 2 2 2 ∧
      ¬(sampleCalls (.named 0 "x")).MoveElements (sampleTypes .bool 2) .bool 2 2 2 := by
  constructor
  · rintro ⟨hflip, -⟩
    have ht := @sampleCalls_typed (.uint 2) 2 (.expr 0) (by decide)
    exact absurd ((flipsArray_iff ht.flipped_eq ht.op_eq ht.flipped_ne two_ne_zero
      two_ne_zero).mp hflip).1 (by decide)
  · rintro ⟨hflip, -⟩
    have ht := @sampleCalls_typed .bool 2 (.named 0 "x") (by decide)
    exact ((flipsArray_iff ht.flipped_eq ht.op_eq ht.flipped_ne Nat.one_ne_zero
      two_ne_zero).mp hflip).2.2.2.1 rfl

end Spade.Mir

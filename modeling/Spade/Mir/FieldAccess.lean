import Spade.Mir.EnumLayout
import Spade.Mir.Semantics

/-!
# Taking values apart

The operators that read a part of a tuple, an array or an enum are selections of bits, whatever
the bits are.

* **Parts** (`Interp.denote_indexTuple`, `Interp.denote_indexArray`, `Interp.denote_enumMember`):
  each of them selects the bits at the place of the part.
* **Tags** (`Interp.denote_isEnumVariant`): the tag test compares the tag bits.
-/

namespace BitString

/-- The `width` bits behind the first `start` ones. -/
def field (start width : ℕ) (bits : BitString) : BitString := (bits.drop start).take width

theorem length_field {start width : ℕ} {bits : BitString} (h : start + width ≤ bits.length) :
    (bits.field start width).length = width := by
  simp only [field, List.length_take, List.length_drop]
  omega

theorem field_append {pre bits post : BitString} :
    BitString.field pre.length bits.length (pre ++ (bits ++ post)) = bits := by
  rw [field, List.drop_left, List.take_left]

theorem field_append_right {start width : ℕ} {pre bits : BitString} :
    BitString.field (pre.length + start) width (pre ++ bits) = bits.field start width := by
  rw [field, ← List.drop_drop, List.drop_left, field]

theorem field_append_left {start width : ℕ} {bits post : BitString}
    (h : start + width ≤ bits.length) :
    BitString.field start width (bits ++ post) = bits.field start width := by
  rw [field, List.drop_append_of_le_length (by omega), List.take_append_of_le_length
    (by rw [List.length_drop]; omega), field]

/-- A bit string around a field. -/
theorem eq_append_field {start width : ℕ} {bits : BitString} (h : start + width ≤ bits.length) :
    ∃ pre post, bits = pre ++ (bits.field start width ++ post) ∧ pre.length = start ∧
      post.length = bits.length - start - width := by
  refine ⟨bits.take start, bits.drop (start + width), ?_, ?_, ?_⟩
  · rw [field, ← List.drop_drop, List.take_append_drop, List.take_append_drop]
  · rw [List.length_take]
    omega
  · rw [List.length_drop]
    omega

end BitString

namespace Spade.Mir

open Verilog

theorem sizeSum_take_add {types : List Ty} {i : ℕ} {t : Ty} (h : types[i]? = some t) :
    Ty.sizeSum (types.take i) + t.size + Ty.sizeSum (types.drop (i + 1)) = Ty.sizeSum types := by
  induction types generalizing i with
  | nil => simp at h
  | cons type types ih =>
      cases i with
      | zero =>
          obtain rfl : type = t := by simpa using h
          simp [Ty.sizeSum]
      | succ i =>
          have := ih (i := i) (by simpa using h)
          simp only [List.take_succ_cons, List.drop_succ_cons, Ty.sizeSum]
          omega

variable {H : Type} (I : Interp H) (h : H)

/-- **Tuples.** -/
theorem Interp.denote_indexTuple {types : List Ty} {i : ℕ} {t : Ty} (ht : types[i]? = some t)
    {bits : BitString} (hlen : bits.length = Ty.sizeSum types) :
    I.denote h (.indexTuple i types) t [bits] =
      bits.field (Ty.sizeSum (types.take i)) t.size := by
  by_cases h0 : t.size = 0
  · rw [I.denote_of_size_eq_zero h (by simp [Operator.isAlias]) (by simp [Operator.isMatch]) h0, h0]
    rfl
  have hsum := sizeSum_take_add ht
  obtain ⟨pre, post, hbits, hpre, hpost⟩ := @BitString.eq_append_field
    (Ty.sizeSum (types.take i)) t.size bits (by omega)
  have hfield : (bits.field (Ty.sizeSum (types.take i)) t.size).length = t.size :=
    BitString.length_field (by omega)
  have hslice := @BitString.slice_append pre (bits.field (Ty.sizeSum (types.take i)) t.size) post
    fun h => h0 (by rw [← hfield, h]; rfl)
  rw [← hbits, hfield] at hslice
  have hindex : computeTupleIndex i (types.map Ty.size) = some
      (if Ty.sizeSum types = 1 then .none
        else if t.size = 1 then .single (t.size + post.length - 1)
        else .range (t.size + post.length - 1) post.length) := by
    have htake : ((types.map Ty.size).take i).sum = Ty.sizeSum (types.take i) := by
      rw [← List.map_take, Ty.sizeSum_eq]
    have htotal : (types.map Ty.size).sum = Ty.sizeSum types := (Ty.sizeSum_eq types).symm
    simp only [computeTupleIndex, List.getElem?_map, ht, Option.map_some, Option.bind_eq_bind,
      Option.bind_some, htake, htotal, if_neg h0]
    rw [show Ty.sizeSum types - Ty.sizeSum (types.take i) - 1 = t.size + post.length - 1 by omega,
      show Ty.sizeSum types - (Ty.sizeSum (types.take i) + t.size) = post.length by omega]
    split_ifs <;> rfl
  have hcode : forwardExpressionCode (.indexTuple i types) t (List.range 1) =
      TupleIndex.verilogCode 0 (if Ty.sizeSum types = 1 then .none
        else if t.size = 1 then .single (t.size + post.length - 1)
        else .range (t.size + post.length - 1) post.length) := by
    change indexTupleCode i types 0 = _
    rw [indexTupleCode, hindex]
    rfl
  by_cases h1 : Ty.sizeSum types = 1
  · rw [if_pos h1] at hcode
    rw [I.denote_of_eval h hcode rfl, BitString.resize_of_length_eq (by omega)]
    have hpre0 : pre = [] := List.length_eq_zero_iff.mp (by omega)
    have hpost0 : post = [] := List.length_eq_zero_iff.mp (by omega)
    rw [hpre0, hpost0, List.append_nil, List.nil_append] at hbits
    exact hbits
  rw [if_neg h1] at hcode
  by_cases hone : t.size = 1
  · rw [if_pos hone] at hcode
    rw [I.denote_of_eval h hcode (Expr.eval_bit rfl (by omega)),
      BitString.resize_of_length_eq (by rw [BitString.length_slice] <;> omega)]
    rw [show t.size + post.length - 1 = post.length by omega] at hslice ⊢
    exact hslice
  · rw [if_neg hone] at hcode
    rw [I.denote_of_eval h hcode (Expr.eval_part rfl (by omega) (by omega)), hslice,
      BitString.resize_of_length_eq hfield]

/-- **Arrays.** The first element is the one at the least significant end. -/
theorem Interp.denote_indexArray {t : Ty} {length i : ℕ} (hi : i < length)
    {bits index : BitString} (hlen : bits.length = t.size * length) (hindex : index.toNat = i) :
    I.denote h .indexArray t [bits, index] =
      bits.field (t.size * (length - 1 - i)) t.size := by
  by_cases h0 : t.size = 0
  · rw [I.denote_of_size_eq_zero h (by simp [Operator.isAlias]) (by simp [Operator.isMatch]) h0, h0]
    rfl
  have hsplit : t.size * (length - 1 - i) + t.size + i * t.size = bits.length := by
    obtain ⟨k, rfl⟩ : ∃ k, length = k + 1 + i := ⟨length - 1 - i, by omega⟩
    rw [hlen, show k + 1 + i - 1 - i = k by omega]
    ring
  obtain ⟨pre, post, hbits, hpre, hpost⟩ := @BitString.eq_append_field
    (t.size * (length - 1 - i)) t.size bits (by omega)
  have hfield : (bits.field (t.size * (length - 1 - i)) t.size).length = t.size :=
    BitString.length_field (by omega)
  have hslice := @BitString.slice_append pre (bits.field (t.size * (length - 1 - i)) t.size) post
    fun h => h0 (by rw [← hfield, h]; rfl)
  rw [← hbits, hfield, show post.length = i * t.size by omega] at hslice
  have heval : (indexArrayCode t 0 1).eval (fun i => [bits, index][i]?) (I.pad h) =
      some (bits.field (t.size * (length - 1 - i)) t.size) := by
    by_cases hone : t.size = 1
    · have hlow : t.size + i * t.size - 1 = i := by rw [hone]; omega
      rw [hlow, hone, Nat.mul_one] at hslice
      rw [indexArrayCode, if_pos hone]
      simp only [Expr.eval, List.getElem?_cons_zero, List.getElem?_cons_succ, Option.bind_eq_bind,
        Option.bind_some, hindex]
      rw [if_pos (by rw [hone] at hsplit; omega), hslice, hone]
    · have hbase : (fun i => [bits, index][i]?) 0 = some bits := rfl
      have hpos : (fun i => [bits, index][i]?) 1 = some index := rfl
      rw [indexArrayCode, if_neg hone, Expr.eval_partAt hbase hpos (by omega)
        (by rw [hindex]; omega), hindex, Nat.add_comm (i * t.size), hslice]
  rw [I.denote_of_eval h rfl heval, BitString.resize_of_length_eq hfield]

/-- **Tags.** -/
theorem Interp.denote_isEnumVariant {options : List (List Ty)} {w : ℕ} (hw : w < options.length)
    (hsize : (Ty.enum options).size ≠ 0) {bits : BitString}
    (hlen : bits.length = (Ty.enum options).size) :
    I.denote h (.isEnumVariant w (.enum options)) .bool [bits] =
      [w == BitString.toNat (bits.take (tagSize options.length))] := by
  have htag : (bits.take (tagSize options.length)).length = tagSize options.length := by
    have : tagSize options.length ≤ (Ty.enum options).size := by
      rw [Ty.size]
      exact Nat.le_add_right _ _
    rw [List.length_take]
    omega
  have hlt := BitString.toNat_lt (bits.take (tagSize options.length))
  have hofNat := BitString.ofNat_toNat (bits.take (tagSize options.length))
  rw [htag] at hlt hofNat
  have hdeclares : Declares (fun i => [bits][i]?) 0 (.enum options)
      (BitString.ofNat (tagSize options.length)
          (BitString.toNat (bits.take (tagSize options.length))) ++
        bits.drop (tagSize options.length)) := by
    rw [hofNat, List.take_append_drop]
    exact ⟨hlen, (if_neg hsize).symm⟩
  have hassigned := @assigned_isEnumVariant _ _ (I.pad h) _ _ _ _ _ hlt hw hdeclares hsize
  rw [Interp.denote, if_neg (by simp [Operator.isAlias]), if_neg (by simp [Operator.isMatch])]
  exact congrArg (Option.getD · _) hassigned

/-- The member `i` of a variant is read from its own bits: unless the enum has a single variant
and the member a single bit, in which case the member must end the enum. -/
def MemberSound (options : List (List Ty)) (members : List Ty) (i : ℕ) (t : Ty) : Prop :=
  readsWhole options t → Ty.sizeSum (members.drop (i + 1)) = 0

/-- **Enum members.** -/
theorem Interp.denote_enumMember {options : List (List Ty)} {variant i : ℕ} {members : List Ty}
    {t : Ty} (hm : options[variant]? = some members) (ht : members[i]? = some t)
    (hsound : MemberSound options members i t) {bits : BitString}
    (hlen : bits.length = (Ty.enum options).size) :
    I.denote h (.enumMember (.enum options) variant i) t [bits] =
      bits.field (tagSize options.length + Ty.sizeSum (members.take i)) t.size := by
  by_cases h0 : t.size = 0
  · rw [I.denote_of_size_eq_zero h (by simp [Operator.isAlias]) (by simp [Operator.isMatch]) h0, h0]
    rfl
  have hsum := sizeSum_take_add ht
  have hmax := Ty.sizeSum_le_sizeMax (List.mem_of_getElem? hm)
  have hsize : (Ty.enum options).size = tagSize options.length + Ty.sizeMax options := rfl
  obtain ⟨pre, post, hbits, hpre, hpost⟩ := @BitString.eq_append_field
    (tagSize options.length + Ty.sizeSum (members.take i)) t.size bits (by omega)
  have hfield : (bits.field (tagSize options.length + Ty.sizeSum (members.take i)) t.size).length =
      t.size := BitString.length_field (by omega)
  have hdeclares : Declares (fun i => [bits][i]?) 0 (.enum options) (pre ++
      (bits.field (tagSize options.length + Ty.sizeSum (members.take i)) t.size ++ post)) := by
    rw [← hbits]
    exact ⟨hlen, (if_neg (by omega)).symm⟩
  have hforward : ∀ code, enumMemberCode (.enum options) variant i 0 = code →
      forwardExpressionCode (.enumMember (.enum options) variant i) t (List.range [bits].length) =
        code := fun _ h => h
  rcases enumMember_cases (I.pad h) hm ht h0 hdeclares hfield hpre with
    ⟨hwhole, hcode⟩ | ⟨-, e, hcode, heval⟩
  · have hdrop := hsound hwhole
    have hpadding := paddingSize_eq_zero hm hwhole.2
    have hpost0 : post = [] := List.length_eq_zero_iff.mp (by
      rw [hpost, hlen, hsize]
      unfold paddingSize at hpadding
      omega)
    rw [I.denote_of_eval h (hforward _ hcode) rfl]
    conv_lhs => rw [hbits, hpost0, List.append_nil]
    have hresize := BitString.resize_append pre
      (bits.field (tagSize options.length + Ty.sizeSum (members.take i)) t.size)
    rwa [hfield] at hresize
  · rw [I.denote_of_eval h (hforward _ hcode) heval, BitString.resize_of_length_eq hfield]

end Spade.Mir

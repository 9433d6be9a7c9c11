import Spade.HirLowering.Layout
import Spade.Lib.SignedBits
import Spade.Mir.Eval
import Spade.VcdTranslate.Translation

/-!
# The bits of a value

The bits that the construction operators give a value (`bits`), as a simulator records them.

* **Evaluator** (`printed_constructTuple`, `printed_constructArray`, `printed_constructEnum`): each
  operator puts the bits of its operands where the evaluator of constants puts them.
* **Sizes** (`length_bits`): they are as many as the type has.
* **Integers** (`translateSignedInt_bits`, `translateUnsignedInt_bits`): the translation of the bits
  of a number, which collects them in chunks, is the number that they denote.
-/

namespace Spade.VcdTranslate

open Mir hiding Value
open Hir

/-! ### Types and values -/

/-- The types that are built from integers, `bool`, tuples, structs, arrays and enums. -/
inductive Translatable : ConcreteType → Prop where
  | int (n : ℕ) : Translatable (.single .int [.integer n])
  | uint (n : ℕ) : Translatable (.single .uint [.integer n])
  | bool : Translatable (.single .bool [])
  | tuple {inner : List ConcreteType} (h : ∀ ty ∈ inner, Translatable ty) :
      Translatable (.tuple inner)
  | struct {members : List (String × ConcreteType)} (h : ∀ m ∈ members, Translatable m.2) :
      Translatable (.struct members)
  | array {inner : ConcreteType} (n : ℕ) (h : Translatable inner) : Translatable (.array inner n)
  | enum {options : List (List ConcreteType)} (h : ∀ o ∈ options, ∀ ty ∈ o, Translatable ty) :
      Translatable (.enum options)

/-- The number of bits of a type. -/
def bitCount (ty : ConcreteType) : ℕ := (ty.toMirType.map Ty.size).getD 0

/-- The bit of a simulator. -/
def vcdBit (b : Bool) : VcdValue := if b then .v1 else .v0

/-- `ConstructTuple` on the bits of the members. -/
def constructTupleBits (parts : List (List VcdValue)) : List VcdValue := parts.flatten

/-- `ConstructArray` on the bits of the elements. -/
def constructArrayBits (parts : List (List VcdValue)) : List VcdValue := parts.reverse.flatten

/-- `ConstructEnum` of the given size on the bits of the members: the tag, the members and undefined
padding. -/
def constructEnumBits (variant variantCount size : ℕ) (parts : List (List VcdValue)) :
    List VcdValue :=
  let defined := (BitString.ofNat (tagSize variantCount) variant).map vcdBit ++ parts.flatten
  defined ++ List.replicate (size - defined.length) .x

mutual

/-- The bits that the construction operators produce for a value. -/
def bits : Value → ConcreteType → List VcdValue
  | .int n, ty => (BitString.ofInt (bitCount ty) n).map vcdBit
  | .bool b, _ => [vcdBit b]
  | .raw b, _ => b.map vcdBit
  | .fields vs, .tuple types => constructTupleBits (bitsList vs types)
  | .fields vs, .struct members => constructTupleBits (bitsList vs (members.map Prod.snd))
  | .fields vs, .array t size => constructArrayBits (bitsList vs (List.replicate size.toNat t))
  | .variant option vs, .enum options =>
      constructEnumBits option options.length (bitCount (.enum options))
        (bitsList vs (options[option]?.getD []))
  | _, _ => []

def bitsList : List Value → List ConcreteType → List (List VcdValue)
  | v :: vs, ty :: types => bits v ty :: bitsList vs types
  | _, _ => []

end

/-! ### The evaluator -/

/-- A character of `value_from_str`. -/
def vcdChar : Char → Option VcdValue
  | '0' => some .v0
  | '1' => some .v1
  | 'x' | 'X' => some .x
  | 'z' | 'Z' => some .z
  | _ => none

/-- The bits are the text that the evaluator prints for its value. -/
def Printed (v : Mir.Value) (part : List VcdValue) : Prop :=
  ∃ text, v.asString = some text ∧ text.mapM vcdChar = some part

theorem mapM_vcdChar_bits (bs : BitString) :
    (bs.map bitChar).mapM vcdChar = some (bs.map vcdBit) := by
  induction bs with
  | nil => rfl
  | cons b bs ih =>
      rw [List.map_cons, List.mapM_cons, ih]
      cases b <;> rfl

theorem printed_undef (size : ℕ) : Printed (.undef size) (List.replicate size .x) := by
  refine ⟨_, rfl, ?_⟩
  induction size with
  | zero => rfl
  | succ size ih =>
      rw [List.replicate_succ, List.mapM_cons, ih]
      rfl

theorem printed_uint {size val : ℕ} (hsize : 0 < size) (hval : val < 2 ^ size) :
    Printed (.uint size val) ((BitString.ofNat size val).map vcdBit) :=
  ⟨_, paddedBinary_eq hsize hval, mapM_vcdChar_bits _⟩

theorem printed_concat {vals : List Mir.Value} {parts : List (List VcdValue)}
    (h : List.Forall₂ Printed vals parts) : Printed (.concat vals) parts.flatten := by
  induction h with
  | nil => exact ⟨[], rfl, rfl⟩
  | cons hv _ ih =>
      obtain ⟨text, htext, hpart⟩ := hv
      obtain ⟨texts, htexts, hparts⟩ := ih
      rw [Mir.Value.asString] at htexts
      refine ⟨text ++ texts, by simp [Mir.Value.asString, Mir.Value.asStrings, htext, htexts], ?_⟩
      simp [List.mapM_append, hpart, hparts]

theorem printed_constructTuple {vals : List Mir.Value} {parts : List (List VcdValue)}
    (h : List.Forall₂ Printed vals parts) :
    Printed (.constructTuple vals) (constructTupleBits parts) :=
  printed_concat h

theorem printed_constructArray {vals : List Mir.Value} {parts : List (List VcdValue)}
    (h : List.Forall₂ Printed vals parts) :
    Printed (.constructArray vals) (constructArrayBits parts) :=
  printed_concat (List.forall₂_reverse_iff.mpr h)

/-- The tag, which the evaluator leaves out when there is one variant only. -/
theorem printed_tag {variant variantCount : ℕ} (h : variant < variantCount) :
    Printed (.concat (if variantCount = 1 then [] else [.uint (tagSize variantCount) variant]))
      ((BitString.ofNat (tagSize variantCount) variant).map vcdBit) := by
  by_cases hone : variantCount = 1
  · subst hone
    exact ⟨[], rfl, rfl⟩
  · have hpos := tagSize_pos_iff.mpr (show 1 < variantCount by omega)
    rw [if_neg hone, ← List.append_nil (List.map _ _)]
    exact printed_concat (.cons (printed_uint hpos (lt_two_pow_tagSize h)) .nil)

theorem printed_append {vals vals' : List Mir.Value} {part part' : List VcdValue}
    (h : Printed (.concat vals) part) (h' : Printed (.concat vals') part') :
    Printed (.concat (vals ++ vals')) (part ++ part') := by
  obtain ⟨text, htext, hpart⟩ := h
  obtain ⟨text', htext', hpart'⟩ := h'
  rw [Mir.Value.asString] at htext htext'
  have happend : ∀ {vs : List Mir.Value} {s : List Char}, Mir.Value.asStrings vs = some s →
      Mir.Value.asStrings (vs ++ vals') = some (s ++ text') := by
    intro vs
    induction vs with
    | nil =>
        intro s hs
        obtain rfl := Option.some.inj hs
        exact htext'
    | cons v vs ih =>
        intro s hs
        simp only [Mir.Value.asStrings, Option.bind_eq_bind, Option.bind_eq_some_iff,
          Option.some.injEq] at hs
        obtain ⟨s₁, hs₁, s₂, hs₂, rfl⟩ := hs
        simp [Mir.Value.asStrings, hs₁, ih hs₂]
  exact ⟨text ++ text', by rw [Mir.Value.asString, happend htext],
    by simp [List.mapM_append, hpart, hpart']⟩

theorem printed_constructEnum {vals : List Mir.Value} {parts : List (List VcdValue)}
    {variant variantCount size : ℕ} {v : Mir.Value} (h : List.Forall₂ Printed vals parts)
    (hvariant : variant < variantCount)
    (hv : Mir.Value.constructEnum variant variantCount size parts.flatten.length vals = some v) :
    Printed v (constructEnumBits variant variantCount size parts) := by
  simp only [Mir.Value.constructEnum, Option.bind_eq_bind, Option.bind_eq_some_iff,
    checkedSub_eq_some_iff, Option.some.injEq] at hv
  obtain ⟨-, ⟨htag, rfl⟩, paddingSize, ⟨hmembers, rfl⟩, rfl⟩ := hv
  have hdefined := printed_append (printed_tag hvariant) (printed_concat h)
  rw [constructEnumBits]
  refine printed_append hdefined ?_
  have hsize : size - ((BitString.ofNat (tagSize variantCount) variant).map vcdBit ++
      parts.flatten).length = size - tagSize variantCount - parts.flatten.length := by
    rw [List.length_append, List.length_map, BitString.length_ofNat, Nat.sub_sub]
  rw [hsize]
  by_cases hzero : size - tagSize variantCount - parts.flatten.length = 0
  · rw [hzero]
    exact ⟨[], rfl, rfl⟩
  · rw [if_pos hzero, ← List.append_nil (List.replicate _ _)]
    exact printed_concat (.cons (printed_undef _) .nil)

/-! ### Integers -/

theorem toNat_map_not (bs : BitString) :
    BitString.toNat (bs.map not) + BitString.toNat bs + 1 = 2 ^ bs.length := by
  induction bs with
  | nil => rfl
  | cons b bs ih =>
      rw [List.map_cons, BitString.toNat, BitString.toNat, List.length_map, List.length_cons, pow_succ]
      cases b <;> simp <;> omega

theorem translateUintFrom_cons (flip b : Bool) {result acc intermediate : ℕ} (hacc : acc ≠ 64)
    (vs : List VcdValue) :
    translateUintFrom flip result acc intermediate (vcdBit b :: vs) =
      translateUintFrom flip result (acc + 1)
        (intermediate * 2 % 2 ^ 64 + if b != flip then 1 else 0) vs := by
  cases b <;> cases flip <;> simp [translateUintFrom, vcdBit, hacc]

/-- A full chunk is moved to the result. -/
theorem translateUintFrom_flush (flip b : Bool) (result intermediate : ℕ) (vs : List VcdValue) :
    translateUintFrom flip result 64 intermediate (vcdBit b :: vs) =
      translateUintFrom flip (result * 2 ^ 64 + intermediate) 0 0 (vcdBit b :: vs) := by
  cases b <;> rfl

/-- The chunks of the loop add up to the number that the bits denote. -/
theorem translateUintFrom_bits (flip : Bool) (bs : BitString) {result acc intermediate : ℕ}
    (hacc : acc ≤ 64) (hint : intermediate < 2 ^ acc) :
    translateUintFrom flip result acc intermediate (bs.map vcdBit) =
      .value ((result * 2 ^ acc + intermediate) * 2 ^ bs.length +
        BitString.toNat (bs.map fun b => b != flip)) := by
  induction bs generalizing result acc intermediate with
  | nil => simp [translateUintFrom, BitString.toNat]
  | cons b bs ih =>
      have hstep : ∀ {r a i : ℕ}, a < 64 → i < 2 ^ a →
          translateUintFrom flip r a i ((b :: bs).map vcdBit) =
            .value ((r * 2 ^ a + i) * 2 ^ (b :: bs).length +
              BitString.toNat ((b :: bs).map fun b => b != flip)) := by
        intro r a i ha hi
        have hpow : 2 ^ (a + 1) ≤ 2 ^ 64 := Nat.pow_le_pow_right (by decide) ha
        have hsucc : 2 ^ (a + 1) = 2 * 2 ^ a := by ring
        rw [List.map_cons, translateUintFrom_cons _ _ (by omega), Nat.mod_eq_of_lt (by omega),
          ih ha (by split_ifs <;> omega), List.map_cons, BitString.toNat, List.length_map,
          List.length_cons, hsucc]
        congr 1
        split_ifs <;> ring
      by_cases h64 : acc = 64
      · subst h64
        rw [List.map_cons, translateUintFrom_flush, ← List.map_cons, hstep (by decide) (by decide)]
        simp
      · exact hstep (by omega) hint

theorem translateUint_bits (bs : BitString) :
    translateUint (bs.map vcdBit) false = .value bs.toNat := by
  rw [translateUint, translateUintFrom_bits _ _ (by decide) (by decide)]
  simp

theorem not_contains_undefined (bs : BitString) :
    (bs.map vcdBit).contains .x = false ∧ (bs.map vcdBit).contains .z = false := by
  induction bs with
  | nil => exact ⟨rfl, rfl⟩
  | cons b bs ih => cases b <;> simp [vcdBit]

theorem translateUnsignedInt_bits (bs : BitString) :
    translateUnsignedInt (bs.map vcdBit) = .value bs.toNat := by
  obtain ⟨hx, hz⟩ := not_contains_undefined bs
  rw [translateUnsignedInt, hx, hz, translateUint_bits]
  rfl

theorem translateSignedInt_bits {bs : BitString} (h : bs ≠ []) :
    translateSignedInt (bs.map vcdBit) = some (.value bs.toInt) := by
  obtain ⟨hx, hz⟩ := not_contains_undefined bs
  unfold translateSignedInt
  rw [hx, hz]
  cases bs with
  | nil => exact absurd rfl h
  | cons b bs =>
      have hlt := BitString.toNat_lt bs
      cases b with
      | false =>
          have hsign : (VcdValue.v0 == VcdValue.v1) = false := rfl
          simp [vcdBit, hsign, translateUint_bits, MaybeValue.map, BitString.toInt, BitString.toNat]
      | true =>
          have hflip := @translateUintFrom_bits true bs 0 0 0 (by decide) (by decide)
          have hnot : (bs.map fun b => b != true) = bs.map not :=
            List.map_congr_left fun b _ => by cases b <;> rfl
          have hsum := toNat_map_not bs
          have hcast : ((BitString.toNat (bs.map not) + BitString.toNat bs + 1 : ℕ) : ℤ) =
              2 ^ bs.length := by
            rw [hsum]
            push_cast
            rfl
          push_cast at hcast
          simp only [Bool.false_eq_true, if_false, List.map_cons, vcdBit, if_true, beq_self_eq_true,
            translateUint, hflip, hnot, MaybeValue.map, BitString.toInt, BitString.toNat]
          congr 2
          push_cast
          rw [pow_succ]
          omega

/-! ### Sizes -/

theorem bitCount_of_eq {ty : ConcreteType} {t : Ty} (h : ty.toMirType = some t) :
    bitCount ty = t.size := by
  rw [bitCount, h]
  rfl

theorem toMirTypes_of_forall {types : List ConcreteType}
    (h : ∀ ty ∈ types, ∃ t, ty.toMirType = some t) :
    ∃ ts, ConcreteType.toMirTypes types = some ts ∧ Ty.sizeSum ts = (types.map bitCount).sum := by
  induction types with
  | nil => exact ⟨[], rfl, rfl⟩
  | cons ty types ih =>
      rw [List.forall_mem_cons] at h
      obtain ⟨t, ht⟩ := h.1
      obtain ⟨ts, hts, hsum⟩ := ih h.2
      refine ⟨t :: ts, by simp [ConcreteType.toMirTypes, ht, hts], ?_⟩
      rw [Ty.sizeSum, hsum, List.map_cons, List.sum_cons, bitCount_of_eq ht]

theorem toMirMembers_of_forall {members : List (String × ConcreteType)}
    (h : ∀ m ∈ members, ∃ t, m.2.toMirType = some t) :
    ∃ ms, ConcreteType.toMirMembers members = some ms ∧
      Ty.sizeFields ms = ((members.map Prod.snd).map bitCount).sum := by
  induction members with
  | nil => exact ⟨[], rfl, rfl⟩
  | cons m members ih =>
      rw [List.forall_mem_cons] at h
      obtain ⟨t, ht⟩ := h.1
      obtain ⟨ms, hms, hsum⟩ := ih h.2
      refine ⟨(m.1, t) :: ms, by simp [ConcreteType.toMirMembers, ht, hms], ?_⟩
      rw [Ty.sizeFields, hsum, List.map_cons, List.map_cons, List.sum_cons, bitCount_of_eq ht]

theorem toMirOptions_of_forall {options : List (List ConcreteType)}
    (h : ∀ o ∈ options, ∀ ty ∈ o, ∃ t, ty.toMirType = some t) :
    ∃ os, ConcreteType.toMirOptions options = some os ∧ os.length = options.length ∧
      ∀ types ∈ options, (types.map bitCount).sum ≤ Ty.sizeMax os := by
  induction options with
  | nil => exact ⟨[], rfl, rfl, by simp⟩
  | cons o options ih =>
      rw [List.forall_mem_cons] at h
      obtain ⟨ts, hts, hsum⟩ := toMirTypes_of_forall h.1
      obtain ⟨os, hos, hlen, hmax⟩ := ih h.2
      refine ⟨ts :: os, by simp [ConcreteType.toMirOptions, hts, hos], by simp [hlen], ?_⟩
      rw [List.forall_mem_cons, Ty.sizeMax, hsum]
      exact ⟨le_max_left _ _, fun types htypes => (hmax types htypes).trans (le_max_right _ _)⟩

/-- A translatable type has a MIR type. -/
theorem Translatable.toMirType {ty : ConcreteType} (h : Translatable ty) :
    ∃ t, ty.toMirType = some t := by
  induction h with
  | int n => exact ⟨.int n, by simp [ConcreteType.toMirType]⟩
  | uint n => exact ⟨.uint n, by simp [ConcreteType.toMirType]⟩
  | bool => exact ⟨.bool, rfl⟩
  | tuple _ ih =>
      obtain ⟨ts, hts, -⟩ := toMirTypes_of_forall ih
      exact ⟨.tuple ts, by simp [ConcreteType.toMirType, hts]⟩
  | struct _ ih =>
      obtain ⟨ms, hms, -⟩ := toMirMembers_of_forall ih
      exact ⟨.struct ms, by simp [ConcreteType.toMirType, hms]⟩
  | array n _ ih =>
      obtain ⟨t, ht⟩ := ih
      exact ⟨.array t n, by simp [ConcreteType.toMirType, ht]⟩
  | enum _ ih =>
      obtain ⟨os, hos, -⟩ := toMirOptions_of_forall ih
      exact ⟨.enum os, by simp [ConcreteType.toMirType, hos]⟩

theorem toMirType_int (n : ℕ) :
    ConcreteType.toMirType (.single .int [.integer n]) = some (.int n) := by
  simp [ConcreteType.toMirType]

theorem toMirType_uint (n : ℕ) :
    ConcreteType.toMirType (.single .uint [.integer n]) = some (.uint n) := by
  simp [ConcreteType.toMirType]

theorem bitCount_int (n : ℕ) : bitCount (.single .int [.integer n]) = n :=
  bitCount_of_eq (toMirType_int n)

theorem bitCount_uint (n : ℕ) : bitCount (.single .uint [.integer n]) = n :=
  bitCount_of_eq (toMirType_uint n)

theorem bitCount_tuple {types : List ConcreteType} (h : ∀ ty ∈ types, Translatable ty) :
    bitCount (.tuple types) = (types.map bitCount).sum := by
  obtain ⟨ts, hts, hsum⟩ := toMirTypes_of_forall fun ty hty => (h ty hty).toMirType
  have htype : ConcreteType.toMirType (.tuple types) = some (.tuple ts) := by
    simp [ConcreteType.toMirType, hts]
  rw [bitCount_of_eq htype, Ty.size, hsum]

theorem bitCount_struct {members : List (String × ConcreteType)}
    (h : ∀ m ∈ members, Translatable m.2) :
    bitCount (.struct members) = ((members.map Prod.snd).map bitCount).sum := by
  obtain ⟨ms, hms, hsum⟩ := toMirMembers_of_forall fun m hm => (h m hm).toMirType
  have htype : ConcreteType.toMirType (.struct members) = some (.struct ms) := by
    simp [ConcreteType.toMirType, hms]
  rw [bitCount_of_eq htype, Ty.size, hsum]

theorem bitCount_array {ty : ConcreteType} (h : Translatable ty) (n : ℕ) :
    bitCount (.array ty n) = bitCount ty * n := by
  obtain ⟨t, ht⟩ := h.toMirType
  have htype : ConcreteType.toMirType (.array ty n) = some (.array t n) := by
    simp [ConcreteType.toMirType, ht]
  rw [bitCount_of_eq htype, Ty.size, bitCount_of_eq ht]

theorem bitCount_enum {options : List (List ConcreteType)}
    (h : ∀ o ∈ options, ∀ ty ∈ o, Translatable ty) {types : List ConcreteType}
    (htypes : types ∈ options) :
    tagSize options.length + (types.map bitCount).sum ≤ bitCount (.enum options) := by
  obtain ⟨os, hos, hlen, hmax⟩ := toMirOptions_of_forall fun o ho ty hty => (h o ho ty hty).toMirType
  have htype : ConcreteType.toMirType (.enum options) = some (.enum os) := by
    simp [ConcreteType.toMirType, hos]
  rw [bitCount_of_eq htype, Ty.size, hlen]
  exact Nat.add_le_add_left (hmax types htypes) _

/-! ### Values of translatable types -/

theorem forall₂_of_hasTypeList {P : Value → ConcreteType → Prop} {vs : List Value}
    {types : List ConcreteType} (hP : ∀ ty ∈ types, ∀ v : Value, v.HasType ty → P v ty)
    (h : HasTypeList vs types) : List.Forall₂ P vs types := by
  induction types generalizing vs with
  | nil =>
      cases vs with
      | nil => exact .nil
      | cons => exact h.elim
  | cons ty types ih =>
      rw [List.forall_mem_cons] at hP
      cases vs with
      | nil => exact h.elim
      | cons v vs => exact .cons (hP.1 v h.1) (ih hP.2 h.2)

/-- Induction on a value along its type. -/
theorem typedInduction {motive : Value → ConcreteType → Prop}
    (int : ∀ (n : ℕ) (v : ℤ), Value.HasType (.int v) (.single .int [.integer n]) →
      motive (.int v) (.single .int [.integer n]))
    (uint : ∀ (n : ℕ) (v : ℤ), Value.HasType (.int v) (.single .uint [.integer n]) →
      motive (.int v) (.single .uint [.integer n]))
    (bool : ∀ b, motive (.bool b) (.single .bool []))
    (tuple : ∀ vs types, HasTypeList vs types → (∀ ty ∈ types, Translatable ty) →
      List.Forall₂ motive vs types → motive (.fields vs) (.tuple types))
    (struct : ∀ vs (members : List (String × ConcreteType)),
      HasTypeList vs (members.map Prod.snd) → (∀ m ∈ members, Translatable m.2) →
      List.Forall₂ motive vs (members.map Prod.snd) → motive (.fields vs) (.struct members))
    (array : ∀ vs ty (n : ℕ), HasTypeList vs (List.replicate n ty) → Translatable ty →
      List.Forall₂ motive vs (List.replicate n ty) → motive (.fields vs) (.array ty n))
    (enum : ∀ option vs options types, HasTypeList vs types →
      (∀ o ∈ options, ∀ ty ∈ o, Translatable ty) → options[option]? = some types →
      List.Forall₂ motive vs types → motive (.variant option vs) (.enum options))
    {v : Value} {ty : ConcreteType} (h : v.HasType ty) (ht : Translatable ty) : motive v ty := by
  induction ht generalizing v with
  | int n =>
      cases v with
      | int v => exact int n v h
      | raw => exact absurd h.1 (by simp [ConcreteType.isRaw])
      | _ => exact h.elim
  | uint n =>
      cases v with
      | int v => exact uint n v h
      | raw => exact absurd h.1 (by simp [ConcreteType.isRaw])
      | _ => exact h.elim
  | bool =>
      cases v with
      | bool b => exact bool b
      | raw => exact absurd h.1 (by simp [ConcreteType.isRaw])
      | _ => exact h.elim
  | @tuple types hinner ih =>
      cases v with
      | fields vs =>
          exact tuple vs types h hinner (forall₂_of_hasTypeList (fun ty hty v => ih ty hty) h)
      | raw => exact absurd h.1 (by simp [ConcreteType.isRaw])
      | _ => exact h.elim
  | @struct members hmembers ih =>
      cases v with
      | fields vs =>
          refine struct vs members h hmembers (forall₂_of_hasTypeList (fun ty hty v => ?_) h)
          obtain ⟨m, hm, rfl⟩ := List.mem_map.mp hty
          exact ih m hm
      | raw => exact absurd h.1 (by simp [ConcreteType.isRaw])
      | _ => exact h.elim
  | @array inner n hinner ih =>
      cases v with
      | fields vs =>
          refine array vs inner n h hinner (forall₂_of_hasTypeList (fun ty hty v => ?_) h)
          obtain rfl := (List.mem_replicate.mp hty).2
          exact ih
      | raw => exact absurd h.1 (by simp [ConcreteType.isRaw])
      | _ => exact h.elim
  | @enum options hoptions ih =>
      cases v with
      | variant option vs =>
          rcases hoption : options[option]? with _ | types <;>
            simp only [Value.HasType, hoption] at h
          exact enum option vs options types h hoptions hoption
            (forall₂_of_hasTypeList (fun ty hty v => ih types (List.mem_of_getElem? hoption) ty hty) h)
      | raw => exact absurd h.1 (by simp [ConcreteType.isRaw])
      | _ => exact h.elim

theorem length_flatten_bitsList {vs : List Value} {types : List ConcreteType}
    (h : List.Forall₂ (fun v ty => (bits v ty).length = bitCount ty) vs types) :
    (bitsList vs types).flatten.length = (types.map bitCount).sum := by
  induction h with
  | nil => rfl
  | cons hlen _ ih =>
      rw [bitsList, List.flatten_cons, List.length_append, hlen, ih, List.map_cons, List.sum_cons]

/-- The bits of a value are as many as its type has. -/
theorem length_bits {v : Value} {ty : ConcreteType} (h : v.HasType ty) (ht : Translatable ty) :
    (bits v ty).length = bitCount ty := by
  refine typedInduction (motive := fun v ty => (bits v ty).length = bitCount ty)
    ?_ ?_ ?_ ?_ ?_ ?_ ?_ h ht
  · intro n v _
    rw [bits, List.length_map, BitString.length_ofInt]
  · intro n v _
    rw [bits, List.length_map, BitString.length_ofInt]
  · intro b
    rfl
  · intro vs types _ hinner hlen
    rw [bits, constructTupleBits, length_flatten_bitsList hlen, bitCount_tuple hinner]
  · intro vs members _ hmembers hlen
    rw [bits, constructTupleBits, length_flatten_bitsList hlen, bitCount_struct hmembers]
  · intro vs ty n _ hinner hlen
    rw [bits, constructArrayBits, Int.toNat_natCast, List.length_flatten, List.map_reverse,
      List.sum_reverse, ← List.length_flatten, length_flatten_bitsList hlen, bitCount_array hinner,
      List.map_replicate, List.sum_replicate_nat, Nat.mul_comm]
  · intro option vs options types _ hoptions hoption hlen
    have hsize := bitCount_enum hoptions (List.mem_of_getElem? hoption)
    have hparts := length_flatten_bitsList hlen
    simp only [bits, hoption, Option.getD_some, constructEnumBits, List.length_append,
      List.length_map, BitString.length_ofNat, List.length_replicate, hparts]
    omega

end Spade.VcdTranslate

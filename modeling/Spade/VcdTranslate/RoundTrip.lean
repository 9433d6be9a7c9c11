import Spade.VcdTranslate.Layout

/-!
# Printing the values that the hardware carries

The text that shows a value with every component in its own position (`print`), and what the
translation makes of the bits that the construction operators give the value.

* **Translation** (`translateValue_bits`): the translation prints the mirror image of the value, in
  which every array is reversed: `ConstructArray` puts the first element at the least significant
  end, and the translation reads from the most significant one.
* **Positions** (`translateValue_iff`): so a value is printed right exactly when its mirror image
  looks the same, and where components without bits have to be shown, when there are none.
-/

namespace Spade.VcdTranslate

open Mir hiding Value
open Hir

/-! ### Texts -/

/-- The places of the members of a tuple, with the names below them, from index `i` on. -/
def placesFrom (names : VariantNames) : ℕ → List ConcreteType → List (VariantNames × ConcreteType)
  | _, [] => []
  | i, ty :: types => (names.child i, ty) :: placesFrom names (i + 1) types

/-- The place of the elements of an array. -/
def elementPlaces (names : VariantNames) (size : ℕ) (ty : ConcreteType) :
    List (VariantNames × ConcreteType) :=
  List.replicate size (names.child 0, ty)

mutual

/-- The text of a value, with every component in its own position. With `skip` the text of a
component without bits is empty. -/
def print (skip : Bool) (names : VariantNames) : Value → ConcreteType → String
  | .int n, ty => if skip && bitCount ty == 0 then "" else toString n
  | .bool b, _ => if b then "true" else "false"
  | .fields vs, .tuple types =>
      if skip && bitCount (.tuple types) == 0 then ""
      else "(" ++ joinComma (printList skip vs (placesFrom names 0 types)) ++ ")"
  | .fields vs, .struct members =>
      if skip && bitCount (.struct members) == 0 then ""
      else "\x7b" ++ joinComma (List.zipWith (fun m text => m.1 ++ ":" ++ text) members
        (printList skip vs (placesFrom names 0 (members.map Prod.snd)))) ++ "\x7d"
  | .fields vs, .array t size =>
      if skip && bitCount (.array t size) == 0 then ""
      else "[" ++ joinComma (printList skip vs (elementPlaces names size.toNat t)) ++ "]"
  | .variant option vs, .enum options =>
      if skip && bitCount (.enum options) == 0 then ""
      else names [] option ++ "(" ++ joinComma (printList skip vs
        (placesFrom (names.child option) 0 (options[option]?.getD []))) ++ ")"
  | _, _ => ""

def printList (skip : Bool) : List Value → List (VariantNames × ConcreteType) → List String
  | v :: vs, place :: places => print skip place.1 v place.2 :: printList skip vs places
  | _, _ => []

end

mutual

/-- The value with every array in it reversed. -/
def mirror : Value → ConcreteType → Value
  | .fields vs, .tuple types => .fields (mirrorList vs types)
  | .fields vs, .struct members => .fields (mirrorList vs (members.map Prod.snd))
  | .fields vs, .array t size => .fields (mirrorList vs (List.replicate size.toNat t)).reverse
  | .variant option vs, .enum options =>
      .variant option (mirrorList vs (options[option]?.getD []))
  | v, _ => v

def mirrorList : List Value → List ConcreteType → List Value
  | v :: vs, ty :: types => mirror v ty :: mirrorList vs types
  | _, _ => []

end

mutual

/-- Every component of the value has bits. -/
def Visible : Value → ConcreteType → Prop
  | .int _, ty => bitCount ty ≠ 0
  | .fields vs, .tuple types => bitCount (.tuple types) ≠ 0 ∧ VisibleList vs types
  | .fields vs, .struct members =>
      bitCount (.struct members) ≠ 0 ∧ VisibleList vs (members.map Prod.snd)
  | .fields vs, .array t size =>
      bitCount (.array t size) ≠ 0 ∧ VisibleList vs (List.replicate size.toNat t)
  | .variant option vs, .enum options =>
      bitCount (.enum options) ≠ 0 ∧ VisibleList vs (options[option]?.getD [])
  | _, _ => True

def VisibleList : List Value → List ConcreteType → Prop
  | v :: vs, ty :: types => Visible v ty ∧ VisibleList vs types
  | _, _ => True

end


/-! ### One level of the translation -/

/-- What the extension makes of bits that are as many as the type has. -/
theorem extended_eq {value : List VcdValue} {ty : ConcreteType} {t : Ty}
    (ht : ty.toMirType = some t) (hlen : value.length = bitCount ty) :
    extended value ty = some (if bitCount ty = 0 then none else some value) := by
  rw [bitCount_of_eq ht] at hlen ⊢
  by_cases hzero : t.size = 0
  · simp [extended, ht, hlen, hzero]
  · obtain ⟨v, vs, rfl⟩ : ∃ v vs, value = v :: vs :=
      List.exists_cons_of_length_pos (by omega)
    simp only [extended, ht, Option.bind_eq_bind, Option.bind_some, hlen, lt_irrefl, if_false,
      hzero, Nat.sub_self, List.replicate_zero, List.nil_append]
    cases v <;> rfl

section level

variable {names : VariantNames} {value : List VcdValue}

theorem innerTranslateValue_empty {ty : ConcreteType} (h : extended value ty = some none) :
    innerTranslateValue names value ty = some "" := by
  unfold innerTranslateValue
  rw [h]
  rfl

theorem innerTranslateValue_tuple {inner : List ConcreteType} {parts : List String}
    (h : extended value (.tuple inner) = some (some value))
    (hparts : translateTypes names 0 value inner = some parts) :
    innerTranslateValue names value (.tuple inner) = some ("(" ++ joinComma parts ++ ")") := by
  unfold innerTranslateValue
  rw [h]
  simp [hparts]

theorem innerTranslateValue_struct {members : List (String × ConcreteType)} {parts : List String}
    (h : extended value (.struct members) = some (some value))
    (hparts : translateMembers names 0 value members = some parts) :
    innerTranslateValue names value (.struct members) =
      some ("\x7b" ++ joinComma parts ++ "\x7d") := by
  unfold innerTranslateValue
  rw [h]
  simp [hparts]

theorem innerTranslateValue_array {inner : ConcreteType} {t : Ty} {size : ℤ} {parts : List String}
    (h : extended value (.array inner size) = some (some value)) (ht : inner.toMirType = some t)
    (hparts : translateElements (fun bits => innerTranslateValue (names.child 0) bits inner)
      (bitCount inner) size.toNat value = some parts) :
    innerTranslateValue names value (.array inner size) =
      some ("[" ++ joinComma parts ++ "]") := by
  rw [bitCount_of_eq ht] at hparts
  unfold innerTranslateValue
  rw [h]
  simp [ht, hparts]

theorem innerTranslateValue_enum {options : List (List ConcreteType)} {tag : ℕ}
    {parts : List String} (h : extended value (.enum options) = some (some value))
    (hlen : tagSize options.length ≤ value.length) (hoption : tag < options.length)
    (htag : translateUint (value.take (tagSize options.length)) false = .value tag)
    (hparts : translateVariant (names.child tag) (value.drop (tagSize options.length)) tag options =
      some parts) :
    innerTranslateValue names value (.enum options) =
      some (names [] tag ++ "(" ++ joinComma parts ++ ")") := by
  unfold innerTranslateValue
  rw [h]
  simp [hlen.not_gt, htag, hoption.not_ge, hparts]

theorem innerTranslateValue_bool (names : VariantNames) (b : Bool) :
    innerTranslateValue names [vcdBit b] (.single .bool []) =
      some (if b then "true" else "false") := by
  have h : extended [vcdBit b] (.single .bool []) = some (some [vcdBit b]) := extended_eq rfl rfl
  unfold innerTranslateValue
  rw [h]
  cases b <;> rfl

theorem innerTranslateValue_int {params : List ConcreteType} {n : ℤ}
    (h : extended value (.single .int params) = some (some value))
    (hint : translateSignedInt value = some (.value n)) :
    innerTranslateValue names value (.single .int params) = some (toString n) := by
  unfold innerTranslateValue
  rw [h]
  simp [hint, MaybeValue.write]

theorem innerTranslateValue_uint {params : List ConcreteType} {n : ℕ}
    (h : extended value (.single .uint params) = some (some value))
    (huint : translateUnsignedInt value = .value n) :
    innerTranslateValue names value (.single .uint params) = some (toString n) := by
  unfold innerTranslateValue
  rw [h]
  simp [huint, MaybeValue.write]

end level

/-! ### Parts -/

/-- The bits are as many as the type has, and the translation prints the text for them. -/
def Translated (place : VariantNames × ConcreteType) (value : List VcdValue) (text : String) :
    Prop :=
  (∃ t, place.2.toMirType = some t) ∧ value.length = bitCount place.2 ∧
    innerTranslateValue place.1 value place.2 = some text

/-- The parts at the places are translated one by one. -/
def TranslatedList : List (VariantNames × ConcreteType) → List (List VcdValue) → List String → Prop
  | [], [], [] => True
  | place :: places, part :: parts, text :: texts =>
      Translated place part text ∧ TranslatedList places parts texts
  | _, _, _ => False

theorem TranslatedList.cons {place : VariantNames × ConcreteType}
    {places : List (VariantNames × ConcreteType)} {parts : List (List VcdValue)}
    {texts : List String} (h : TranslatedList (place :: places) parts texts) :
    ∃ part parts' text texts', parts = part :: parts' ∧ texts = text :: texts' ∧
      Translated place part text ∧ TranslatedList places parts' texts' := by
  rcases parts with _ | ⟨part, parts⟩ <;> rcases texts with _ | ⟨text, texts⟩
  · exact h.elim
  · exact h.elim
  · exact h.elim
  · exact ⟨part, parts, text, texts, rfl, rfl, h.1, h.2⟩

theorem TranslatedList.nil {parts : List (List VcdValue)} {texts : List String}
    (h : TranslatedList [] parts texts) : parts = [] ∧ texts = [] := by
  rcases parts with _ | ⟨part, parts⟩ <;> rcases texts with _ | ⟨text, texts⟩
  · exact ⟨rfl, rfl⟩
  · exact h.elim
  · exact h.elim
  · exact h.elim

theorem translateTypes_eq {names : VariantNames} {types : List ConcreteType} {i : ℕ}
    {parts : List (List VcdValue)} {texts : List String}
    (h : TranslatedList (placesFrom names i types) parts texts) (rest : List VcdValue) :
    translateTypes names i (parts.flatten ++ rest) types = some texts := by
  induction types generalizing i parts texts with
  | nil =>
      obtain ⟨rfl, rfl⟩ := TranslatedList.nil h
      rfl
  | cons ty types ih =>
      obtain ⟨part, parts, text, texts, rfl, rfl, ⟨⟨t, ht⟩, hlen, htext⟩, hrest⟩ :=
        TranslatedList.cons h
      rw [bitCount_of_eq ht] at hlen
      simp [translateTypes, ht, ← hlen, htext, ih hrest]

theorem translateMembers_eq {names : VariantNames} {members : List (String × ConcreteType)} {i : ℕ}
    {parts : List (List VcdValue)} {texts : List String}
    (h : TranslatedList (placesFrom names i (members.map Prod.snd)) parts texts)
    (rest : List VcdValue) :
    translateMembers names i (parts.flatten ++ rest) members =
      some (List.zipWith (fun m text => m.1 ++ ":" ++ text) members texts) := by
  induction members generalizing i parts texts with
  | nil => rfl
  | cons m members ih =>
      obtain ⟨part, parts, text, texts, rfl, rfl, ⟨⟨t, ht⟩, hlen, htext⟩, hrest⟩ :=
        TranslatedList.cons h
      rw [bitCount_of_eq ht] at hlen
      simp [translateMembers, ht, ← hlen, htext, ih hrest]

theorem translateVariant_eq {names : VariantNames} {value : List VcdValue} {variant : ℕ}
    {options : List (List ConcreteType)} {types : List ConcreteType}
    (h : options[variant]? = some types) :
    translateVariant names value variant options = translateTypes names 0 value types := by
  induction options generalizing variant with
  | nil => simp at h
  | cons o options ih =>
      cases variant with
      | zero =>
          obtain rfl : o = types := by simpa using h
          rfl
      | succ variant => exact ih (by simpa using h)

/-- The parts at one place, each of which is translated. -/
theorem translatedList_replicate {place : VariantNames × ConcreteType} {n : ℕ}
    {parts : List (List VcdValue)} {texts : List String} :
    TranslatedList (List.replicate n place) parts texts ↔
      parts.length = n ∧ List.Forall₂ (Translated place) parts texts := by
  induction n generalizing parts texts with
  | zero =>
      rcases parts with _ | ⟨part, parts⟩ <;> rcases texts with _ | ⟨text, texts⟩ <;>
        simp [TranslatedList]
  | succ n ih =>
      rcases parts with _ | ⟨part, parts⟩ <;> rcases texts with _ | ⟨text, texts⟩ <;>
        simp [TranslatedList, List.replicate_succ, ih, and_left_comm]

theorem translateElements_eq {place : VariantNames × ConcreteType} {parts : List (List VcdValue)}
    {texts : List String} (h : List.Forall₂ (Translated place) parts texts)
    (rest : List VcdValue) :
    translateElements (fun bits => innerTranslateValue place.1 bits place.2) (bitCount place.2)
      parts.length (parts.flatten ++ rest) = some texts := by
  induction h with
  | nil => rfl
  | cons hpart _ ih =>
      obtain ⟨-, hlen, htext⟩ := hpart
      rw [← hlen] at ih ⊢
      simp [translateElements, htext, ih]

/-! ### Translation -/

theorem placesFrom_types (names : VariantNames) (i : ℕ) (types : List ConcreteType) :
    (placesFrom names i types).map Prod.snd = types := by
  induction types generalizing i with
  | nil => rfl
  | cons ty types ih => rw [placesFrom, List.map_cons, ih]

theorem length_mirrorList {vs : List Value} {types : List ConcreteType}
    (h : vs.length = types.length) : (mirrorList vs types).length = vs.length := by
  induction vs generalizing types with
  | nil => rfl
  | cons v vs ih =>
      obtain ⟨ty, types, rfl⟩ := List.exists_cons_of_length_eq_add_one h.symm
      rw [mirrorList, List.length_cons, List.length_cons, ih (Nat.succ.inj h)]

/-- The texts of values at one place. -/
theorem printList_replicate (skip : Bool) (place : VariantNames × ConcreteType) {n : ℕ}
    {vs : List Value} (h : vs.length = n) :
    printList skip vs (List.replicate n place) = vs.map fun v => print skip place.1 v place.2 := by
  induction vs generalizing n with
  | nil =>
      cases n with
      | zero => rfl
      | succ n => simp at h
  | cons v vs ih =>
      cases n with
      | zero => simp at h
      | succ n =>
          rw [List.replicate_succ, printList, ih (Nat.succ.inj h), List.map_cons]

/-- The texts of the elements of a reversed array. -/
theorem printList_reverse (skip : Bool) (place : VariantNames × ConcreteType) {n : ℕ}
    {vs : List Value} (h : vs.length = n) :
    printList skip vs.reverse (List.replicate n place) =
      (printList skip vs (List.replicate n place)).reverse := by
  rw [printList_replicate skip place h, printList_replicate skip place (by rw [List.length_reverse, h]),
    List.map_reverse]

theorem toString_toNat {v : ℤ} (h : 0 ≤ v) : toString v.toNat = toString v := by
  obtain ⟨n, rfl⟩ := Int.eq_ofNat_of_zero_le h
  rfl

/-- The numbers of `int` are read back from their bits. -/
theorem translateSignedInt_ofInt {n : ℕ} {v : ℤ} (hn : n ≠ 0)
    (h : Value.HasType (.int v) (.single .int [.integer n])) :
    translateSignedInt ((BitString.ofInt n v).map vcdBit) = some (.value v) := by
  simp only [Value.HasType, ConcreteType.bounds, Int.toNat_natCast] at h
  have hne : BitString.ofInt n v ≠ [] := by
    intro hnil
    have hlen := BitString.length_ofInt n v
    rw [hnil] at hlen
    exact hn hlen.symm
  rw [translateSignedInt_bits hne, BitString.toInt_ofInt (Nat.pos_of_ne_zero hn) h.1 (by omega)]

/-- The numbers of `uint` are read back from their bits. -/
theorem translateUnsignedInt_ofInt {n : ℕ} {v : ℤ}
    (h : Value.HasType (.int v) (.single .uint [.integer n])) :
    translateUnsignedInt ((BitString.ofInt n v).map vcdBit) = .value v.toNat := by
  simp only [Value.HasType, ConcreteType.bounds, Int.toNat_natCast] at h
  obtain ⟨k, rfl⟩ := Int.eq_ofNat_of_zero_le h.1
  have hcast : ((2 ^ n : ℕ) : ℤ) = 2 ^ n := by
    push_cast
    rfl
  rw [translateUnsignedInt_bits, BitString.ofInt_natCast,
    BitString.toNat_ofNat_of_lt (by omega), Int.toNat_natCast]

/-- The tag and the rest of the bits of a variant. -/
theorem bits_variant {options : List (List ConcreteType)} {option : ℕ} {types : List ConcreteType}
    (hoption : options[option]? = some types) (vs : List Value) :
    ∃ padding, bits (.variant option vs) (.enum options) =
      (BitString.ofNat (tagSize options.length) option).map vcdBit ++
        ((bitsList vs types).flatten ++ padding) :=
  ⟨_, by rw [bits, hoption, Option.getD_some, constructEnumBits, List.append_assoc]⟩

/-- The text of a component without bits is skipped. -/
theorem print_mirror_of_bitCount_eq_zero {v : Value} {ty : ConcreteType} (names : VariantNames)
    (h : v.HasType ty) (ht : Translatable ty) (hzero : bitCount ty = 0) :
    print true names (mirror v ty) ty = "" := by
  refine typedInduction (motive := fun v ty => bitCount ty = 0 →
    print true names (mirror v ty) ty = "") ?_ ?_ ?_ ?_ ?_ ?_ ?_ h ht hzero
  · intro n v _ hzero
    simp [mirror, print, hzero]
  · intro n v _ hzero
    simp [mirror, print, hzero]
  · intro b hzero
    exact absurd hzero (by decide)
  · intro vs types _ _ _ hzero
    simp [mirror, print, hzero]
  · intro vs members _ _ _ hzero
    simp [mirror, print, hzero]
  · intro vs ty n _ _ _ hzero
    simp [mirror, print, hzero]
  · intro option vs options types _ _ _ _ hzero
    simp [mirror, print, hzero]

/-- A value that is translated at every place. -/
def TranslatedEverywhere (v : Value) (ty : ConcreteType) : Prop :=
  ∀ names, Translated (names, ty) (bits v ty) (print true names (mirror v ty) ty)

theorem TranslatedEverywhere.of_ne_zero {v : Value} {ty : ConcreteType} (h : v.HasType ty)
    (ht : Translatable ty)
    (htext : ∀ names, bitCount ty ≠ 0 → extended (bits v ty) ty = some (some (bits v ty)) →
      innerTranslateValue names (bits v ty) ty = some (print true names (mirror v ty) ty)) :
    TranslatedEverywhere v ty := by
  intro names
  obtain ⟨t, htype⟩ := ht.toMirType
  have hext := extended_eq htype (length_bits h ht)
  refine ⟨⟨t, htype⟩, length_bits h ht, ?_⟩
  by_cases hzero : bitCount ty = 0
  · rw [if_pos hzero] at hext
    rw [print_mirror_of_bitCount_eq_zero names h ht hzero]
    exact innerTranslateValue_empty hext
  · rw [if_neg hzero] at hext
    exact htext names hzero hext

theorem translatedList_of_forall₂ {vs : List Value} {types : List ConcreteType}
    {p : List (VariantNames × ConcreteType)} (hplaces : p.map Prod.snd = types)
    (h : List.Forall₂ TranslatedEverywhere vs types) :
    TranslatedList p (bitsList vs types) (printList true (mirrorList vs types) p) := by
  induction h generalizing p with
  | nil =>
      obtain rfl := List.map_eq_nil_iff.mp hplaces
      trivial
  | cons hv _ ih =>
      obtain ⟨place, places, rfl, rfl, hrest⟩ := List.map_eq_cons_iff.mp hplaces
      exact ⟨hv place.1, ih hrest⟩

theorem translatedEverywhere {v : Value} {ty : ConcreteType} (h : v.HasType ty)
    (ht : Translatable ty) : TranslatedEverywhere v ty := by
  refine typedInduction (motive := TranslatedEverywhere) ?_ ?_ ?_ ?_ ?_ ?_ ?_ h ht
  · intro n v h
    refine .of_ne_zero h (.int n) fun names hzero hext => ?_
    rw [bits, bitCount_int] at hext ⊢
    rw [bitCount_int] at hzero
    rw [innerTranslateValue_int hext (translateSignedInt_ofInt hzero h)]
    simp [mirror, print, bitCount_int, hzero]
  · intro n v h
    have hpos : 0 ≤ v := h.1
    refine .of_ne_zero h (.uint n) fun names hzero hext => ?_
    rw [bits, bitCount_uint] at hext ⊢
    rw [bitCount_uint] at hzero
    rw [innerTranslateValue_uint hext (translateUnsignedInt_ofInt h), toString_toNat hpos]
    simp [mirror, print, bitCount_uint, hzero]
  · intro b names
    exact ⟨⟨.bool, rfl⟩, rfl, innerTranslateValue_bool names b⟩
  · intro vs types h hinner hvs
    refine .of_ne_zero h (.tuple hinner) fun names hzero hext => ?_
    have hparts := translateTypes_eq
      (translatedList_of_forall₂ (placesFrom_types names 0 types) hvs) []
    rw [List.append_nil] at hparts
    rw [innerTranslateValue_tuple hext hparts]
    simp [mirror, print, hzero]
  · intro vs members h hmembers hvs
    refine .of_ne_zero h (.struct hmembers) fun names hzero hext => ?_
    have hparts := translateMembers_eq
      (translatedList_of_forall₂ (placesFrom_types names 0 _) hvs) []
    rw [List.append_nil] at hparts
    rw [innerTranslateValue_struct hext hparts]
    simp [mirror, print, hzero]
  · intro vs ty n h hinner hvs
    refine .of_ne_zero h (.array n hinner) fun names hzero hext => ?_
    obtain ⟨t, ht⟩ := hinner.toMirType
    have hlen := hvs.length_eq
    rw [List.length_replicate] at hlen
    have hmirror : (mirrorList vs (List.replicate n ty)).length = n :=
      (length_mirrorList hvs.length_eq).trans hlen
    obtain ⟨hcount, hparts⟩ := translatedList_replicate.mp
      (translatedList_of_forall₂ (p := elementPlaces names n ty) (by simp [elementPlaces]) hvs)
    -- the bits start with the last element
    have hreverse := translateElements_eq (List.forall₂_reverse_iff.mpr hparts) []
    rw [List.append_nil, List.length_reverse, hcount] at hreverse
    rw [innerTranslateValue_array hext ht hreverse]
    simp [mirror, print, hzero, elementPlaces, printList_reverse true (names.child 0, ty) hmirror]
  · intro option vs options types h hoptions hoption hvs
    have htyped : Value.HasType (.variant option vs) (.enum options) := by
      rw [Value.HasType, hoption]
      exact h
    refine .of_ne_zero htyped (.enum hoptions) fun names hzero hext => ?_
    have hlt : option < options.length := (List.getElem?_eq_some_iff.mp hoption).1
    obtain ⟨padding, hbits⟩ := bits_variant hoption vs
    have hparts := translateTypes_eq
      (translatedList_of_forall₂ (placesFrom_types (names.child option) 0 types) hvs) padding
    rw [← translateVariant_eq hoption] at hparts
    have htag : ((BitString.ofNat (tagSize options.length) option).map vcdBit).length =
        tagSize options.length := by simp
    rw [hbits] at hext ⊢
    rw [innerTranslateValue_enum hext (by simp) hlt
      (by rw [List.take_left' htag, translateUint_bits,
        BitString.toNat_ofNat_of_lt (lt_two_pow_tagSize hlt)])
      (by rw [List.drop_left' htag, hparts])]
    simp [mirror, print, hzero, hoption]

/-- The translation of the bits of a value shows its mirror image. -/
theorem translateValue_bits {v : Value} {ty : ConcreteType} (names : VariantNames)
    (h : v.HasType ty) (ht : Translatable ty) :
    translateValue names ty (bits v ty) = some (print true names (mirror v ty) ty) :=
  (translatedEverywhere h ht names).2.2

/-! ### Lengths -/

/-- The number of characters of the texts. -/
def textLength (texts : List String) : ℕ := (texts.map String.length).sum

theorem textLength_cons (text : String) (texts : List String) :
    textLength (text :: texts) = text.length + textLength texts := by
  rw [textLength, List.map_cons, List.sum_cons, textLength]

theorem textLength_reverse (texts : List String) : textLength texts.reverse = textLength texts := by
  rw [textLength, List.map_reverse, List.sum_reverse, textLength]

theorem length_joinComma (texts : List String) :
    (joinComma texts).length = textLength texts + (texts.length - 1) := by
  induction texts with
  | nil => rfl
  | cons text texts ih =>
      cases texts with
      | nil => rfl
      | cons text' texts =>
          have hcomma : ",".length = 1 := rfl
          have hjoin : joinComma (text :: text' :: texts) =
              text ++ "," ++ joinComma (text' :: texts) := rfl
          rw [hjoin, String.length_append, String.length_append, ih, textLength_cons text, hcomma]
          simp only [List.length_cons]
          omega

theorem textLength_zipWith {members : List (String × ConcreteType)} {texts : List String}
    (h : texts.length = members.length) :
    textLength (List.zipWith (fun m text => m.1 ++ ":" ++ text) members texts) =
      textLength texts + textLength (members.map fun m => m.1 ++ ":") := by
  induction members generalizing texts with
  | nil =>
      obtain rfl := List.length_eq_zero_iff.mp h
      rfl
  | cons m members ih =>
      obtain ⟨text, texts, rfl⟩ := List.exists_cons_of_length_eq_add_one h
      rw [List.zipWith_cons_cons, List.map_cons, textLength_cons, textLength_cons, textLength_cons,
        ih (Nat.succ.inj h), String.length_append]
      omega

theorem length_printList (skip : Bool) {vs : List Value}
    {places : List (VariantNames × ConcreteType)} (h : vs.length = places.length) :
    (printList skip vs places).length = places.length := by
  induction vs generalizing places with
  | nil =>
      obtain rfl := List.length_eq_zero_iff.mp h.symm
      rfl
  | cons v vs ih =>
      obtain ⟨place, places, rfl⟩ := List.exists_cons_of_length_eq_add_one h.symm
      rw [printList, List.length_cons, List.length_cons, ih (Nat.succ.inj h)]

theorem length_printList_of_types {skip : Bool} {vs : List Value} {types : List ConcreteType}
    {places : List (VariantNames × ConcreteType)} (hplaces : places.map Prod.snd = types)
    (h : vs.length = types.length) : (printList skip vs places).length = types.length := by
  have hlen : places.length = types.length := by rw [← hplaces, List.length_map]
  rw [length_printList skip (h.trans hlen.symm), hlen]

theorem length_toString_pos (n : ℤ) : 0 < (toString n).length := by
  cases n with
  | ofNat n => exact Nat.length_repr_pos
  | negSucc n =>
      have hrepr : toString (Int.negSucc n) = "-" ++ (n + 1).repr := rfl
      rw [hrepr, String.length_append]
      exact Nat.add_pos_left (by decide) _

/-! ### What is skipped -/

section lists

variable {vs : List Value} {types : List ConcreteType} {places : List (VariantNames × ConcreteType)}

theorem printList_of_visible (hplaces : places.map Prod.snd = types)
    (h : List.Forall₂ (fun v ty => ∀ names, Visible v ty →
      print true names v ty = print false names v ty) vs types)
    (hvisible : VisibleList vs types) : printList true vs places = printList false vs places := by
  induction h generalizing places with
  | nil => rfl
  | cons hv _ ih =>
      obtain ⟨place, places, rfl, rfl, hrest⟩ := List.map_eq_cons_iff.mp hplaces
      rw [printList, printList, hv place.1 hvisible.1, ih hrest hvisible.2]

theorem textLength_printList_le (hplaces : places.map Prod.snd = types)
    (h : List.Forall₂ (fun v ty => ∀ names,
      (print true names v ty).length ≤ (print false names v ty).length ∧
        ((print false names v ty).length ≤ (print true names v ty).length → Visible v ty))
      vs types) :
    textLength (printList true vs places) ≤ textLength (printList false vs places) ∧
      (textLength (printList false vs places) ≤ textLength (printList true vs places) →
        VisibleList vs types) := by
  induction h generalizing places with
  | nil => exact ⟨le_rfl, fun _ => trivial⟩
  | cons hv _ ih =>
      obtain ⟨place, places, rfl, rfl, hrest⟩ := List.map_eq_cons_iff.mp hplaces
      obtain ⟨hle, hvisible⟩ := hv place.1
      obtain ⟨hle', hvisible'⟩ := ih hrest
      rw [printList, printList, textLength_cons, textLength_cons]
      exact ⟨by omega, fun hlen => ⟨hvisible (by omega), hvisible' (by omega)⟩⟩

theorem textLength_mirrorList (hplaces : places.map Prod.snd = types)
    (h : List.Forall₂ (fun v ty => ∀ names,
      (print true names (mirror v ty) ty).length = (print true names v ty).length) vs types) :
    textLength (printList true (mirrorList vs types) places) =
      textLength (printList true vs places) := by
  induction h generalizing places with
  | nil => rfl
  | cons hv _ ih =>
      obtain ⟨place, places, rfl, rfl, hrest⟩ := List.map_eq_cons_iff.mp hplaces
      rw [mirrorList, printList, printList, textLength_cons, textLength_cons, hv place.1, ih hrest]

theorem visibleList_replicate {n : ℕ} {ty : ConcreteType} (h : vs.length = n) :
    VisibleList vs (List.replicate n ty) ↔ ∀ v ∈ vs, Visible v ty := by
  induction vs generalizing n with
  | nil => simp [VisibleList]
  | cons v vs ih =>
      obtain ⟨n, rfl⟩ : ∃ n', n = n' + 1 := ⟨vs.length, h.symm⟩
      rw [List.replicate_succ, VisibleList, ih (Nat.succ.inj h), List.forall_mem_cons]

theorem visibleList_mirrorList
    (h : List.Forall₂ (fun v ty => Visible v ty → Visible (mirror v ty) ty) vs types)
    (hvisible : VisibleList vs types) : VisibleList (mirrorList vs types) types := by
  induction h with
  | nil => trivial
  | cons hv _ ih => exact ⟨hv hvisible.1, ih hvisible.2⟩

end lists

/-- Where every component has bits, nothing is skipped. -/
theorem print_of_visible {v : Value} {ty : ConcreteType} (names : VariantNames)
    (h : v.HasType ty) (ht : Translatable ty) (hvisible : Visible v ty) :
    print true names v ty = print false names v ty := by
  refine typedInduction (motive := fun v ty => ∀ names, Visible v ty →
    print true names v ty = print false names v ty) ?_ ?_ ?_ ?_ ?_ ?_ ?_ h ht names hvisible
  · intro n v _ names hvisible
    rw [Visible] at hvisible
    simp [print, hvisible]
  · intro n v _ names hvisible
    rw [Visible] at hvisible
    simp [print, hvisible]
  · intro b names _
    rfl
  · intro vs types _ _ hvs names hvisible
    have htexts := printList_of_visible (placesFrom_types names 0 types) hvs hvisible.2
    simp [print, hvisible.1, htexts]
  · intro vs members _ _ hvs names hvisible
    have htexts := printList_of_visible (placesFrom_types names 0 _) hvs hvisible.2
    simp [print, hvisible.1, htexts]
  · intro vs ty n _ _ hvs names hvisible
    have htexts := @printList_of_visible vs _ (elementPlaces names n ty) (by simp [elementPlaces])
      hvs hvisible.2
    simp [print, hvisible.1, htexts]
  · intro option vs options types _ _ hoption hvs names hvisible
    rw [Visible, hoption] at hvisible
    have htexts := printList_of_visible (placesFrom_types (names.child option) 0 types) hvs hvisible.2
    simp [print, hvisible.1, hoption, htexts]

theorem visible_mirror {v : Value} {ty : ConcreteType} (h : v.HasType ty) (ht : Translatable ty)
    (hvisible : Visible v ty) : Visible (mirror v ty) ty := by
  refine typedInduction (motive := fun v ty => Visible v ty → Visible (mirror v ty) ty)
    ?_ ?_ ?_ ?_ ?_ ?_ ?_ h ht hvisible
  · intro n v _ hvisible
    exact hvisible
  · intro n v _ hvisible
    exact hvisible
  · intro b _
    trivial
  · intro vs types _ _ hvs hvisible
    exact ⟨hvisible.1, visibleList_mirrorList hvs hvisible.2⟩
  · intro vs members _ _ hvs hvisible
    exact ⟨hvisible.1, visibleList_mirrorList hvs hvisible.2⟩
  · intro vs ty n _ _ hvs hvisible
    have hlen := hvs.length_eq
    have hmirror := (length_mirrorList hlen).trans hlen
    rw [List.length_replicate] at hmirror
    have hlist := (visibleList_replicate hmirror).mp (visibleList_mirrorList hvs hvisible.2)
    have hreverse : (mirrorList vs (List.replicate n ty)).reverse.length = n := by
      rw [List.length_reverse, hmirror]
    refine ⟨hvisible.1, (visibleList_replicate hreverse).mpr fun v hv => ?_⟩
    exact hlist v (List.mem_reverse.mp hv)
  · intro option vs options types _ _ hoption hvs hvisible
    rw [Visible, hoption] at hvisible
    rw [mirror, Visible, hoption]
    exact ⟨hvisible.1, visibleList_mirrorList hvs hvisible.2⟩

/-- A text that is skipped where there are no bits. -/
theorem length_skip_le {text text' : String} {n : ℕ} {P : Prop} (hpos : 0 < text'.length)
    (h : text.length ≤ text'.length ∧ (text'.length ≤ text.length → P)) :
    (if n = 0 then "" else text).length ≤ text'.length ∧
      (text'.length ≤ (if n = 0 then "" else text).length → n ≠ 0 ∧ P) := by
  by_cases hzero : n = 0
  · rw [if_pos hzero]
    exact ⟨Nat.zero_le _, fun hshort => absurd hshort hpos.not_ge⟩
  · rw [if_neg hzero]
    exact ⟨h.1, fun hshort => ⟨hzero, h.2 hshort⟩⟩

/-- The text of a compound value. -/
theorem length_compound_le {opening closing : String} {texts texts' : List String} {n : ℕ}
    {P : Prop} (hopening : 0 < opening.length) (hlen : texts.length = texts'.length)
    (h : textLength texts ≤ textLength texts' ∧ (textLength texts' ≤ textLength texts → P)) :
    (if n = 0 then "" else opening ++ joinComma texts ++ closing).length ≤
        (opening ++ joinComma texts' ++ closing).length ∧
      ((opening ++ joinComma texts' ++ closing).length ≤
        (if n = 0 then "" else opening ++ joinComma texts ++ closing).length → n ≠ 0 ∧ P) := by
  obtain ⟨hle, hP⟩ := h
  apply length_skip_le
  · rw [String.length_append, String.length_append]
    omega
  · simp only [String.length_append, length_joinComma, hlen]
    exact ⟨by omega, fun hshort => hP (by omega)⟩

/-- Skipping only shortens a text, and a text that is not shortened has nothing to skip. -/
theorem length_print_le {v : Value} {ty : ConcreteType} (names : VariantNames)
    (h : v.HasType ty) (ht : Translatable ty) :
    (print true names v ty).length ≤ (print false names v ty).length ∧
      ((print false names v ty).length ≤ (print true names v ty).length → Visible v ty) := by
  refine typedInduction (motive := fun v ty => ∀ names,
    (print true names v ty).length ≤ (print false names v ty).length ∧
      ((print false names v ty).length ≤ (print true names v ty).length → Visible v ty))
    ?_ ?_ ?_ ?_ ?_ ?_ ?_ h ht names
  · intro n v _ names
    have hle := @length_skip_le _ _ (bitCount (.single .int [.integer n])) True
      (length_toString_pos v) ⟨le_rfl, fun _ => trivial⟩
    simpa [print, Visible] using hle
  · intro n v _ names
    have hle := @length_skip_le _ _ (bitCount (.single .uint [.integer n])) True
      (length_toString_pos v) ⟨le_rfl, fun _ => trivial⟩
    simpa [print, Visible] using hle
  · intro b names
    exact ⟨le_rfl, fun _ => trivial⟩
  · intro vs types _ _ hvs names
    have hplaces := placesFrom_types names 0 types
    have hle := @length_compound_le "(" ")" _ _ (bitCount (.tuple types)) _ (by decide)
      ((length_printList_of_types hplaces hvs.length_eq).trans
        (length_printList_of_types hplaces hvs.length_eq).symm) (textLength_printList_le hplaces hvs)
    simpa [print, Visible] using hle
  · intro vs members _ _ hvs names
    have hplaces := placesFrom_types names 0 (members.map Prod.snd)
    have htexts : ∀ skip, (printList skip vs (placesFrom names 0 (members.map Prod.snd))).length =
        members.length := fun skip => by
      rw [length_printList_of_types hplaces hvs.length_eq, List.length_map]
    obtain ⟨hle, hvisible⟩ := textLength_printList_le hplaces hvs
    have hle := @length_compound_le "\x7b" "\x7d"
      (List.zipWith (fun m text => m.1 ++ ":" ++ text) members (printList true vs _))
      (List.zipWith (fun m text => m.1 ++ ":" ++ text) members (printList false vs _))
      (bitCount (.struct members)) (VisibleList vs (members.map Prod.snd)) (by decide)
      (by rw [List.length_zipWith, List.length_zipWith, htexts, htexts])
      (by
        rw [textLength_zipWith (htexts true), textLength_zipWith (htexts false)]
        exact ⟨by omega, fun hshort => hvisible (by omega)⟩)
    simpa [print, Visible] using hle
  · intro vs ty n _ _ hvs names
    have hplaces : (elementPlaces names n ty).map Prod.snd = List.replicate n ty := by
      simp [elementPlaces]
    have hle := @length_compound_le "[" "]" _ _ (bitCount (.array ty n)) _ (by decide)
      ((length_printList_of_types hplaces hvs.length_eq).trans
        (length_printList_of_types hplaces hvs.length_eq).symm) (textLength_printList_le hplaces hvs)
    simpa [print, Visible] using hle
  · intro option vs options types _ _ hoption hvs names
    have hplaces := placesFrom_types (names.child option) 0 types
    have hle := @length_compound_le (names [] option ++ "(") ")" _ _ (bitCount (.enum options)) _
      (by rw [String.length_append]; exact Nat.add_pos_right _ (by decide))
      ((length_printList_of_types hplaces hvs.length_eq).trans
        (length_printList_of_types hplaces hvs.length_eq).symm) (textLength_printList_le hplaces hvs)
    simpa [print, Visible, hoption] using hle

/-- The text of a mirror image is as long as the text of the value. -/
theorem length_print_mirror {v : Value} {ty : ConcreteType} (names : VariantNames)
    (h : v.HasType ty) (ht : Translatable ty) :
    (print true names (mirror v ty) ty).length = (print true names v ty).length := by
  refine typedInduction (motive := fun v ty => ∀ names,
    (print true names (mirror v ty) ty).length = (print true names v ty).length)
    ?_ ?_ ?_ ?_ ?_ ?_ ?_ h ht names
  · intro n v _ names
    rfl
  · intro n v _ names
    rfl
  · intro b names
    rfl
  · intro vs types _ _ hvs names
    have hlen := hvs.length_eq
    have hplaces := placesFrom_types names 0 types
    have htexts := textLength_mirrorList hplaces hvs
    by_cases hzero : bitCount (.tuple types) = 0
    · simp [mirror, print, hzero]
    · simp [mirror, print, hzero, length_joinComma, htexts, length_printList_of_types hplaces hlen,
        length_printList_of_types hplaces ((length_mirrorList hlen).trans hlen)]
  · intro vs members _ _ hvs names
    have hlen := hvs.length_eq
    have hplaces := placesFrom_types names 0 (members.map Prod.snd)
    have htexts := textLength_mirrorList hplaces hvs
    have hcount := @length_printList_of_types true _ _ _ hplaces hlen
    have hcount' := @length_printList_of_types true _ _ _ hplaces ((length_mirrorList hlen).trans hlen)
    rw [List.length_map] at hcount hcount'
    by_cases hzero : bitCount (.struct members) = 0
    · simp [mirror, print, hzero]
    · simp [mirror, print, hzero, length_joinComma, htexts, textLength_zipWith hcount,
        textLength_zipWith hcount', hcount, hcount']
  · intro vs ty n _ _ hvs names
    have hlen := hvs.length_eq
    have hplaces : (elementPlaces names n ty).map Prod.snd = List.replicate n ty := by
      simp [elementPlaces]
    have htexts := textLength_mirrorList hplaces hvs
    have hmirror := (length_mirrorList hlen).trans hlen
    have hcount := @length_printList_of_types true _ _ _ hplaces hlen
    have hcount' := @length_printList_of_types true _ _ _ hplaces hmirror
    rw [List.length_replicate] at hmirror hcount hcount'
    have hreverse := printList_reverse true (names.child 0, ty) hmirror
    rw [← elementPlaces] at hreverse
    by_cases hzero : bitCount (.array ty n) = 0
    · simp [mirror, print, hzero]
    · simp [mirror, print, hzero, length_joinComma, hreverse, textLength_reverse, htexts, hcount,
        hcount']
  · intro option vs options types _ _ hoption hvs names
    have hlen := hvs.length_eq
    have hplaces := placesFrom_types (names.child option) 0 types
    have htexts := textLength_mirrorList hplaces hvs
    by_cases hzero : bitCount (.enum options) = 0
    · simp [mirror, print, hzero]
    · simp [mirror, print, hzero, hoption, length_joinComma, htexts,
        length_printList_of_types hplaces hlen,
        length_printList_of_types hplaces ((length_mirrorList hlen).trans hlen)]

theorem hasTypeList_mirrorList {vs : List Value} {types : List ConcreteType}
    (h : List.Forall₂ (fun v ty => (mirror v ty).HasType ty) vs types) :
    List.Forall₂ Value.HasType (mirrorList vs types) types := by
  induction h with
  | nil => exact .nil
  | cons hv _ ih => exact .cons hv ih

theorem hasTypeList_of_forall₂ {vs : List Value} {types : List ConcreteType}
    (h : List.Forall₂ Value.HasType vs types) : HasTypeList vs types := by
  induction h with
  | nil => trivial
  | cons hv _ ih => exact ⟨hv, ih⟩

theorem hasType_mirror {v : Value} {ty : ConcreteType} (h : v.HasType ty) (ht : Translatable ty) :
    (mirror v ty).HasType ty := by
  refine typedInduction (motive := fun v ty => (mirror v ty).HasType ty)
    ?_ ?_ ?_ ?_ ?_ ?_ ?_ h ht
  · intro n v h
    exact h
  · intro n v h
    exact h
  · intro b
    trivial
  · intro vs types _ _ hvs
    exact hasTypeList_of_forall₂ (hasTypeList_mirrorList hvs)
  · intro vs members _ _ hvs
    exact hasTypeList_of_forall₂ (hasTypeList_mirrorList hvs)
  · intro vs ty n _ _ hvs
    have hreverse := List.forall₂_reverse_iff.mpr (hasTypeList_mirrorList hvs)
    rw [List.reverse_replicate] at hreverse
    exact hasTypeList_of_forall₂ hreverse
  · intro option vs options types _ _ hoption hvs
    rw [mirror, hoption, Option.getD_some, Value.HasType, hoption]
    exact hasTypeList_of_forall₂ (hasTypeList_mirrorList hvs)

/-- **Positions**: the translation of the bits of a value shows every component in its own position
exactly when the value looks like its mirror image and, where the components without bits have to be
shown as well, when it has none. -/
theorem translateValue_iff {v : Value} {ty : ConcreteType} (skip : Bool) (names : VariantNames)
    (h : v.HasType ty) (ht : Translatable ty) :
    translateValue names ty (bits v ty) = some (print skip names v ty) ↔
      (skip = false → Visible v ty) ∧
        print skip names (mirror v ty) ty = print skip names v ty := by
  rw [translateValue_bits names h ht, Option.some.injEq]
  cases skip with
  | true => simp
  | false =>
      have hmirror : Visible v ty →
          print true names (mirror v ty) ty = print false names (mirror v ty) ty := fun hvisible =>
        print_of_visible names (hasType_mirror h ht) ht (visible_mirror h ht hvisible)
      constructor
      · intro heq
        have hvisible : Visible v ty := by
          refine (length_print_le names h ht).2 ?_
          rw [← heq, length_print_mirror names h ht]
        exact ⟨fun _ => hvisible, (hmirror hvisible).symm.trans heq⟩
      · rintro ⟨hvisible, heq⟩
        exact (hmirror (hvisible rfl)).trans heq

/-- An array that reads the same from both ends, next to a flag. -/
theorem translateValue_iff_palindrome :
    translateValue (fun _ _ => "") (.tuple [.array (.single .int [.integer 3]) 3, .single .bool []])
        (bits (.fields [.fields [.int 1, .int (-2), .int 1], .bool true])
          (.tuple [.array (.single .int [.integer 3]) 3, .single .bool []])) =
      some (print false (fun _ _ => "") (.fields [.fields [.int 1, .int (-2), .int 1], .bool true])
        (.tuple [.array (.single .int [.integer 3]) 3, .single .bool []])) := by
  have hint : Translatable (.single .int [.integer 3]) := .int 3
  have harray : Translatable (.array (.single .int [.integer 3]) 3) := .array 3 hint
  have ht : Translatable (.tuple [.array (.single .int [.integer 3]) 3, .single .bool []]) :=
    .tuple (by simpa using ⟨harray, .bool⟩)
  have hbits : bitCount (.single .int [.integer 3]) ≠ 0 := by decide
  refine (translateValue_iff false (fun _ _ => "") ?_ ht).mpr ⟨fun _ => ?_, ?_⟩
  · exact ⟨⟨⟨by decide, by decide⟩, ⟨by decide, by decide⟩, ⟨by decide, by decide⟩, trivial⟩,
      trivial, trivial⟩
  · exact ⟨by decide, ⟨by decide, hbits, hbits, hbits, trivial⟩, trivial, trivial⟩
  · decide

/-- **Order**: an array is printed from its last element to its first. -/
theorem not_translateValue :
    translateValue (fun _ _ => "") (.array (.single .int [.integer 3]) 2)
        (bits (.fields [.int 1, .int 2]) (.array (.single .int [.integer 3]) 2)) = some "[2,1]" ∧
      ¬ ∀ (v : Value) (ty : ConcreteType) (skip : Bool) (names : VariantNames), v.HasType ty →
        Translatable ty → translateValue names ty (bits v ty) = some (print skip names v ty) := by
  have h : Value.HasType (.fields [.int 1, .int 2]) (.array (.single .int [.integer 3]) 2) :=
    ⟨⟨by decide, by decide⟩, ⟨by decide, by decide⟩, trivial⟩
  have ht : Translatable (.array (.single .int [.integer 3]) 2) := .array 2 (.int 3)
  have htext := translateValue_bits (fun _ _ => "") h ht
  refine ⟨htext, fun hall => ?_⟩
  rw [hall _ _ true (fun _ _ => "") h ht] at htext
  exact absurd htext (by decide)

end Spade.VcdTranslate

import Spade.Hir.Pattern
import Spade.Mir.FieldAccess

/-!
# The bit layout of values

Which bit strings represent a value of a concrete type (`Value.Encodes`). The bits of an enum
behind the payload of its variant are arbitrary.

* **Sizes** (`encodes_length`): a representation has the size of the MIR type.
* **Parts** (`flatten_field`, `reverse_flatten_field`): the representation of a part of a value
  stands at the place where the operators that take values apart read it.
-/

namespace Spade.ConcreteType

open Mir

theorem toMirTypes_cons {ty : ConcreteType} {types : List ConcreteType} {ts : List Ty}
    (h : toMirTypes (ty :: types) = some ts) :
    ∃ t ts', ts = t :: ts' ∧ ty.toMirType = some t ∧ toMirTypes types = some ts' := by
  simp only [toMirTypes, Option.bind_eq_bind, Option.bind_eq_some_iff, Option.some.injEq] at h
  obtain ⟨t, ht, ts', hts, rfl⟩ := h
  exact ⟨t, ts', rfl, ht, hts⟩

theorem toMirTypes_get {types : List ConcreteType} {ts : List Ty}
    (h : toMirTypes types = some ts) {i : ℕ} {ty : ConcreteType} (hty : types[i]? = some ty) :
    ∃ t, ts[i]? = some t ∧ ty.toMirType = some t := by
  induction types generalizing ts i with
  | nil => simp at hty
  | cons type types ih =>
      obtain ⟨t, ts', rfl, ht, hts⟩ := toMirTypes_cons h
      cases i with
      | zero =>
          obtain rfl : type = ty := by simpa using hty
          exact ⟨t, rfl, ht⟩
      | succ i =>
          obtain ⟨t', ht', hty'⟩ := ih hts (by simpa using hty)
          exact ⟨t', by simpa using ht', hty'⟩

theorem toMirTypes_replicate {ty : ConcreteType} {t : Ty} (h : ty.toMirType = some t) (n : ℕ) :
    toMirTypes (List.replicate n ty) = some (List.replicate n t) := by
  induction n with
  | zero => rfl
  | succ n ih => simp [List.replicate_succ, toMirTypes, h, ih]

theorem toMirMembers_types {members : List (String × ConcreteType)} {ms : List (String × Ty)}
    (h : toMirMembers members = some ms) :
    toMirTypes (members.map Prod.snd) = some (ms.map Prod.snd) := by
  induction members generalizing ms with
  | nil =>
      obtain rfl := Option.some.inj h
      rfl
  | cons m members ih =>
      simp only [toMirMembers, Option.bind_eq_bind, Option.bind_eq_some_iff,
        Option.some.injEq] at h
      obtain ⟨t, ht, ms', hms, rfl⟩ := h
      simp [toMirTypes, ht, ih hms]

theorem toMirOptions_get {options : List (List ConcreteType)} {os : List (List Ty)}
    (h : toMirOptions options = some os) : os.length = options.length ∧
      ∀ (i : ℕ) (types : List ConcreteType), options[i]? = some types →
        ∃ ts, os[i]? = some ts ∧ toMirTypes types = some ts := by
  induction options generalizing os with
  | nil =>
      obtain rfl := Option.some.inj h
      exact ⟨rfl, by simp⟩
  | cons types options ih =>
      simp only [toMirOptions, Option.bind_eq_bind, Option.bind_eq_some_iff,
        Option.some.injEq] at h
      obtain ⟨ts, hts, os', hos, rfl⟩ := h
      obtain ⟨hlen, hget⟩ := ih hos
      refine ⟨by simp [hlen], fun i types' htypes => ?_⟩
      cases i with
      | zero =>
          obtain rfl : types = types' := by simpa using htypes
          exact ⟨ts, rfl, hts⟩
      | succ i => simpa using hget i types' (by simpa using htypes)

end Spade.ConcreteType

namespace Spade.Hir

open Mir ConcreteType

mutual

/-- The bits represent the value at the type. -/
def Value.Encodes : Value → ConcreteType → BitString → Prop
  | .int n, ty, bits =>
      match ty.bounds with
      | some (min, max) => min ≤ n ∧ n ≤ max ∧
          ∃ t, ty.toMirType = some t ∧ bits = BitString.ofNat t.size (n % 2 ^ t.size).toNat
      | none => False
  | .bool b, ty, bits => ty = .single .bool [] ∧ bits = [b]
  | .raw b, ty, bits => (ty.isRaw = true ∧ ∃ t, ty.toMirType = some t ∧ b.length = t.size) ∧
      bits = b
  | .fields vs, ty, bits =>
      match ty with
      | .tuple types => ∃ parts, EncodesList vs types parts ∧ bits = parts.flatten
      | .struct members =>
          ∃ parts, EncodesList vs (members.map Prod.snd) parts ∧ bits = parts.flatten
      | .array type size => ∃ parts, EncodesList vs (List.replicate size.toNat type) parts ∧
          bits = parts.reverse.flatten
      | _ => False
  | .variant option vs, ty, bits =>
      match ty with
      | .enum options =>
          match options[option]? with
          | some types => ∃ t parts padding, ty.toMirType = some t ∧ EncodesList vs types parts ∧
              bits = BitString.ofNat (tagSize options.length) option ++
                (parts.flatten ++ padding) ∧ bits.length = t.size
          | none => False
      | _ => False

/-- The bit strings represent the values at the types one by one. -/
def EncodesList : List Value → List ConcreteType → List BitString → Prop
  | [], [], [] => True
  | v :: vs, ty :: types, bits :: parts => v.Encodes ty bits ∧ EncodesList vs types parts
  | _, _, _ => False

end

theorem toMirType_bounds {ty : ConcreteType} {bounds : ℤ × ℤ} (h : ty.bounds = some bounds)
    {t : Ty} (ht : ty.toMirType = some t) : ∃ n : ℕ,
      ((ty = .single .int [.integer n] ∧ t = .int n) ∨
        (ty = .single .uint [.integer n] ∧ t = .uint n)) := by
  unfold ConcreteType.bounds at h
  split at h
  · rename_i bits
    simp only [toMirType] at ht
    split_ifs at ht with hneg
    obtain rfl := Option.some.inj ht
    exact ⟨bits.toNat, Or.inl ⟨by rw [Int.toNat_of_nonneg (by omega)], rfl⟩⟩
  · rename_i bits
    simp only [toMirType] at ht
    split_ifs at ht with hneg
    obtain rfl := Option.some.inj ht
    exact ⟨bits.toNat, Or.inr ⟨by rw [Int.toNat_of_nonneg (by omega)], rfl⟩⟩
  · exact absurd h.symm (Option.some_ne_none _)

mutual

/-- **Sizes.** -/
theorem encodes_length : ∀ (v : Value) (ty : ConcreteType) (bits : BitString) (t : Ty),
    v.Encodes ty bits → ty.toMirType = some t → bits.length = t.size
  | .int n, ty, bits, t, h, ht => by
      rcases hbounds : ty.bounds with _ | bounds <;> simp only [Value.Encodes, hbounds] at h
      obtain ⟨-, -, t', ht', rfl⟩ := h
      obtain rfl := Option.some.inj (ht.symm.trans ht')
      rw [BitString.length_ofNat]
  | .bool b, ty, bits, t, h, ht => by
      obtain ⟨rfl, rfl⟩ := h
      obtain rfl := Option.some.inj ht
      rfl
  | .raw b, ty, bits, t, h, ht => by
      obtain ⟨⟨-, t', ht', hlen⟩, rfl⟩ := h
      obtain rfl := Option.some.inj (ht.symm.trans ht')
      exact hlen
  | .fields vs, ty, bits, t, h, ht => by
      cases ty with
      | tuple types =>
          obtain ⟨parts, hparts, rfl⟩ := h
          simp only [toMirType, Option.bind_eq_bind, Option.bind_eq_some_iff,
            Option.some.injEq] at ht
          obtain ⟨ts, hts, rfl⟩ := ht
          rw [(encodesList_length vs types parts ts hparts hts).2, Ty.size]
      | struct members =>
          obtain ⟨parts, hparts, rfl⟩ := h
          simp only [toMirType, Option.bind_eq_bind, Option.bind_eq_some_iff,
            Option.some.injEq] at ht
          obtain ⟨ms, hms, rfl⟩ := ht
          rw [(encodesList_length vs _ parts _ hparts (toMirMembers_types hms)).2, Ty.size]
          simp [Function.comp_def]
      | array type size =>
          obtain ⟨parts, hparts, rfl⟩ := h
          simp only [toMirType] at ht
          split_ifs at ht
          simp only [Option.bind_eq_bind, Option.bind_eq_some_iff, Option.some.injEq] at ht
          obtain ⟨t, ht, rfl⟩ := ht
          have hlen := (encodesList_length vs _ parts _ hparts (toMirTypes_replicate ht _)).2
          rw [Ty.size, List.length_flatten, List.map_reverse, List.sum_reverse,
            ← List.length_flatten, hlen]
          simp [Nat.mul_comm]
      | _ => exact h.elim
  | .variant option vs, ty, bits, t, h, ht => by
      cases ty with
      | enum options =>
          rcases hoption : options[option]? with _ | types <;>
            simp only [Value.Encodes, hoption] at h
          obtain ⟨t', parts, padding, ht', -, -, hlen⟩ := h
          obtain rfl := Option.some.inj (ht.symm.trans ht')
          exact hlen
      | _ => exact h.elim

theorem encodesList_length : ∀ (vs : List Value) (types : List ConcreteType)
    (parts : List BitString) (ts : List Ty), EncodesList vs types parts →
    toMirTypes types = some ts →
    List.Forall₂ (fun bits t => bits.length = t.size) parts ts ∧
      parts.flatten.length = Ty.sizeSum ts
  | [], [], [], ts, _, hts => by
      obtain rfl := Option.some.inj hts
      exact ⟨.nil, rfl⟩
  | v :: vs, ty :: types, bits :: parts, ts, h, hts => by
      obtain ⟨t, ts', rfl, ht, hts⟩ := toMirTypes_cons hts
      have hhead := encodes_length v ty bits t h.1 ht
      obtain ⟨hlens, hsum⟩ := encodesList_length vs types parts ts' h.2 hts
      refine ⟨.cons hhead hlens, ?_⟩
      rw [List.flatten_cons, List.length_append, hhead, hsum, Ty.sizeSum]
  | [], [], _ :: _, _, h, _ => h.elim
  | [], _ :: _, _, _, h, _ => h.elim
  | _ :: _, [], _, _, h, _ => h.elim
  | _ :: _, _ :: _, [], _, h, _ => h.elim

end

/-! ### Inversion of representations -/

theorem encodes_int {v : Value} {ty : ConcreteType} {bits : BitString} {min max : ℤ}
    (hbounds : ty.bounds = some (min, max)) (h : v.Encodes ty bits) :
    ∃ n t, v = .int n ∧ min ≤ n ∧ n ≤ max ∧ ty.toMirType = some t ∧
      bits = BitString.ofNat t.size (n % 2 ^ t.size).toNat := by
  cases v with
  | int n =>
      simp only [Value.Encodes, hbounds] at h
      obtain ⟨hmin, hmax, t, ht, hbits⟩ := h
      exact ⟨n, t, rfl, hmin, hmax, ht, hbits⟩
  | bool b =>
      obtain ⟨rfl, -⟩ := h
      exact absurd hbounds.symm (Option.some_ne_none _)
  | raw b =>
      obtain ⟨⟨hraw, -⟩, -⟩ := h
      unfold ConcreteType.bounds at hbounds
      split at hbounds <;> simp [isRaw] at hraw hbounds
  | fields vs =>
      unfold ConcreteType.bounds at hbounds
      split at hbounds <;> simp [Value.Encodes] at h hbounds
  | variant option vs =>
      unfold ConcreteType.bounds at hbounds
      split at hbounds <;> simp [Value.Encodes] at h hbounds

theorem encodes_bool {v : Value} {bits : BitString} (h : v.Encodes (.single .bool []) bits) :
    ∃ b, v = .bool b ∧ bits = [b] := by
  cases v with
  | bool b => exact ⟨b, rfl, h.2⟩
  | int n => simp [Value.Encodes, ConcreteType.bounds] at h
  | raw b => simp [Value.Encodes, isRaw] at h
  | fields vs => exact h.elim
  | variant option vs => exact h.elim

theorem encodes_tuple {v : Value} {types : List ConcreteType} {bits : BitString}
    (h : v.Encodes (.tuple types) bits) :
    ∃ vs parts, v = .fields vs ∧ EncodesList vs types parts ∧ bits = parts.flatten := by
  cases v with
  | fields vs => exact ⟨vs, h.choose, rfl, h.choose_spec⟩
  | bool b => exact absurd h.1 (by simp)
  | int n => simp [Value.Encodes, ConcreteType.bounds] at h
  | raw b => simp [Value.Encodes, isRaw] at h
  | variant option vs => exact h.elim

theorem encodes_struct {v : Value} {members : List (String × ConcreteType)} {bits : BitString}
    (h : v.Encodes (.struct members) bits) :
    ∃ vs parts, v = .fields vs ∧ EncodesList vs (members.map Prod.snd) parts ∧
      bits = parts.flatten := by
  cases v with
  | fields vs => exact ⟨vs, h.choose, rfl, h.choose_spec⟩
  | bool b => exact absurd h.1 (by simp)
  | int n => simp [Value.Encodes, ConcreteType.bounds] at h
  | raw b => simp [Value.Encodes, isRaw] at h
  | variant option vs => exact h.elim

theorem encodes_array {v : Value} {type : ConcreteType} {size : ℤ} {bits : BitString}
    (h : v.Encodes (.array type size) bits) :
    ∃ vs parts, v = .fields vs ∧ EncodesList vs (List.replicate size.toNat type) parts ∧
      bits = parts.reverse.flatten := by
  cases v with
  | fields vs => exact ⟨vs, h.choose, rfl, h.choose_spec⟩
  | bool b => exact absurd h.1 (by simp)
  | int n => simp [Value.Encodes, ConcreteType.bounds] at h
  | raw b => simp [Value.Encodes, isRaw] at h
  | variant option vs => exact h.elim

theorem encodes_enum {v : Value} {options : List (List ConcreteType)} {bits : BitString}
    (h : v.Encodes (.enum options) bits) :
    ∃ option vs types t parts padding, v = .variant option vs ∧ options[option]? = some types ∧
      (ConcreteType.enum options).toMirType = some t ∧ EncodesList vs types parts ∧
      bits = BitString.ofNat (tagSize options.length) option ++ (parts.flatten ++ padding) ∧
      bits.length = t.size := by
  cases v with
  | variant option vs =>
      rcases hoption : options[option]? with _ | types <;>
        simp only [Value.Encodes, hoption] at h
      obtain ⟨t, parts, padding, h⟩ := h
      exact ⟨option, vs, types, t, parts, padding, rfl, hoption, h⟩
  | bool b => exact absurd h.1 (by simp)
  | int n => simp [Value.Encodes, ConcreteType.bounds] at h
  | raw b => simp [Value.Encodes, isRaw] at h
  | fields vs => exact h.elim

/-- Two values of an integer type with the same bits are equal. -/
theorem int_bits_injective {ty : ConcreteType} {t : Ty} {min max a b : ℤ}
    (hbounds : ty.bounds = some (min, max)) (ht : ty.toMirType = some t) (hsize : t.size ≠ 0)
    (ha : min ≤ a ∧ a ≤ max) (hb : min ≤ b ∧ b ≤ max)
    (h : a % 2 ^ t.size = b % 2 ^ t.size) : a = b := by
  have hrange : max - min < 2 ^ t.size := by
    obtain ⟨n, ⟨rfl, rfl⟩ | ⟨rfl, rfl⟩⟩ := toMirType_bounds hbounds ht
    · obtain ⟨rfl, rfl⟩ : -2 ^ (n - 1) = min ∧ 2 ^ (n - 1) - 1 = max := by
        simpa [ConcreteType.bounds] using hbounds
      obtain ⟨m, rfl⟩ := Nat.exists_eq_succ_of_ne_zero hsize
      simp only [Nat.succ_eq_add_one, Nat.add_sub_cancel, Ty.size, pow_succ]
      omega
    · obtain ⟨rfl, rfl⟩ : 0 = min ∧ 2 ^ n - 1 = max := by
        simpa [ConcreteType.bounds] using hbounds
      simp [Ty.size]
  have hdvd : (2 ^ t.size : ℤ) ∣ a - b := Int.dvd_of_emod_eq_zero 
    (Int.emod_eq_emod_iff_emod_sub_eq_zero.mp h)
  have hzero := Int.eq_zero_of_abs_lt_dvd hdvd (by rw [abs_lt]; omega)
  omega

/-! ### Parts -/

/-- A part of a concatenation. -/
theorem flatten_field {parts : List BitString} {ts : List Ty}
    (h : List.Forall₂ (fun bits t => bits.length = t.size) parts ts) {i : ℕ} {t : Ty}
    (ht : ts[i]? = some t) :
    parts[i]? = some (BitString.field (Ty.sizeSum (ts.take i)) t.size parts.flatten) := by
  induction h generalizing i with
  | nil => simp at ht
  | @cons bits type parts ts hbits _ ih =>
      cases i with
      | zero =>
          obtain rfl : type = t := by simpa using ht
          have hfield := @BitString.field_append [] bits parts.flatten
          rw [hbits] at hfield
          simpa [Ty.sizeSum] using hfield.symm
      | succ i =>
          have htail := ih (by simpa using ht)
          rw [List.getElem?_cons_succ, htail, List.flatten_cons, List.take_succ_cons, Ty.sizeSum,
            ← hbits, BitString.field, BitString.field, ← List.drop_drop, List.drop_left]

/-- An element of an array. -/
theorem reverse_flatten_field {parts : List BitString} {t : Ty}
    (h : ∀ bits ∈ parts, bits.length = t.size) {i : ℕ} (hi : i < parts.length) :
    parts[i]? = some
      (BitString.field (t.size * (parts.length - 1 - i)) t.size parts.reverse.flatten) := by
  have hreverse : List.Forall₂ (fun bits (t : Ty) => bits.length = t.size) parts.reverse
      (List.replicate parts.length t) := by
    rw [List.forall₂_iff_get]
    refine ⟨by simp, fun j hj hj' => ?_⟩
    simp only [List.get_eq_getElem, List.getElem_replicate]
    exact h _ (List.mem_reverse.mp (List.getElem_mem _))
  have hfield := @flatten_field _ _ hreverse (parts.length - 1 - i) t
    (by rw [List.getElem?_replicate, if_pos (by omega)])
  rw [List.getElem?_reverse (by omega), show parts.length - 1 - (parts.length - 1 - i) = i by omega,
    List.take_replicate, Nat.min_eq_left (by omega)] at hfield
  rw [hfield]
  simp [Nat.mul_comm]

end Spade.Hir

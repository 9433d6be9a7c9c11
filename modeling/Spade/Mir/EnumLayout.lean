import Spade.Mir.Codegen

/-!
# The bit layout of enums

`ConstructEnum`, `IsEnumVariant` and `EnumMember` compute the position of the tag, of the payload
members and of the padding independently. Here the three are compared on the bits they produce:
`EnumRoundTrip options variant` says that the code of all three is generated, that the tag test
recognises exactly the constructed variant, and that every member of the payload is read back,
whatever the padding is.

* **The layout of a constructed enum** (`eval_constructEnumCode`): tag, payload, padding, from the
  most significant bit down.
* **The round trip** (`enumRoundTrip_iff`) holds exactly for the variants that satisfy
  `EnumLayoutSound`: the enum has bits at all, no member of the payload is without bits, and in an
  enum without a tag only the last member may have a single bit.
-/

namespace Spade.Mir

open Verilog

variable {ν : Type} {env : ν → Option BitString} {pad : ℕ → Bool}

/-- The operands `ops` carry a payload of the given types. -/
inductive Operands (env : ν → Option BitString) : List ν → List Ty → List BitString → Prop where
  | nil : Operands env [] [] []
  | cons {op : ν} {t : Ty} {bits : BitString} {ops : List ν} {ts : List Ty}
      {payload : List BitString} :
      Declares env op t bits → Operands env ops ts payload →
      Operands env (op :: ops) (t :: ts) (bits :: payload)

namespace Operands

theorem length_flatten {ops : List ν} {ts : List Ty} {payload : List BitString}
    (h : Operands env ops ts payload) : payload.flatten.length = Ty.sizeSum ts := by
  induction h with
  | nil => rfl
  | cons hop _ ih => rw [List.flatten_cons, List.length_append, ih, hop.length_eq, Ty.sizeSum]

/-- The concatenation of operands that all have bits. -/
theorem evalConcat {ops : List ν} {ts : List Ty} {payload : List BitString}
    (h : Operands env ops ts payload) (hts : ∀ t ∈ ts, t.size ≠ 0) :
    Expr.evalConcat env pad (ops.map .ident) = some payload.flatten := by
  induction h with
  | nil => rfl
  | cons hop _ ih =>
      rw [List.forall_mem_cons] at hts
      exact Expr.evalConcat_cons (hop.env_of_pos hts.1) (ih hts.2)

/-- An operand without bits is not declared, so nothing can read it. -/
theorem exists_undeclared {ops : List ν} {ts : List Ty} {payload : List BitString}
    (h : Operands env ops ts payload) {t : Ty} (ht : t ∈ ts) (h0 : t.size = 0) :
    ∃ op ∈ ops, env op = none := by
  induction h with
  | nil => exact absurd ht List.not_mem_nil
  | cons hop _ ih =>
      rcases List.mem_cons.mp ht with rfl | ht
      · exact ⟨_, List.mem_cons_self, by rw [hop.env_eq, if_pos h0]⟩
      · obtain ⟨op, hop, hn⟩ := ih ht
        exact ⟨op, List.mem_cons_of_mem _ hop, hn⟩

/-- A member of the payload together with what stands in front of and behind it. -/
theorem split {ops : List ν} {ts : List Ty} {payload : List BitString}
    (h : Operands env ops ts payload) {i : ℕ} {t : Ty} (ht : ts[i]? = some t) :
    ∃ pre bits post, payload = pre ++ bits :: post ∧ payload[i]? = some bits ∧
      bits.length = t.size ∧ pre.flatten.length = Ty.sizeSum (ts.take i) ∧
      post.flatten.length = Ty.sizeSum (ts.drop (i + 1)) := by
  induction h generalizing i with
  | nil => simp at ht
  | cons hop hops ih =>
      cases i with
      | zero =>
          obtain rfl : _ = t := by simpa using ht
          exact ⟨[], _, _, rfl, rfl, hop.length_eq, by simp, by
            simpa using hops.length_flatten⟩
      | succ i =>
          obtain ⟨pre, bits, post, rfl, hi, hlen, hpre, hpost⟩ := ih (by simpa using ht)
          refine ⟨_ :: pre, bits, post, rfl, by simpa using hi, hlen, ?_, by simpa using hpost⟩
          rw [List.flatten_cons, List.length_append, hpre, hop.length_eq, List.take_succ_cons,
            Ty.sizeSum]

end Operands

/-! ### Construction -/

/-- The number of padding bits behind the payload of a variant. -/
def paddingSize (options : List (List Ty)) (members : List Ty) : ℕ :=
  Ty.sizeMax options - Ty.sizeSum members

/-- The bits of a constructed variant: tag, payload, padding. -/
def enumBits (options : List (List Ty)) (variant : ℕ) (members : List Ty)
    (payload : List BitString) (pad : ℕ → Bool) : BitString :=
  BitString.ofNat (tagSize options.length) variant ++
    (payload.flatten ++ (List.range (paddingSize options members)).map pad)

theorem length_enumBits (pad : ℕ → Bool) {options : List (List Ty)} {variant : ℕ} {members : List Ty}
    {ops : List ν} {payload : List BitString} (hm : members ∈ options)
    (h : Operands env ops members payload) :
    (enumBits options variant members payload pad).length = (Ty.enum options).size := by
  have := Ty.sizeSum_le_sizeMax hm
  simp only [enumBits, List.length_append, BitString.length_ofNat, h.length_flatten,
    List.length_map, List.length_range, Ty.size, paddingSize]
  omega

/-- The code of `ConstructEnum` computes the tag, the payload and the padding, in this order, as
long as every member of the payload has bits. -/
theorem eval_constructEnumCode (pad : ℕ → Bool) {options : List (List Ty)} {variant : ℕ} {members : List Ty}
    {ops : List ν} {payload : List BitString} (hm : options[variant]? = some members)
    (h : Operands env ops members payload) (hts : ∀ t ∈ members, t.size ≠ 0) :
    ∃ e, constructEnumCode variant options.length (.enum options) ops = some e ∧
      e.eval env pad = some (enumBits options variant members payload pad) := by
  have hle := Ty.sizeSum_le_sizeMax (List.mem_of_getElem? hm)
  have hpad : tagSize options.length + Ty.sizeMax options - tagSize options.length -
      Ty.sizeSum members = paddingSize options members := by
    simp [paddingSize]
  refine ⟨_, by
    simp only [constructEnumCode, Ty.assumeEnum, Option.bind_eq_bind, Option.bind_some, hm,
      Ty.size, checkedSub_of_le (Nat.le_add_right _ _)]
    rw [checkedSub_of_le (by omega), Option.bind_some, hpad], ?_⟩
  rw [Expr.eval_concat, enumBits]
  refine Expr.evalConcat_append ?_ (Expr.evalConcat_append (h.evalConcat hts) ?_)
  · by_cases htag : tagSize options.length = 0
    · simp [htag, BitString.ofNat]
    · rw [if_pos htag]
      simp [Expr.evalConcat, Expr.eval]
  · by_cases hp : paddingSize options members = 0
    · simp [hp]
    · rw [if_pos hp]
      simp [Expr.evalConcat, Expr.eval]

/-- A payload member without bits is still named by the code of `ConstructEnum`, which then reads
an undeclared variable. -/
theorem constructEnum_of_zero_size {options : List (List Ty)} {variant variantCount : ℕ}
    {members : List Ty} {ops : List ν} {payload : List BitString}
    (h : Operands env ops members payload) {t : Ty} (ht : t ∈ members) (h0 : t.size = 0)
    (hsize : (Ty.enum options).size ≠ 0) :
    assigned env pad (.enum options)
      (constructEnumCode variant variantCount (.enum options) ops) = none := by
  obtain ⟨op, hop, hn⟩ := h.exists_undeclared ht h0
  rw [assigned, if_neg hsize]
  rcases he : constructEnumCode variant variantCount (.enum options) ops with _ | e
  · rfl
  · simp only [constructEnumCode, Option.bind_eq_bind, Option.bind_eq_some_iff] at he
    obtain ⟨_, _, _, _, _, _, _, _, he⟩ := he
    obtain rfl := Option.some_injective _ he
    simp only [Option.bind_eq_bind, Option.bind_some, Expr.eval_concat]
    rw [Expr.evalConcat_eq_none (e := .ident op) (by simp [hop]) hn]
    rfl

/-! ### The tag test -/

/-- The tag test on a bit string that starts with some tag. -/
theorem assigned_isEnumVariant {options : List (List Ty)} {variant w : ℕ} {op : ν}
    {rest : BitString} (hvt : variant < 2 ^ tagSize options.length) (hw : w < options.length)
    (hop : Declares env op (.enum options)
      (BitString.ofNat (tagSize options.length) variant ++ rest))
    (hsize : (Ty.enum options).size ≠ 0) :
    assigned env pad .bool (isEnumVariantCode w (.enum options) op) = some [w == variant] := by
  have hwt := lt_two_pow_tagSize hw
  have henv := hop.env_of_pos hsize
  have hlen := hop.length_eq
  simp only [List.length_append, BitString.length_ofNat] at hlen
  have hcmp : ∀ {e : Expr ν}, e.eval env pad =
      some (BitString.ofNat (tagSize options.length) variant) →
      (Expr.eq e (.sized (tagSize options.length) w)).eval env pad = some [w == variant] := by
    intro e he
    rw [Expr.eval_eq he rfl, BitString.toNat_ofNat_of_lt hvt, BitString.toNat_ofNat_of_lt hwt]
    simp [BEq.comm]
  have hcode : ∃ e, isEnumVariantCode w (.enum options) op = some e ∧
      (e.eval env pad = some [w == variant] ∨
        (e = .dec 1 ∧ w = variant)) := by
    simp only [isEnumVariantCode, Ty.assumeEnum, Option.bind_eq_bind, Option.bind_some]
    rw [checkedSub_of_le (by omega), checkedSub_of_le (by omega)]
    simp only [Option.bind_some]
    by_cases ht0 : tagSize options.length = 0
    · exact ⟨_, if_pos ht0, Or.inr ⟨rfl, by simp only [ht0, pow_zero] at hvt hwt; omega⟩⟩
    · have hne : BitString.ofNat (tagSize options.length) variant ≠ [] := by
        intro h
        exact ht0 (by simpa using congrArg List.length h)
      have hhigh := BitString.slice_high (b := rest) hne
      rw [BitString.length_ofNat, hlen] at hhigh
      have hrest : (Ty.enum options).size - tagSize options.length = rest.length := by omega
      rw [if_neg ht0]
      by_cases ht1 : (Ty.enum options).size = 1
      · have hrest0 : rest = [] := List.length_eq_zero_iff.mp (by omega)
        have htag1 : tagSize options.length = 1 := by omega
        refine ⟨_, if_pos ht1, Or.inl ?_⟩
        rw [← htag1]
        exact hcmp (by rw [Expr.eval_ident, henv, hrest0, List.append_nil])
      · rw [if_neg ht1, hrest]
        by_cases hend : (Ty.enum options).size - 1 = rest.length
        · refine ⟨_, if_pos hend, Or.inl (hcmp ?_)⟩
          rw [hend] at hhigh
          rw [hend, Expr.eval_bit henv
            (by simp only [List.length_append, BitString.length_ofNat]; omega), hhigh]
        · refine ⟨_, if_neg hend, Or.inl (hcmp ?_)⟩
          rw [Expr.eval_part henv (by omega)
            (by simp only [List.length_append, BitString.length_ofNat]; omega), hhigh]
  obtain ⟨e, he, heval | ⟨rfl, rfl⟩⟩ := hcode
  · rw [he, assigned_of_pos (by simp [Ty.size]) heval]
    rfl
  · rw [he, assigned_of_pos (by simp [Ty.size]) rfl]
    simp only [beq_self_eq_true]
    rfl

/-- The tag test of an enum without bits underflows while its code is generated. -/
theorem isEnumVariantCode_of_size_zero {options : List (List Ty)} {w : ℕ} {op : ν}
    (h0 : (Ty.enum options).size = 0) : isEnumVariantCode w (.enum options) op = none := by
  simp [isEnumVariantCode, Ty.assumeEnum, h0, checkedSub]

/-! ### Member extraction -/

/-- Whether `EnumMember` reads the whole enum instead of a range of its bits. -/
def readsWhole (options : List (List Ty)) (t : Ty) : Prop :=
  t.size = 1 ∧ tagSize options.length = 0

/-- The code of `EnumMember` for a member that has bits, on an enum value `pre ++ bits ++ post`
in which `bits` stands at the place of the member. -/
theorem enumMember_cases (pad : ℕ → Bool) {options : List (List Ty)} {variant i : ℕ} {members : List Ty} {t : Ty}
    {op : ν} {pre bits post : BitString} (hm : options[variant]? = some members)
    (ht : members[i]? = some t) (h0 : t.size ≠ 0)
    (hop : Declares env op (.enum options) (pre ++ (bits ++ post)))
    (hbits : bits.length = t.size)
    (hpre : pre.length = tagSize options.length + Ty.sizeSum (members.take i)) :
    (readsWhole options t ∧ enumMemberCode (.enum options) variant i op = some (.ident op)) ∨
      (¬ readsWhole options t ∧ ∃ e, enumMemberCode (.enum options) variant i op = some e ∧
        e.eval env pad = some bits) := by
  have hlen := hop.length_eq
  simp only [List.length_append] at hlen
  have hsize : (Ty.enum options).size ≠ 0 := by omega
  have hcode : enumMemberCode (.enum options) variant i op =
      if t.size + post.length - 1 = post.length ∧ tagSize options.length = 0 then some (.ident op)
      else some (.part op (t.size + post.length - 1) post.length) := by
    simp only [enumMemberCode, Ty.assumeEnum, Option.bind_eq_bind, Option.bind_some, hm, ht]
    rw [checkedSub_of_le (by omega), Option.bind_some, checkedSub_of_le (by omega),
      Option.bind_some, checkedSub_of_le (by omega), Option.bind_some,
      show (Ty.enum options).size - (tagSize options.length + Ty.sizeSum (members.take i)) - 1 =
        t.size + post.length - 1 by omega,
      show (Ty.enum options).size -
        (tagSize options.length + Ty.sizeSum (members.take i) + t.size) = post.length by omega]
  have hone : (t.size + post.length - 1 = post.length ∧ tagSize options.length = 0) ↔
      readsWhole options t := by
    unfold readsWhole
    omega
  rw [hcode]
  by_cases hw : readsWhole options t
  · exact Or.inl ⟨hw, if_pos (hone.mpr hw)⟩
  · refine Or.inr ⟨hw, _, if_neg (mt hone.mp hw), ?_⟩
    rw [Expr.eval_part (hop.env_of_pos hsize) (by omega)
      (by simp only [List.length_append]; omega), ← hbits,
      BitString.slice_append (List.length_pos_iff.mp (by omega))]

/-! ### The round trip -/

/-- Everything the three operators do agrees for one variant: the code of all three is generated,
the bits of the constructed variant pass the tag test of exactly this variant, and every member
of the payload is read back. -/
def EnumRoundTrip (options : List (List Ty)) (variant : ℕ) (members : List Ty) : Prop :=
  ∀ (env : ValueName → Option BitString) (pad : ℕ → Bool) (ops : List ValueName)
    (payload : List BitString), Operands env ops members payload →
    ∃ bits, assigned env pad (.enum options)
        (constructEnumCode variant options.length (.enum options) ops) = some bits ∧
      ∀ (env' : ValueName → Option BitString) (pad' : ℕ → Bool) (op : ValueName),
        Declares env' op (.enum options) bits →
        (∀ w < options.length,
          assigned env' pad' .bool (isEnumVariantCode w (.enum options) op) =
            some [w == variant]) ∧
        ∀ i t, members[i]? = some t →
          assigned env' pad' t (enumMemberCode (.enum options) variant i op) = payload[i]?

/-- The condition under which the three operators agree on a variant: the enum has bits, every
member of its payload has bits, and when the enum has no tag only the last member may be a
single bit. -/
structure EnumLayoutSound (options : List (List Ty)) (members : List Ty) : Prop where
  size_ne_zero : (Ty.enum options).size ≠ 0
  member_size_ne_zero : ∀ t ∈ members, t.size ≠ 0
  single_bit_last : tagSize options.length = 0 → ∀ t ∈ members.dropLast, t.size ≠ 1

/-- An enum without a tag has a single variant, hence no padding. -/
theorem paddingSize_eq_zero {options : List (List Ty)} {variant : ℕ} {members : List Ty}
    (hm : options[variant]? = some members) (h0 : tagSize options.length = 0) :
    paddingSize options members = 0 := by
  have hlen : ¬ 1 < options.length := fun h => (tagSize_pos_iff.mpr h).ne' h0
  obtain _ | ⟨v, _ | ⟨w, ws⟩⟩ := options
  · simp at hm
  · obtain rfl : v = members := by
      have := List.mem_of_getElem? hm
      simpa [eq_comm] using this
    simp [paddingSize, Ty.sizeMax]
  · simp at hlen

/-- A member that is not the last one belongs to the payload without its last member. -/
theorem mem_dropLast_of_getElem? {members : List Ty} {i : ℕ} {t : Ty}
    (ht : members[i]? = some t) (hlast : members.drop (i + 1) ≠ []) : t ∈ members.dropLast := by
  have hi : i + 1 < members.length := by
    by_contra h
    exact hlast (List.drop_eq_nil_of_le (by omega))
  exact List.mem_of_getElem? (i := i) (by rw [List.getElem?_dropLast, if_pos (by omega), ht])

/-- A sound layout makes the round trip. -/
theorem EnumLayoutSound.roundTrip {options : List (List Ty)} {variant : ℕ} {members : List Ty}
    (hm : options[variant]? = some members) (h : EnumLayoutSound options members) :
    EnumRoundTrip options variant members := by
  intro env pad ops payload hops
  obtain ⟨e, he, heval⟩ := eval_constructEnumCode pad hm hops h.member_size_ne_zero
  have hv : variant < options.length := (List.getElem?_eq_some_iff.mp hm).1
  refine ⟨enumBits options variant members payload pad, ?_, fun env' pad' op hop => ⟨?_, ?_⟩⟩
  · rw [he, assigned_of_pos h.size_ne_zero heval,
      BitString.resize_of_length_eq (length_enumBits _ (List.mem_of_getElem? hm) hops)]
  · exact fun w hw => assigned_isEnumVariant (lt_two_pow_tagSize hv) hw hop h.size_ne_zero
  · intro i t ht
    have h0 := h.member_size_ne_zero t (List.mem_of_getElem? ht)
    obtain ⟨pre, bits, post, rfl, hi, hbits, hpre, hpost⟩ := hops.split ht
    have hsplit : enumBits options variant members (pre ++ bits :: post) pad =
        BitString.ofNat (tagSize options.length) variant ++ pre.flatten ++
          (bits ++ (post.flatten ++ (List.range (paddingSize options members)).map pad)) := by
      simp [enumBits]
    rw [hsplit] at hop
    rw [hi]
    rcases enumMember_cases pad' hm ht h0 hop hbits
      (by simp [hpre]) with ⟨⟨ht1, htag⟩, hcode⟩ | ⟨_, e', hcode, heval'⟩
    · -- the whole enum is assigned to a single bit: right because this bit stands at the end
      have hlast : members.drop (i + 1) = [] := by
        by_contra hne
        exact h.single_bit_last htag t (mem_dropLast_of_getElem? ht hne) ht1
      have hpost0 : post.flatten = [] :=
        List.length_eq_zero_iff.mp (by rw [hpost, hlast, Ty.sizeSum])
      have hread : (Expr.ident op).eval env' pad' = some _ :=
        (Expr.eval_ident ..).trans (hop.env_of_pos h.size_ne_zero)
      rw [hcode, assigned_of_pos h0 hread, hpost0, paddingSize_eq_zero hm htag]
      simp only [List.range_zero, List.map_nil, List.append_nil, ← hbits,
        BitString.resize_append]
    · rw [hcode, assigned_of_pos h0 heval', BitString.resize_of_length_eq hbits]

/-! ### Where the round trip fails -/

/-- The environment in which the names of expressions carry a payload. -/
def payloadEnv (members : List Ty) (payload : List BitString) : ValueName → Option BitString
  | .named _ _ => none
  | .expr j => (members.zip payload)[j]?.bind fun p => if p.1.size = 0 then none else some p.2

/-- Names and an environment that carry a given payload. -/
theorem exists_operands {members : List Ty} {payload : List BitString}
    (h : List.Forall₂ (fun t bits => bits.length = t.size) members payload) :
    ∃ (env : ValueName → Option BitString) (ops : List ValueName),
      Operands env ops members payload := by
  have hsuffix : ∀ (ms : List Ty) (ps : List BitString) (k : ℕ),
      List.Forall₂ (fun t bits => bits.length = t.size) ms ps →
      (members.zip payload).drop k = ms.zip ps →
      Operands (payloadEnv members payload) ((List.range' k ms.length).map .expr) ms ps := by
    intro ms ps k hms
    induction hms generalizing k with
    | nil => exact fun _ => .nil
    | @cons t bits ms ps hlen _ ih =>
        intro hdrop
        have hk : (members.zip payload)[k]? = some (t, bits) := by
          rw [← List.head?_drop, hdrop]
          rfl
        refine .cons ⟨hlen, ?_⟩ (ih (k + 1) ?_)
        · simp only [payloadEnv, hk, Option.bind_some]
        · rw [← List.drop_drop, hdrop]
          rfl
  exact ⟨payloadEnv members payload, _, hsuffix members payload 0 h rfl⟩

/-- The payload whose bits are all zero. -/
def zeroPayload (members : List Ty) : List BitString :=
  members.map fun t => List.replicate t.size false

theorem forall₂_zeroPayload (members : List Ty) :
    List.Forall₂ (fun t bits => bits.length = t.size) members (zeroPayload members) := by
  induction members with
  | nil => exact .nil
  | cons t members ih => exact .cons (by simp) ih

theorem flatten_zeroPayload (members : List Ty) :
    (zeroPayload members).flatten = List.replicate (Ty.sizeSum members) false := by
  induction members with
  | nil => rfl
  | cons t members ih =>
      rw [zeroPayload, List.map_cons, List.flatten_cons, Ty.sizeSum, List.replicate_add, ← ih]
      rfl

/-- The low bit of a bit string that ends in zeros. -/
theorem resize_one_append_replicate {xs : BitString} {n : ℕ} (hn : 0 < n) :
    BitString.resize 1 (xs ++ List.replicate n false) = [false] := by
  obtain ⟨m, rfl⟩ : ∃ m, n = m + 1 := ⟨n - 1, by omega⟩
  rw [List.replicate_succ', ← List.append_assoc]
  exact BitString.resize_append _ [false]

/-- An enum without bits fails the round trip: its tag test is not generated. -/
theorem EnumRoundTrip.size_ne_zero {options : List (List Ty)} {variant : ℕ} {members : List Ty}
    (hm : options[variant]? = some members) (h : EnumRoundTrip options variant members) :
    (Ty.enum options).size ≠ 0 := by
  intro h0
  obtain ⟨env, ops, hops⟩ := exists_operands (forall₂_zeroPayload members)
  obtain ⟨bits, hbits, hread⟩ := h env (fun _ => false) ops _ hops
  rw [assigned, if_pos h0] at hbits
  obtain rfl := Option.some_injective _ hbits
  have hv := (List.getElem?_eq_some_iff.mp hm).1
  have htest := (hread (fun _ => none) (fun _ => false) (.expr 0)
    ⟨by rw [h0]; rfl, by rw [if_pos h0]⟩).1 variant hv
  rw [isEnumVariantCode_of_size_zero h0, assigned_none (by simp [Ty.size])] at htest
  exact Option.some_ne_none _ htest.symm

/-- A payload member without bits fails the round trip: the constructor reads it. -/
theorem EnumRoundTrip.member_size_ne_zero {options : List (List Ty)} {variant : ℕ}
    {members : List Ty} (hm : options[variant]? = some members)
    (h : EnumRoundTrip options variant members) : ∀ t ∈ members, t.size ≠ 0 := by
  intro t ht h0
  obtain ⟨env, ops, hops⟩ := exists_operands (forall₂_zeroPayload members)
  obtain ⟨bits, hbits, -⟩ := h env (fun _ => false) ops _ hops
  rw [constructEnum_of_zero_size hops ht h0 (h.size_ne_zero hm)] at hbits
  exact Option.some_ne_none _ hbits.symm

/-- In an enum without a tag, a single bit that is not the last member fails the round trip: the
low bit of the whole enum is read in its place. -/
theorem EnumRoundTrip.single_bit_last {options : List (List Ty)} {variant : ℕ}
    {members : List Ty} (hm : options[variant]? = some members)
    (h : EnumRoundTrip options variant members) (htag : tagSize options.length = 0) :
    ∀ t ∈ members.dropLast, t.size ≠ 1 := by
  intro t ht ht1
  obtain ⟨pre, post, last, rfl⟩ : ∃ pre post last, members = pre ++ t :: (post ++ [last]) := by
    obtain ⟨pre, post, hsplit⟩ := List.append_of_mem ht
    have hne : members ≠ [] := by
      rintro rfl
      simp at ht
    refine ⟨pre, post, members.getLast hne, ?_⟩
    calc members = members.dropLast ++ [members.getLast hne] :=
          (List.dropLast_append_getLast hne).symm
      _ = pre ++ t :: (post ++ [members.getLast hne]) := by
          rw [hsplit]
          simp
  have hpos := h.member_size_ne_zero hm
  have hpayload : List.Forall₂ (fun (t : Ty) (bits : BitString) => bits.length = t.size)
      (pre ++ t :: (post ++ [last])) (zeroPayload pre ++ [true] :: zeroPayload (post ++ [last])) :=
    List.rel_append (forall₂_zeroPayload pre)
      (.cons (by rw [ht1]; rfl) (forall₂_zeroPayload _))
  obtain ⟨env, ops, hops⟩ := exists_operands hpayload
  obtain ⟨bits, hbits, hread⟩ := h env (fun _ => false) ops _ hops
  obtain ⟨e, he, heval⟩ := eval_constructEnumCode (fun _ => false) hm hops hpos
  have hsize := h.size_ne_zero hm
  rw [he, assigned_of_pos hsize heval,
    BitString.resize_of_length_eq (length_enumBits _ (List.mem_of_getElem? hm) hops)] at hbits
  obtain rfl := Option.some_injective _ hbits
  let env' : ValueName → Option BitString := fun _ =>
    some (enumBits options variant (pre ++ t :: (post ++ [last]))
      (zeroPayload pre ++ [true] :: zeroPayload (post ++ [last])) fun _ => false)
  have hdecl : Declares env' (.expr 0) (.enum options) _ :=
    ⟨length_enumBits (fun _ => false) (List.mem_of_getElem? hm) hops,
      by rw [if_neg hsize]⟩
  have hti : (pre ++ t :: (post ++ [last]))[pre.length]? = some t := by simp
  have hpi : (zeroPayload pre ++ [true] :: zeroPayload (post ++ [last]))[pre.length]? =
      some [true] := by
    rw [List.getElem?_append_right (by simp [zeroPayload])]
    simp [zeroPayload]
  have hmember := (hread env' (fun _ => false) (.expr 0) hdecl).2 pre.length t hti
  have hsplit : enumBits options variant (pre ++ t :: (post ++ [last]))
      (zeroPayload pre ++ [true] :: zeroPayload (post ++ [last])) (fun _ => false) =
      BitString.ofNat (tagSize options.length) variant ++ (zeroPayload pre).flatten ++
        ([true] ++ List.replicate (Ty.sizeSum (post ++ [last])) false) := by
    simp [enumBits, paddingSize_eq_zero hm htag, flatten_zeroPayload]
  rw [hsplit] at hdecl
  rw [hpi] at hmember
  rcases enumMember_cases (fun _ => false) hm hti (by omega) hdecl
    (by rw [ht1]; rfl) (by simp [flatten_zeroPayload]) with ⟨_, hcode⟩ | ⟨hne, _⟩
  · have hlast : 0 < Ty.sizeSum (post ++ [last]) := by
      have := hpos last (by simp)
      simp only [Ty.sizeSum_eq, List.map_append, List.sum_append, List.map_cons, List.map_nil,
        List.sum_cons, List.sum_nil]
      omega
    have hread : (Expr.ident (.expr 0)).eval env' (fun _ => false) = some _ :=
      (Expr.eval_ident ..).trans (hdecl.env_of_pos hsize)
    rw [hcode, assigned_of_pos (by omega) hread, ht1, ← List.append_assoc,
      resize_one_append_replicate hlast] at hmember
    simp at hmember
  · exact hne ⟨ht1, htag⟩

/-- **The enum round trip.** The three enum operators agree on a variant, for every payload and
all padding bits, exactly when its layout is sound. -/
theorem enumRoundTrip_iff (options : List (List Ty)) (variant : ℕ) (members : List Ty)
    (hm : options[variant]? = some members) :
    EnumRoundTrip options variant members ↔ EnumLayoutSound options members :=
  ⟨fun h => ⟨h.size_ne_zero hm, h.member_size_ne_zero hm, h.single_bit_last hm⟩,
    fun h => h.roundTrip hm⟩

/-- An enum like `Option<uint<8>>`, with a boolean behind the integer, makes the round trip. -/
theorem enumRoundTrip_option : EnumRoundTrip [[], [.uint 8, .bool]] 1 [.uint 8, .bool] :=
  (enumRoundTrip_iff [[], [.uint 8, .bool]] 1 [.uint 8, .bool] rfl).mpr
    ⟨by decide, by decide, by decide⟩

/-- The three kinds of failure: an enum of a single variant without payload, a payload member
without bits, and a leading boolean in an enum of a single variant. -/
theorem not_enumRoundTrip_examples :
    ¬ EnumRoundTrip [[]] 0 [] ∧ ¬ EnumRoundTrip [[], [.void]] 1 [.void] ∧
      ¬ EnumRoundTrip [[.bool, .uint 8]] 0 [.bool, .uint 8] :=
  ⟨fun h => h.size_ne_zero rfl (by decide),
    fun h => h.member_size_ne_zero rfl .void (by simp) (by decide),
    fun h => h.single_bit_last rfl (by decide) .bool (by simp) (by decide)⟩

end Spade.Mir

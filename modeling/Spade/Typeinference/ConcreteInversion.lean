import Spade.HirLowering.Layout

/-!
# Inversion of concrete types

What an inversion means for a concrete type: wires and mutable wires exchange their places
(`ConcreteType.flip`).

* **Leaves without wires** (`Portless.flip`): a type without wires is its own inversion.
* **Sizes** (`WireLeaves.flip_sizes`): where all leaves are wires or mutable wires, inversion
  exchanges the forward and the backward size.
-/

namespace Spade.ConcreteType

open Mir

/- The inversion, one function for every container the recursion goes through. -/
mutual

/-- The type with wires and mutable wires exchanged, if `b` is set. -/
def flip (b : Bool) : ConcreteType → ConcreteType
  | tuple inner => tuple (flips b inner)
  | struct members => struct (flipMembers b members)
  | array inner size => array (inner.flip b) size
  | enum options => enum (flipOptions b options)
  | single base params => single base (flips b params)
  | integer value => integer value
  | backward inner => if b then wire (inner.flip b) else backward (inner.flip b)
  | wire inner => if b then backward (inner.flip b) else wire (inner.flip b)

def flips (b : Bool) : List ConcreteType → List ConcreteType
  | [] => []
  | ty :: types => ty.flip b :: flips b types

def flipMembers (b : Bool) : List (String × ConcreteType) → List (String × ConcreteType)
  | [] => []
  | (name, ty) :: members => (name, ty.flip b) :: flipMembers b members

def flipOptions (b : Bool) : List (List ConcreteType) → List (List ConcreteType)
  | [] => []
  | types :: options => flips b types :: flipOptions b options

end

theorem flips_eq (b : Bool) (types : List ConcreteType) : flips b types = types.map (flip b) := by
  induction types with
  | nil => rfl
  | cons ty types ih => rw [flips, ih, List.map_cons]

theorem flipMembers_eq (b : Bool) (members : List (String × ConcreteType)) :
    flipMembers b members = members.map fun m => (m.1, m.2.flip b) := by
  induction members with
  | nil => rfl
  | cons m members ih => rw [flipMembers, ih, List.map_cons]

theorem flipOptions_eq (b : Bool) (options : List (List ConcreteType)) :
    flipOptions b options = options.map (List.map (flip b)) := by
  induction options with
  | nil => rfl
  | cons types options ih => rw [flipOptions, ih, flips_eq, List.map_cons]

mutual

@[simp] theorem flip_false : ∀ c : ConcreteType, c.flip false = c
  | tuple inner => by rw [flip, flips_false]
  | struct members => by rw [flip, flipMembers_false]
  | array inner size => by rw [flip, flip_false]
  | enum options => by rw [flip, flipOptions_false]
  | single base params => by rw [flip, flips_false]
  | integer value => rfl
  | backward inner => by rw [flip, flip_false]; rfl
  | wire inner => by rw [flip, flip_false]; rfl

theorem flips_false : ∀ types : List ConcreteType, flips false types = types
  | [] => rfl
  | ty :: types => by rw [flips, flip_false, flips_false]

theorem flipMembers_false : ∀ members : List (String × ConcreteType),
    flipMembers false members = members
  | [] => rfl
  | (name, ty) :: members => by rw [flipMembers, flip_false, flipMembers_false]

theorem flipOptions_false : ∀ options : List (List ConcreteType),
    flipOptions false options = options
  | [] => rfl
  | types :: options => by rw [flipOptions, flips_false, flipOptions_false]

end

/-! ### Types without wires -/

/-- The type has no wires. -/
inductive Portless : ConcreteType → Prop where
  | tuple {inner : List ConcreteType} (h : ∀ c ∈ inner, Portless c) : Portless (tuple inner)
  | struct {members : List (String × ConcreteType)} (h : ∀ m ∈ members, Portless m.2) :
      Portless (struct members)
  | array {inner : ConcreteType} (size : ℤ) (h : Portless inner) : Portless (array inner size)
  | enum {options : List (List ConcreteType)} (h : ∀ o ∈ options, ∀ c ∈ o, Portless c) :
      Portless (enum options)
  | single {base : PrimitiveType} {params : List ConcreteType} (h : ∀ c ∈ params, Portless c) :
      Portless (single base params)
  | integer (value : ℤ) : Portless (integer value)

theorem Portless.flip {c : ConcreteType} (h : Portless c) (b : Bool) : c.flip b = c := by
  induction h with
  | tuple _ ih =>
      rw [ConcreteType.flip, flips_eq, List.map_congr_left ih, List.map_id']
  | @struct members _ ih =>
      rw [ConcreteType.flip, flipMembers_eq]
      congr 1
      conv_rhs => rw [← List.map_id' members]
      exact List.map_congr_left fun m hm => by rw [ih m hm]
  | array size _ ih => rw [ConcreteType.flip, ih]
  | @enum options _ ih =>
      rw [ConcreteType.flip, flipOptions_eq]
      congr 1
      conv_rhs => rw [← List.map_id' options]
      exact List.map_congr_left fun o ho => by rw [List.map_congr_left (ih o ho), List.map_id']
  | single _ ih => rw [ConcreteType.flip, flips_eq, List.map_congr_left ih, List.map_id']
  | integer value => rfl

/-- The MIR types of a list of types, one by one. -/
theorem toMirTypes_eq_some_iff {types : List ConcreteType} {ts : List Ty} :
    toMirTypes types = some ts ↔ List.Forall₂ (fun c t => c.toMirType = some t) types ts := by
  induction types generalizing ts with
  | nil => cases ts <;> simp [toMirTypes]
  | cons ty types ih =>
      constructor
      · intro h
        obtain ⟨t, ts', rfl, ht, hts⟩ := toMirTypes_cons h
        exact .cons ht (ih.mp hts)
      · intro h
        obtain ⟨t, ts', ht, hts, rfl⟩ := List.forall₂_cons_left_iff.mp h
        simp [toMirTypes, ht, ih.mpr hts]

theorem toMirMembers_eq_some_iff {members : List (String × ConcreteType)}
    {ms : List (String × Ty)} :
    toMirMembers members = some ms ↔
      List.Forall₂ (fun m t => m.1 = t.1 ∧ m.2.toMirType = some t.2) members ms := by
  induction members generalizing ms with
  | nil => cases ms <;> simp [toMirMembers]
  | cons m members ih =>
      cases ms with
      | nil => simp [toMirMembers, Option.bind_eq_some_iff]
      | cons t ms =>
          obtain ⟨name, c⟩ := m
          obtain ⟨name', t⟩ := t
          simp only [toMirMembers, Option.bind_eq_bind, Option.bind_eq_some_iff, Option.some.injEq,
            List.cons.injEq, Prod.mk.injEq, List.forall₂_cons, ih]
          constructor
          · rintro ⟨t', ht, ms', hms, ⟨rfl, rfl⟩, rfl⟩
            exact ⟨⟨rfl, ht⟩, hms⟩
          · rintro ⟨⟨rfl, ht⟩, hms⟩
            exact ⟨t, ht, ms, hms, ⟨rfl, rfl⟩, rfl⟩

theorem backwardSizeSum_eq_zero {types : List ConcreteType} {ts : List Ty}
    (h : List.Forall₂ (fun c t => c.toMirType = some t) types ts)
    (hzero : ∀ c ∈ types, ∀ t, c.toMirType = some t → t.backwardSize = 0) :
    Ty.backwardSizeSum ts = 0 := by
  induction h with
  | nil => rfl
  | cons ht _ ih =>
      rw [List.forall_mem_cons] at hzero
      rw [Ty.backwardSizeSum, hzero.1 _ ht, ih hzero.2]

theorem backwardSizeFields_eq (ms : List (String × Ty)) :
    Ty.backwardSizeFields ms = Ty.backwardSizeSum (ms.map Prod.snd) := by
  induction ms with
  | nil => rfl
  | cons m ms ih => rw [Ty.backwardSizeFields, List.map_cons, Ty.backwardSizeSum, ih]

/-- A primitive type has no backward bits. -/
theorem backwardSize_single {base : PrimitiveType} {params : List ConcreteType} {t : Ty}
    (ht : (single base params).toMirType = some t) : t.backwardSize = 0 := by
  unfold toMirType at ht
  split at ht <;> try cases ‹single base params = _›
  · exact Option.some.inj ht ▸ rfl
  · exact Option.some.inj ht ▸ rfl
  · exact Option.some.inj ht ▸ rfl
  · split_ifs at ht
    exact Option.some.inj ht ▸ rfl
  · split_ifs at ht
    exact Option.some.inj ht ▸ rfl
  · simp only [Option.bind_eq_bind] at ht
    split_ifs at ht
    obtain ⟨t', -, ht⟩ := Option.bind_eq_some_iff.mp ht
    exact Option.some.inj ht ▸ rfl
  · exact Option.some.inj ht ▸ rfl
  · obtain ⟨t', -, ht⟩ := Option.bind_eq_some_iff.mp ht
    exact Option.some.inj ht ▸ rfl
  · exact absurd ht (by simp)

/-- A type without wires has no backward bits. -/
theorem Portless.backwardSize_eq_zero {c : ConcreteType} (h : Portless c) {t : Ty}
    (ht : c.toMirType = some t) : t.backwardSize = 0 := by
  induction h generalizing t with
  | tuple _ ih =>
      simp only [toMirType, Option.bind_eq_bind, Option.bind_eq_some_iff, Option.some.injEq] at ht
      obtain ⟨ts, hts, rfl⟩ := ht
      exact backwardSizeSum_eq_zero (toMirTypes_eq_some_iff.mp hts) fun c hc t => ih c hc
  | struct _ ih =>
      simp only [toMirType, Option.bind_eq_bind, Option.bind_eq_some_iff, Option.some.injEq] at ht
      obtain ⟨ms, hms, rfl⟩ := ht
      rw [Ty.backwardSize, backwardSizeFields_eq]
      refine backwardSizeSum_eq_zero (toMirTypes_eq_some_iff.mp (toMirMembers_types hms)) ?_
      intro c hc t
      obtain ⟨m, hm, rfl⟩ := List.mem_map.mp hc
      exact ih m hm
  | array size _ ih =>
      simp only [toMirType, Option.bind_eq_bind] at ht
      split_ifs at ht
      simp only [Option.bind_eq_some_iff, Option.some.injEq] at ht
      obtain ⟨t', ht', rfl⟩ := ht
      rw [Ty.backwardSize, ih ht', Nat.zero_mul]
  | enum _ _ =>
      simp only [toMirType, Option.bind_eq_bind, Option.bind_eq_some_iff, Option.some.injEq] at ht
      obtain ⟨os, hos, rfl⟩ := ht
      rfl
  | single _ _ => exact backwardSize_single ht
  | integer value => simp [toMirType] at ht

/-! ### Sizes -/

/-- All leaves of the type are wires or mutable wires of data. -/
inductive WireLeaves : ConcreteType → Prop where
  | wire {inner : ConcreteType} (h : Portless inner) : WireLeaves (wire inner)
  | backward {inner : ConcreteType} (h : Portless inner) : WireLeaves (backward inner)
  | tuple {inner : List ConcreteType} (h : ∀ c ∈ inner, WireLeaves c) : WireLeaves (tuple inner)
  | struct {members : List (String × ConcreteType)} (h : ∀ m ∈ members, WireLeaves m.2) :
      WireLeaves (struct members)
  | array {inner : ConcreteType} (size : ℤ) (h : WireLeaves inner) : WireLeaves (array inner size)

/-- The sizes of a MIR type are those of another one the other way round. -/
def Exchanged (t t' : Ty) : Prop := t'.size = t.backwardSize ∧ t'.backwardSize = t.size

theorem exchanged_sums {types : List ConcreteType} {ts : List Ty}
    (h : List.Forall₂ (fun c t => c.toMirType = some t) types ts)
    (hflip : ∀ c ∈ types, ∀ t, c.toMirType = some t →
      ∃ t', (c.flip true).toMirType = some t' ∧ Exchanged t t') :
    ∃ ts', List.Forall₂ (fun c t => c.toMirType = some t) (types.map (flip true)) ts' ∧
      Ty.sizeSum ts' = Ty.backwardSizeSum ts ∧ Ty.backwardSizeSum ts' = Ty.sizeSum ts := by
  induction h with
  | nil => exact ⟨[], .nil, rfl, rfl⟩
  | cons ht _ ih =>
      rw [List.forall_mem_cons] at hflip
      obtain ⟨t', ht', hsize, hback⟩ := hflip.1 _ ht
      obtain ⟨ts', hts', hsizes, hbacks⟩ := ih hflip.2
      refine ⟨t' :: ts', .cons ht' hts', ?_, ?_⟩
      · rw [Ty.sizeSum, Ty.backwardSizeSum, hsize, hsizes]
      · rw [Ty.sizeSum, Ty.backwardSizeSum, hback, hbacks]

/-- A struct has the MIR type of its members with their names. -/
theorem exists_toMirMembers {members : List (String × ConcreteType)} {ts : List Ty}
    (h : List.Forall₂ (fun c t => c.toMirType = some t) (members.map Prod.snd) ts) :
    ∃ ms, toMirMembers members = some ms ∧ ms.map Prod.snd = ts := by
  induction members generalizing ts with
  | nil =>
      obtain rfl := List.forall₂_nil_left_iff.mp h
      exact ⟨[], rfl, rfl⟩
  | cons m members ih =>
      obtain ⟨t, ts', ht, hts, rfl⟩ := List.forall₂_cons_left_iff.mp h
      obtain ⟨ms, hms, rfl⟩ := ih hts
      exact ⟨(m.1, t) :: ms, by simp [toMirMembers, ht, hms], rfl⟩

theorem sizeFields_eq_sizeSum (ms : List (String × Ty)) :
    Ty.sizeFields ms = Ty.sizeSum (ms.map Prod.snd) := by
  induction ms with
  | nil => rfl
  | cons m ms ih => rw [Ty.sizeFields, List.map_cons, Ty.sizeSum, ih]

/-- Inversion exchanges the forward and the backward size. -/
theorem WireLeaves.flip_sizes {c : ConcreteType} (h : WireLeaves c) {t : Ty}
    (ht : c.toMirType = some t) : ∃ t', (c.flip true).toMirType = some t' ∧ Exchanged t t' := by
  induction h generalizing t with
  | wire hinner =>
      rw [toMirType] at ht
      refine ⟨.backward t, by simp [flip, hinner.flip, toMirType, ht], ?_, rfl⟩
      rw [Ty.size, hinner.backwardSize_eq_zero ht]
  | backward hinner =>
      simp only [toMirType, Option.bind_eq_bind, Option.bind_eq_some_iff, Option.some.injEq] at ht
      obtain ⟨t', ht', rfl⟩ := ht
      refine ⟨t', by simp [flip, hinner.flip, toMirType, ht'], rfl, ?_⟩
      rw [Ty.size, hinner.backwardSize_eq_zero ht']
  | tuple _ ih =>
      simp only [toMirType, Option.bind_eq_bind, Option.bind_eq_some_iff, Option.some.injEq] at ht
      obtain ⟨ts, hts, rfl⟩ := ht
      obtain ⟨ts', hts', hsize, hback⟩ :=
        exchanged_sums (toMirTypes_eq_some_iff.mp hts) fun c hc t => ih c hc
      exact ⟨.tuple ts', by simp [flip, flips_eq, toMirType, toMirTypes_eq_some_iff.mpr hts'],
        hsize, hback⟩
  | @struct members _ ih =>
      simp only [toMirType, Option.bind_eq_bind, Option.bind_eq_some_iff, Option.some.injEq] at ht
      obtain ⟨ms, hms, rfl⟩ := ht
      have htypes := toMirTypes_eq_some_iff.mp (toMirMembers_types hms)
      obtain ⟨ts', hts', hsize, hback⟩ := exchanged_sums htypes fun c hc t hct => by
        obtain ⟨m, hm, rfl⟩ := List.mem_map.mp hc
        exact ih m hm hct
      obtain ⟨ms', hms', rfl⟩ := @exists_toMirMembers (members.map fun m => (m.1, m.2.flip true)) ts'
        (by simpa [List.map_map, Function.comp_def] using hts')
      refine ⟨.struct ms', by simp [flip, flipMembers_eq, toMirType, hms'], ?_, ?_⟩
      · rw [Ty.size, Ty.backwardSize, sizeFields_eq_sizeSum, backwardSizeFields_eq, hsize]
      · rw [Ty.size, Ty.backwardSize, sizeFields_eq_sizeSum, backwardSizeFields_eq, hback]
  | array size _ ih =>
      simp only [toMirType, Option.bind_eq_bind] at ht
      split_ifs at ht with hsize
      simp only [Option.bind_eq_some_iff, Option.some.injEq] at ht
      obtain ⟨t', ht', rfl⟩ := ht
      obtain ⟨t'', ht'', hforward, hback⟩ := ih ht'
      refine ⟨.array t'' size.toNat, by simp [flip, toMirType, ht'', hsize], ?_, ?_⟩
      · rw [Ty.size, Ty.backwardSize, hforward]
      · rw [Ty.size, Ty.backwardSize, hback]

end Spade.ConcreteType

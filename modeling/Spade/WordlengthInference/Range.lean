import Mathlib.Data.Finmap
import Mathlib.Data.Option.NAry
import Mathlib.Algebra.Order.Ring.Int
import Mathlib.Algebra.Order.Group.Unbundled.Abs
import Spade.Lib.TwosComplement

/-!
# Ranges of integers

The equations of the word length inference and their interval analysis.

* **Operations** (`Range.mem_add` to `Range.mem_bitManip`): the range of an operation contains the
  result of the operation on all numbers of its operands.
* **Soundness** (`evaluateIa_sound`): the range of an equation contains every value it can take.
* **Word lengths** (`Range.fits_of_toWordlength`): the word length of a range is enough for each of
  its numbers in two's complement.
-/

namespace Spade.WordlengthInference

open TwosComplement

/-- The integers between two bounds, both included. -/
structure Range where
  lo : ℤ
  hi : ℤ
  lo_le_hi : lo ≤ hi
deriving DecidableEq

namespace Range

instance : Membership ℤ Range := ⟨fun r x => r.lo ≤ x ∧ x ≤ r.hi⟩

instance (x : ℤ) (r : Range) : Decidable (x ∈ r) :=
  inferInstanceAs (Decidable (r.lo ≤ x ∧ x ≤ r.hi))

/-- The bounds are taken in either order. -/
def new (a b : ℤ) : Range := ⟨min a b, max a b, min_le_max⟩

def add (a b : Range) : Range := new (a.lo + b.lo) (a.hi + b.hi)

def sub (a b : Range) : Range :=
  new (min (min (min (a.lo - b.hi) (a.lo - b.lo)) (a.lo - b.hi)) (a.lo - b.lo))
    (max (max (max (a.hi - b.hi) (a.hi - b.lo)) (a.lo - b.hi)) (a.lo - b.lo))

def neg (a : Range) : Range := new (-a.hi) (-a.lo)

def mul (a b : Range) : Range :=
  new (min (min (min (a.lo * b.hi) (a.lo * b.lo)) (a.hi * b.hi)) (a.hi * b.lo))
    (max (max (max (a.lo * b.hi) (a.lo * b.lo)) (a.hi * b.hi)) (a.hi * b.lo))

def union (a b : Range) : Range := new (min a.lo b.lo) (max a.hi b.hi)

/-- The intersection of two ranges that meet. -/
def subset (a b : Range) : Range := new (max a.lo b.lo) (min a.hi b.hi)

/-- The first width, of those below 2048 bits and a sign, whose bounds the range keeps to. -/
def toWordlength (r : Range) : Option ℕ :=
  ((List.range' 1 2047).find? fun i => |r.hi| < 2 ^ i ∧ |r.lo| < 2 ^ i + 1).map (· + 1)

/-- All numbers of the word length of a range. -/
def bitManip (r : Range) : Option Range :=
  r.toWordlength.map fun wl =>
    let bound : ℤ := 2 ^ (wl - 1)
    let a := -bound
    let b := bound - 1
    new (min a b) (max a b)

/-! ### Numbers of a range -/

theorem mem_def {x : ℤ} {r : Range} : x ∈ r ↔ r.lo ≤ x ∧ x ≤ r.hi := Iff.rfl

theorem mem_new {a b x : ℤ} (ha : a ≤ x) (hb : x ≤ b) : x ∈ new a b :=
  ⟨(min_le_left a b).trans ha, hb.trans (le_max_right a b)⟩

theorem new_of_le {a b : ℤ} (h : a ≤ b) : new a b = ⟨a, b, h⟩ := by
  simp [new, min_eq_left h, max_eq_right h]

theorem mem_add {a b : Range} {x y : ℤ} (hx : x ∈ a) (hy : y ∈ b) : x + y ∈ a.add b :=
  mem_new (add_le_add hx.1 hy.1) (add_le_add hx.2 hy.2)

theorem mem_sub {a b : Range} {x y : ℤ} (hx : x ∈ a) (hy : y ∈ b) : x - y ∈ a.sub b := by
  rw [mem_def] at hx hy
  apply mem_new
  · omega
  · omega

theorem mem_neg {a : Range} {x : ℤ} (hx : x ∈ a) : -x ∈ a.neg :=
  mem_new (neg_le_neg hx.2) (neg_le_neg hx.1)

/-- With one factor fixed, a product lies between those of the bounds of the other factor. -/
theorem mul_between {l h x : ℤ} (hl : l ≤ x) (hh : x ≤ h) (y : ℤ) :
    min (l * y) (h * y) ≤ x * y ∧ x * y ≤ max (l * y) (h * y) := by
  rw [min_le_iff, le_max_iff]
  by_cases hy : 0 ≤ y
  · have hlow : l * y ≤ x * y := mul_le_mul_of_nonneg_right hl hy
    have hhigh : x * y ≤ h * y := mul_le_mul_of_nonneg_right hh hy
    exact ⟨.inl hlow, .inr hhigh⟩
  · have hneg : y ≤ 0 := by omega
    have hlow : h * y ≤ x * y := mul_le_mul_of_nonpos_right hh hneg
    have hhigh : x * y ≤ l * y := mul_le_mul_of_nonpos_right hl hneg
    exact ⟨.inr hlow, .inl hhigh⟩

theorem mem_mul {a b : Range} {x y : ℤ} (hx : x ∈ a) (hy : y ∈ b) : x * y ∈ a.mul b := by
  have hxy := mul_between hx.1 hx.2 y
  -- The products of `y` with the bounds of the first factor lie between two corners each.
  have hlo := mul_between hy.1 hy.2 a.lo
  have hhi := mul_between hy.1 hy.2 a.hi
  rw [mul_comm y, mul_comm b.lo, mul_comm b.hi] at hlo hhi
  apply mem_new
  · omega
  · omega

theorem mem_union_left {a b : Range} {x : ℤ} (hx : x ∈ a) : x ∈ a.union b :=
  mem_new ((min_le_left _ _).trans hx.1) (hx.2.trans (le_max_left _ _))

theorem mem_union_right {a b : Range} {x : ℤ} (hx : x ∈ b) : x ∈ a.union b :=
  mem_new ((min_le_right _ _).trans hx.1) (hx.2.trans (le_max_right _ _))

/-- The numbers of a range keep to the bounds of its word length. -/
theorem fits_of_toWordlength {r : Range} {w : ℕ} (hw : r.toWordlength = some w) {x : ℤ}
    (hx : x ∈ r) : Fits (w - 1) x := by
  unfold toWordlength at hw
  obtain ⟨i, hi, rfl⟩ := Option.map_eq_some_iff.mp hw
  have hbounds : |r.hi| < 2 ^ i ∧ |r.lo| < 2 ^ i + 1 := by
    simpa using List.find?_some hi
  rw [mem_def] at hx
  rw [abs_lt, Int.lt_add_one_iff, abs_le] at hbounds
  exact ⟨hbounds.2.1.trans hx.1, hx.2.trans_lt hbounds.1.2⟩

theorem mem_bitManip_iff {r bits : Range} (h : r.bitManip = some bits) {x : ℤ} :
    x ∈ bits ↔ ∃ w, r.toWordlength = some w ∧ Fits (w - 1) x := by
  unfold bitManip at h
  obtain ⟨w, hw, rfl⟩ := Option.map_eq_some_iff.mp h
  have hpos : (0 : ℤ) < 2 ^ (w - 1) := by positivity
  rw [hw]
  simp only [mem_def, new, Fits, Option.some.injEq, exists_eq_left']
  omega

/-- The bit manipulations of a number need no more bits than its range. -/
theorem mem_bitManip {r bits : Range} (h : r.bitManip = some bits) {x y : ℤ} (hx : x ∈ r)
    (hy : ∀ k, Fits k x → Fits k y) : y ∈ bits := by
  rw [mem_bitManip_iff h]
  obtain ⟨w, hw, -⟩ := Option.map_eq_some_iff.mp h
  exact ⟨w, hw, hy _ (fits_of_toWordlength hw hx)⟩

/-- Bitwise operations on two numbers need no more bits than the wider one of their ranges. -/
theorem mem_bitManip_union {r s bitsR bitsS : Range} (hr : r.bitManip = some bitsR)
    (hs : s.bitManip = some bitsS) {x y z : ℤ} (hx : x ∈ r) (hy : y ∈ s)
    (hz : ∀ k, Fits k x → Fits k y → Fits k z) : z ∈ bitsR.union bitsS := by
  obtain ⟨v, hv, -⟩ := Option.map_eq_some_iff.mp hr
  obtain ⟨w, hw, -⟩ := Option.map_eq_some_iff.mp hs
  have hxv := fits_of_toWordlength hv hx
  have hyw := fits_of_toWordlength hw hy
  rcases le_total (v - 1) (w - 1) with hle | hle
  · exact mem_union_right ((mem_bitManip_iff hs).mpr ⟨w, hw, hz _ (hxv.mono hle) hyw⟩)
  · exact mem_union_left ((mem_bitManip_iff hr).mpr ⟨v, hv, hz _ hxv (hyw.mono hle)⟩)

end Range

/-- An integer variable of a unit. -/
structure Var where
  id : ℕ
deriving DecidableEq

/-- What is known of the integer that an expression computes. -/
inductive Equation where
  | v (var : Var)
  | constant (range : Range)
  | add (a b : Equation)
  | sub (a b : Equation)
  | mul (a b : Equation)
  | bitManpi (a : Equation)
  | neg (a : Equation)
  | bitManipMax (a b : Equation)
  | union (a b : Equation)
deriving DecidableEq

/-- The ranges of the variables found so far. -/
abbrev Known := Finmap fun _ : Var => Range

/-- The range of an equation by interval arithmetic. -/
def evaluateIa (known : Known) : Equation → Option Range
  | .v var => known.lookup var
  | .constant range => some range
  | .add a b => Option.map₂ Range.add (evaluateIa known a) (evaluateIa known b)
  | .sub a b => Option.map₂ Range.sub (evaluateIa known a) (evaluateIa known b)
  | .mul a b => Option.map₂ Range.mul (evaluateIa known a) (evaluateIa known b)
  | .bitManpi a => (evaluateIa known a).bind Range.bitManip
  | .neg a => (evaluateIa known a).map Range.neg
  | .bitManipMax a b =>
    Option.map₂ Range.union ((evaluateIa known a).bind Range.bitManip)
      ((evaluateIa known b).bind Range.bitManip)
  | .union a b => Option.map₂ Range.union (evaluateIa known a) (evaluateIa known b)

/-! ### Values of an equation -/

/-- The values that an equation can take when its variables have the given ones: a bit
manipulation of one operand is a negation of its bits or a shift to the right, one of two operands
a conjunction, a disjunction or an exclusive disjunction. -/
inductive Takes (values : Var → ℤ) : Equation → ℤ → Prop
  | v {var : Var} : Takes values (.v var) (values var)
  | constant {range : Range} {x : ℤ} : x ∈ range → Takes values (.constant range) x
  | add {a b : Equation} {x y : ℤ} :
      Takes values a x → Takes values b y → Takes values (.add a b) (x + y)
  | sub {a b : Equation} {x y : ℤ} :
      Takes values a x → Takes values b y → Takes values (.sub a b) (x - y)
  | mul {a b : Equation} {x y : ℤ} :
      Takes values a x → Takes values b y → Takes values (.mul a b) (x * y)
  | neg {a : Equation} {x : ℤ} : Takes values a x → Takes values (.neg a) (-x)
  | bitwiseNot {a : Equation} {x : ℤ} :
      Takes values a x → Takes values (.bitManpi a) (Int.lnot x)
  | rightShift {a : Equation} {x : ℤ} (n : ℕ) :
      Takes values a x → Takes values (.bitManpi a) (x >>> n)
  | bitwiseAnd {a b : Equation} {x y : ℤ} :
      Takes values a x → Takes values b y → Takes values (.bitManipMax a b) (Int.land x y)
  | bitwiseOr {a b : Equation} {x y : ℤ} :
      Takes values a x → Takes values b y → Takes values (.bitManipMax a b) (Int.lor x y)
  | bitwiseXor {a b : Equation} {x y : ℤ} :
      Takes values a x → Takes values b y → Takes values (.bitManipMax a b) (Int.xor x y)
  | left {a b : Equation} {x : ℤ} : Takes values a x → Takes values (.union a b) x
  | right {a b : Equation} {x : ℤ} : Takes values b x → Takes values (.union a b) x

/-- Every variable with a known range has a value in it. -/
def Within (values : Var → ℤ) (known : Known) : Prop :=
  ∀ var range, known.lookup var = some range → values var ∈ range

theorem within_singleton {values : Var → ℤ} {var : Var} {range : Range} (h : values var ∈ range) :
    Within values (Finmap.singleton var range) := by
  intro var' range' hlookup
  have hmem := Finmap.mem_of_lookup_eq_some hlookup
  rw [Finmap.mem_singleton] at hmem
  subst hmem
  rw [Finmap.lookup_singleton_eq] at hlookup
  exact Option.some.inj hlookup ▸ h

theorem Within.insert {values : Var → ℤ} {known : Known} {var : Var} {range : Range}
    (hknown : Within values known) (h : values var ∈ range) :
    Within values (known.insert var range) := by
  intro var' range' hlookup
  by_cases hvar : var' = var
  · subst hvar
    rw [Finmap.lookup_insert] at hlookup
    exact Option.some.inj hlookup ▸ h
  · rw [Finmap.lookup_insert_of_ne _ hvar] at hlookup
    exact hknown var' range' hlookup

theorem mem_of_bitManipMax {known : Known} {a b : Equation} {r : Range} {x y z : ℤ}
    (hr : evaluateIa known (.bitManipMax a b) = some r)
    (hx : ∀ r, evaluateIa known a = some r → x ∈ r)
    (hy : ∀ r, evaluateIa known b = some r → y ∈ r)
    (hz : ∀ k, Fits k x → Fits k y → Fits k z) : z ∈ r := by
  obtain ⟨bitsA, bitsB, hbitsA, hbitsB, rfl⟩ := Option.map₂_eq_some_iff.mp hr
  obtain ⟨ra, ha, hbitsA⟩ := Option.bind_eq_some_iff.mp hbitsA
  obtain ⟨rb, hb, hbitsB⟩ := Option.bind_eq_some_iff.mp hbitsB
  exact Range.mem_bitManip_union hbitsA hbitsB (hx ra ha) (hy rb hb) hz

theorem evaluateIa_sound {known : Known} {values : Var → ℤ} (hvalues : Within values known)
    {eq : Equation} {x : ℤ} (hx : Takes values eq x) :
    ∀ r, evaluateIa known eq = some r → x ∈ r := by
  induction hx with
  | v =>
    intro r hr
    exact hvalues _ r hr
  | constant hmem =>
    intro r hr
    exact Option.some.inj hr ▸ hmem
  | add _ _ ihx ihy =>
    intro r hr
    obtain ⟨a, b, ha, hb, rfl⟩ := Option.map₂_eq_some_iff.mp hr
    exact Range.mem_add (ihx a ha) (ihy b hb)
  | sub _ _ ihx ihy =>
    intro r hr
    obtain ⟨a, b, ha, hb, rfl⟩ := Option.map₂_eq_some_iff.mp hr
    exact Range.mem_sub (ihx a ha) (ihy b hb)
  | mul _ _ ihx ihy =>
    intro r hr
    obtain ⟨a, b, ha, hb, rfl⟩ := Option.map₂_eq_some_iff.mp hr
    exact Range.mem_mul (ihx a ha) (ihy b hb)
  | neg _ ih =>
    intro r hr
    obtain ⟨a, ha, rfl⟩ := Option.map_eq_some_iff.mp hr
    exact Range.mem_neg (ih a ha)
  | bitwiseNot _ ih =>
    intro r hr
    obtain ⟨a, ha, hbits⟩ := Option.bind_eq_some_iff.mp hr
    exact Range.mem_bitManip hbits (ih a ha) fun _ hfits => hfits.lnot
  | rightShift n _ ih =>
    intro r hr
    obtain ⟨a, ha, hbits⟩ := Option.bind_eq_some_iff.mp hr
    exact Range.mem_bitManip hbits (ih a ha) fun _ hfits => hfits.shiftRight n
  | bitwiseAnd _ _ ihx ihy =>
    intro r hr
    exact mem_of_bitManipMax hr ihx ihy fun _ hxk hyk => hxk.land hyk
  | bitwiseOr _ _ ihx ihy =>
    intro r hr
    exact mem_of_bitManipMax hr ihx ihy fun _ hxk hyk => hxk.lor hyk
  | bitwiseXor _ _ ihx ihy =>
    intro r hr
    exact mem_of_bitManipMax hr ihx ihy fun _ hxk hyk => hxk.xor hyk
  | left _ ih =>
    intro r hr
    obtain ⟨a, b, ha, hb, rfl⟩ := Option.map₂_eq_some_iff.mp hr
    exact Range.mem_union_left (ih a ha)
  | right _ ih =>
    intro r hr
    obtain ⟨a, b, ha, hb, rfl⟩ := Option.map₂_eq_some_iff.mp hr
    exact Range.mem_union_right (ih b hb)

/-- The interval analysis is sound, and the word length of a range is enough for its numbers. -/
theorem interval_analysis_sound {known : Known} {values : Var → ℤ}
    (hvalues : Within values known) :
    (∀ eq r x, evaluateIa known eq = some r → Takes values eq x → x ∈ r) ∧
      ∀ (r : Range) w, r.toWordlength = some w →
        ∀ x ∈ r, -2 ^ (w - 1) ≤ x ∧ x ≤ 2 ^ (w - 1) - 1 := by
  constructor
  · intro eq r x hr hx
    exact evaluateIa_sound hvalues hx r hr
  · intro r w hw x hx
    have hfits := Range.fits_of_toWordlength hw hx
    exact ⟨hfits.1, Int.le_sub_one_of_lt hfits.2⟩

/-- The bits of a negative number of a range, inverted. -/
theorem interval_analysis_sound_not :
    Int.lnot (-3) ∈ (⟨-16, 15, by decide⟩ : Range) := by
  have hvalues : Within (fun _ => -3) (Finmap.singleton ⟨0⟩ (Range.new (-3) 10)) :=
    within_singleton (by decide)
  exact (interval_analysis_sound hvalues).1 (.bitManpi (.v ⟨0⟩)) _ _ (by decide) (.bitwiseNot .v)

end Spade.WordlengthInference

import Mathlib.Data.Int.ConditionallyCompleteOrder
import Mathlib.Algebra.BigOperators.Group.Finset.Piecewise
import Mathlib.Algebra.BigOperators.Ring.Finset
import Spade.WordlengthInference.Inferer

/-!
# Soundness of affine arithmetic

The values of an equation lie in the range of its affine form, as long as the analysis does not
round: a product takes the middles of its factors rounded up, a bit operation and a union take the
ends of their operands rounded towards zero.

* **Values** (`evaluateAa_value`): every value of an equation is the value of its form for some
  noise between minus one and one, with the noise of the variables given by their values.
* **Soundness** (`affine_analysis_sound`): the ranges of the affine analysis, and of both analyses
  together, contain the values of an equation that is not rounded.
-/

namespace Spade.WordlengthInference

open FirstWriter (Extends)
open TwosComplement
open Spade.Lib.StateExcept

/-! ### Values of a form -/

/-- The noise of the variables and of the generated terms. -/
def noise (vars : Var → ℚ) (gens : ℕ → ℚ) : AffineVar → ℚ
  | .var v => vars v
  | .gen id => gens id
  | .const => 1

namespace AAForm

/-- The number that a form stands for with a given noise. -/
def value (f : AAForm) (noise : AffineVar → ℚ) : ℚ := ∑ i ∈ f.vars, f.coeff i * noise i

theorem value_eq_sum (f : AAForm) (noise : AffineVar → ℚ) {s : Finset AffineVar}
    (hs : f.vars ⊆ s) : f.value noise = ∑ i ∈ s, f.coeff i * noise i := by
  apply Finset.sum_subset hs
  intro i _ hi
  rw [f.coeff_eq_zero i hi, zero_mul]

theorem value_congr {f : AAForm} {noise noise' : AffineVar → ℚ}
    (h : ∀ i ∈ f.vars, noise i = noise' i) : f.value noise = f.value noise' := by
  apply Finset.sum_congr rfl
  intro i hi
  rw [h i hi]

theorem value_add (f g : AAForm) (noise : AffineVar → ℚ) :
    (f.add g).value noise = f.value noise + g.value noise := by
  have hf : f.vars ⊆ f.vars ∪ g.vars := Finset.subset_union_left
  have hg : g.vars ⊆ f.vars ∪ g.vars := Finset.subset_union_right
  rw [f.value_eq_sum noise hf, g.value_eq_sum noise hg, ← Finset.sum_add_distrib]
  apply Finset.sum_congr rfl
  intro i _
  change (f.coeff i + g.coeff i) * noise i = _
  ring

theorem value_neg (f : AAForm) (noise : AffineVar → ℚ) :
    f.neg.value noise = -f.value noise := by
  unfold value
  rw [← Finset.sum_neg_distrib]
  apply Finset.sum_congr rfl
  intro i _
  change -f.coeff i * noise i = _
  ring

/-- The coefficients of a combination are combined, its new noise term stands alone. -/
theorem value_combine {f g : AAForm} {alpha beta gamma delta : ℚ} {d : AffineVar}
    (hconst : .const ∈ f.vars) (hd : d ∉ f.vars ∪ g.vars) {noise : AffineVar → ℚ}
    (hnoise : noise .const = 1) :
    (f.combine g alpha beta gamma delta d).value noise =
      alpha * f.value noise + beta * g.value noise + gamma + delta * noise d := by
  have hmem : .const ∈ f.vars ∪ g.vars := Finset.mem_union_left _ hconst
  have hsum : ∑ i ∈ f.vars ∪ g.vars,
      (f.combine g alpha beta gamma delta d).coeff i * noise i =
        ∑ i ∈ f.vars ∪ g.vars, (alpha * (f.coeff i * noise i) + beta * (g.coeff i * noise i) +
          if i = .const then gamma else 0) := by
    apply Finset.sum_congr rfl
    intro i hi
    have hne : i ≠ d := by
      rintro rfl
      exact hd hi
    simp only [combine, if_neg hne, if_pos hi]
    split
    · rename_i hi
      rw [hi, hnoise]
      ring
    · ring
  have hnew : (f.combine g alpha beta gamma delta d).coeff d = delta := if_pos rfl
  have hf : f.vars ⊆ f.vars ∪ g.vars := Finset.subset_union_left
  have hg : g.vars ⊆ f.vars ∪ g.vars := Finset.subset_union_right
  change ∑ i ∈ insert d (f.vars ∪ g.vars), _ = _
  rw [Finset.sum_insert hd, hnew, hsum, Finset.sum_add_distrib, Finset.sum_add_distrib,
    ← Finset.mul_sum, ← Finset.mul_sum, Finset.sum_ite_eq', if_pos hmem,
    ← f.value_eq_sum noise hf, ← g.value_eq_sum noise hg]
  ring

/-- The value of a form is within its radius of the middle. -/
theorem abs_value_sub_mid_le (f : AAForm) {noise : AffineVar → ℚ}
    (hconst : noise .const = 1) (hnoise : ∀ i, |noise i| ≤ 1) :
    |f.value noise - f.mid| ≤ f.rad := by
  have hsplit : f.value noise - f.mid =
      ∑ i ∈ f.vars, if i = .const then 0 else f.coeff i * noise i := by
    have hmid : f.mid = ∑ i ∈ f.vars, if i = .const then f.coeff i else 0 := by
      rw [Finset.sum_ite_eq' f.vars AffineVar.const f.coeff]
      split
      · rfl
      · rename_i hnot
        exact f.coeff_eq_zero _ hnot
    rw [hmid, value, ← Finset.sum_sub_distrib]
    apply Finset.sum_congr rfl
    intro i _
    split
    · rename_i hi
      rw [hi, hconst]
      ring
    · ring
  rw [hsplit]
  apply (Finset.abs_sum_le_sum_abs _ _).trans
  apply Finset.sum_le_sum
  intro i _
  split
  · simp
  · rw [abs_mul]
    exact mul_le_of_le_one_right (abs_nonneg _) (hnoise i)

end AAForm

/-! ### Ranges as forms -/

theorem rangeHelper_rad (r : Range) : (rangeHelper r).rad = ((r.hi : ℚ) - r.lo) / 2 := by
  have hlo : ((r.hi : ℚ) + r.lo) / 2 - r.lo = (r.hi - r.lo) / 2 := by ring
  have hhi : (r.hi : ℚ) - (r.hi + r.lo) / 2 = (r.hi - r.lo) / 2 := by ring
  change max (((r.hi : ℚ) + r.lo) / 2 - r.lo) (r.hi - (r.hi + r.lo) / 2) = _
  rw [hlo, hhi, max_self]

theorem rangeHelper_rad_nonneg (r : Range) : 0 ≤ (rangeHelper r).rad := by
  have hle : (r.lo : ℚ) ≤ r.hi := Int.cast_le.mpr r.lo_le_hi
  rw [rangeHelper_rad]
  linarith

/-- A number of a range is the middle and a part of the radius. -/
theorem exists_noise {r : Range} {x : ℤ} (hx : x ∈ r) :
    ∃ d : ℚ, |d| ≤ 1 ∧ (rangeHelper r).mid + (rangeHelper r).rad * d = x := by
  have hlo : (r.lo : ℚ) ≤ x := Int.cast_le.mpr hx.1
  have hhi : (x : ℚ) ≤ r.hi := Int.cast_le.mpr hx.2
  have hnear : |(x : ℚ) - (rangeHelper r).mid| ≤ (rangeHelper r).rad := by
    rw [rangeHelper_rad, abs_le]
    change -(((r.hi : ℚ) - r.lo) / 2) ≤ x - (r.hi + r.lo) / 2 ∧ _
    constructor
    · linarith
    · change (x : ℚ) - (r.hi + r.lo) / 2 ≤ _
      linarith
  rcases (rangeHelper_rad_nonneg r).eq_or_lt with hzero | hpos
  · rw [← hzero, abs_nonpos_iff, sub_eq_zero] at hnear
    refine ⟨0, by simp, ?_⟩
    rw [mul_zero, add_zero, hnear]
  · refine ⟨(x - (rangeHelper r).mid) / (rangeHelper r).rad, ?_, ?_⟩
    · rw [abs_div, abs_of_pos hpos]
      exact (div_le_one hpos).mpr hnear
    · rw [mul_div_cancel₀ _ hpos.ne', add_sub_cancel]

namespace AAForm

theorem mid_ofRange {i : AffineVar} (hi : i ≠ .const) (r : Range) :
    (ofRange i r).mid = (rangeHelper r).mid := by
  simp [mid, ofRange, hi.symm]

theorem rad_ofRange {i : AffineVar} (hi : i ≠ .const) (r : Range) :
    (ofRange i r).rad = (rangeHelper r).rad := by
  unfold rad
  change ∑ j ∈ {AffineVar.const, i}, _ = _
  rw [Finset.sum_pair hi.symm]
  simp [ofRange, hi, abs_of_nonneg (rangeHelper_rad_nonneg r)]

theorem value_ofRange {i : AffineVar} (hi : i ≠ .const) (r : Range) {noise : AffineVar → ℚ}
    (hnoise : noise .const = 1) :
    (ofRange i r).value noise = (rangeHelper r).mid + (rangeHelper r).rad * noise i := by
  unfold value
  change ∑ j ∈ {AffineVar.const, i}, _ = _
  rw [Finset.sum_pair hi.symm]
  simp [ofRange, hi.symm, hnoise]

end AAForm

/-! ### Rounding -/

theorem toInteger_intCast (x : ℤ) : toInteger x = x := by
  simp [toInteger]

/-- Rounding the ends of a form changes nothing. -/
def AAForm.EndsExact (f : AAForm) : Prop :=
  (toInteger (f.mid - f.rad) : ℚ) = f.mid - f.rad ∧ (toInteger (f.mid + f.rad) : ℚ) = f.mid + f.rad

/-- Rounding the middles of two forms up does not change their product. -/
def AAForm.ProductExact (f g : AAForm) : Prop := (⌈f.mid⌉ : ℚ) * ⌈g.mid⌉ = f.mid * g.mid

theorem AAForm.EndsExact.mem {f : AAForm} (hf : f.EndsExact) {x : ℤ}
    (hx : |(x : ℚ) - f.mid| ≤ f.rad) : x ∈ f.ends := by
  rw [abs_le] at hx
  apply Range.mem_new
  · apply (Int.cast_le (R := ℚ)).mp
    linarith [hf.1]
  · apply (Int.cast_le (R := ℚ)).mp
    linarith [hf.2]

theorem AAForm.ends_ofRange {i : AffineVar} (hi : i ≠ .const) (r : Range) :
    (AAForm.ofRange i r).ends = r := by
  have hlo : (AAForm.ofRange i r).mid - (AAForm.ofRange i r).rad = r.lo := by
    rw [mid_ofRange hi, rad_ofRange hi, rangeHelper_rad]
    change ((r.hi : ℚ) + r.lo) / 2 - _ = _
    ring
  have hhi : (AAForm.ofRange i r).mid + (AAForm.ofRange i r).rad = r.hi := by
    rw [mid_ofRange hi, rad_ofRange hi, rangeHelper_rad]
    change ((r.hi : ℚ) + r.lo) / 2 + _ = _
    ring
  unfold ends
  rw [hlo, hhi, toInteger_intCast, toInteger_intCast, Range.new_of_le r.lo_le_hi]

/-- The form of an equation, with any numbers for the generated noise. -/
def HasForm (known : Known) (body : Equation) (f : AAForm) : Prop :=
  ∃ n m, Ends (evaluateAa known body) n (some f) m

/-- No step of the analysis of an equation changes a number by rounding. -/
def Unrounded (known : Known) : Equation → Prop
  | .v _ | .constant _ => True
  | .neg a => Unrounded known a
  | .add a b | .sub a b => Unrounded known a ∧ Unrounded known b
  | .mul a b => (Unrounded known a ∧ Unrounded known b) ∧
      ∀ f g, HasForm known a f → HasForm known b g → f.ProductExact g
  | .bitManpi a => Unrounded known a ∧ ∀ f, HasForm known a f → f.EndsExact
  | .bitManipMax a b | .union a b => (Unrounded known a ∧ Unrounded known b) ∧
      ∀ f, HasForm known a f ∨ HasForm known b f → f.EndsExact

/-! ### Noise of the generated terms -/

/-- Noise between minus one and one. -/
def Bounded {α : Type} (noise : α → ℚ) : Prop := ∀ i, |noise i| ≤ 1

theorem bounded_noise {vars : Var → ℚ} {gens : ℕ → ℚ} (hvars : Bounded vars)
    (hgens : Bounded gens) : Bounded (noise vars gens) := by
  intro i
  cases i with
  | var v => exact hvars v
  | gen id => exact hgens id
  | const => exact abs_one.le

/-- A form with terms up to the number `n` has the value `x`. -/
structure Represents (vars : Var → ℚ) (gens : ℕ → ℚ) (f : AAForm) (n : ℕ) (x : ℤ) : Prop where
  const_mem : .const ∈ f.vars
  gen_lt : ∀ id, .gen id ∈ f.vars → id < n
  value : f.value (noise vars gens) = x

/-- The noise after the number `n` can be chosen so that the form has the value `x`. -/
def Yields (vars : Var → ℚ) (gens : ℕ → ℚ) (n : ℕ) (f : AAForm) (m : ℕ) (x : ℤ) : Prop :=
  n ≤ m ∧ ∃ gens', Bounded gens' ∧ (∀ id < n, gens' id = gens id) ∧ Represents vars gens' f m x

/-- Every run of the analysis of an equation leads to a form with the value `x`. -/
def Realises (known : Known) (vars : Var → ℚ) (body : Equation) (x : ℤ) : Prop :=
  ∀ n m f gens, Bounded gens → Ends (evaluateAa known body) n (some f) m →
    Yields vars gens n f m x

section Noise

variable {known : Known} {vars : Var → ℚ} {gens gens' : ℕ → ℚ} {f g h : AAForm} {n m : ℕ}
  {x y z : ℤ}

theorem Represents.mono (hf : Represents vars gens f n x) (hgens : ∀ id < n, gens' id = gens id)
    (hle : n ≤ m) : Represents vars gens' f m x where
  const_mem := hf.const_mem
  gen_lt id hid := (hf.gen_lt id hid).trans_le hle
  value := by
    rw [← hf.value]
    apply AAForm.value_congr
    intro i hi
    cases i with
    | var v => rfl
    | gen id => exact hgens id (hf.gen_lt id hi)
    | const => rfl

theorem Represents.near (hf : Represents vars gens f n x) (hvars : Bounded vars)
    (hgens : Bounded gens) : |(x : ℚ) - f.mid| ≤ f.rad := by
  rw [← hf.value]
  exact f.abs_value_sub_mid_le rfl (bounded_noise hvars hgens)

/-- The noise of the next term, after that of the terms so far. -/
theorem bounded_update (hgens : Bounded gens) {d : ℚ} (hd : |d| ≤ 1) (n : ℕ) :
    Bounded (Function.update gens n d) ∧
      ∀ id < n, Function.update gens n d id = gens id := by
  constructor
  · intro id
    by_cases hid : id = n
    · rw [hid, Function.update_self]
      exact hd
    · rw [Function.update_of_ne hid]
      exact hgens id
  · intro id hid
    exact Function.update_of_ne hid.ne d gens

theorem yields_ofRange (hgens : Bounded gens) {r : Range} (hx : x ∈ r) (n : ℕ) :
    Yields vars gens n (.ofRange (.gen n) r) (n + 1) x := by
  obtain ⟨d, hd, hvalue⟩ := exists_noise hx
  obtain ⟨hbounded, hsame⟩ := bounded_update hgens hd n
  have hne : AffineVar.gen n ≠ .const := nofun
  refine ⟨Nat.le_succ n, Function.update gens n d, hbounded, hsame, ?_, ?_, ?_⟩
  · exact Finset.mem_insert_self _ _
  · intro id hid
    rcases Finset.mem_insert.mp hid with hid | hid
    · nomatch hid
    · obtain rfl := AffineVar.gen.inj (Finset.mem_singleton.mp hid)
      exact Nat.lt_succ_self id
  · rw [AAForm.value_ofRange hne r rfl]
    change _ + _ * Function.update gens n d n = _
    rw [Function.update_self, hvalue]

theorem yields_fromRange (hgens : Bounded gens) {r : Range} (hx : x ∈ r)
    (h : Ends (AAForm.fromRange r) n f m) : Yields vars gens n f m x := by
  cases h
  exact yields_ofRange hgens hx n

/-- A product of forms, with the middles of both rounded up in the product that is taken away. -/
theorem mul_ends (h' : Ends (f.mul g) n h m) :
    h = f.combine g g.mid f.mid (-((⌈f.mid⌉ : ℚ) * ⌈g.mid⌉)) (f.rad * g.rad) (.gen n) ∧
      m = n + 1 := by
  cases h'
  have hpoint : (Range.new ⌈f.mid⌉ ⌈f.mid⌉).mul (.new ⌈g.mid⌉ ⌈g.mid⌉) =
      ⟨⌈f.mid⌉ * ⌈g.mid⌉, ⌈f.mid⌉ * ⌈g.mid⌉, le_rfl⟩ := by
    simp [Range.mul, Range.new]
  have hmid : (rangeHelper ⟨⌈f.mid⌉ * ⌈g.mid⌉, ⌈f.mid⌉ * ⌈g.mid⌉, le_rfl⟩).mid =
      (⌈f.mid⌉ : ℚ) * ⌈g.mid⌉ := by
    simp only [rangeHelper, Int.cast_mul]
    ring
  have hrad : (rangeHelper ⟨⌈f.mid⌉ * ⌈g.mid⌉, ⌈f.mid⌉ * ⌈g.mid⌉, le_rfl⟩).rad = 0 := by
    rw [rangeHelper_rad]
    ring
  refine ⟨?_, rfl⟩
  rw [hpoint, hmid, hrad, add_zero]

/-- The product of two values is a value of the product of their forms, whose new noise makes up
for the product of the deviations from the middles. -/
theorem yields_mul (hvars : Bounded vars) (hgens : Bounded gens)
    (hf : Represents vars gens f n x) (hg : Represents vars gens g n y) (hexact : f.ProductExact g)
    (h' : Ends (f.mul g) n h m) : Yields vars gens n h m (x * y) := by
  obtain ⟨rfl, rfl⟩ := mul_ends h'
  have hf' := hf.near hvars hgens
  have hg' := hg.near hvars hgens
  have hdeviation : |((x : ℚ) - f.mid) * (y - g.mid)| ≤ f.rad * g.rad := by
    rw [abs_mul]
    exact mul_le_mul hf' hg' (abs_nonneg _) ((abs_nonneg _).trans hf')
  obtain ⟨d, hd, hdvalue⟩ : ∃ d : ℚ, |d| ≤ 1 ∧
      f.rad * g.rad * d = ((x : ℚ) - f.mid) * (y - g.mid) := by
    rcases ((abs_nonneg _).trans hdeviation).eq_or_lt with hzero | hpos
    · rw [← hzero, abs_nonpos_iff] at hdeviation
      exact ⟨0, by simp, by rw [hdeviation, mul_zero]⟩
    · refine ⟨((x : ℚ) - f.mid) * (y - g.mid) / (f.rad * g.rad), ?_, mul_div_cancel₀ _ hpos.ne'⟩
      rw [abs_div, abs_of_pos hpos]
      exact (div_le_one hpos).mpr hdeviation
  obtain ⟨hbounded, hsame⟩ := bounded_update hgens hd n
  have hnew : AffineVar.gen n ∉ f.vars ∪ g.vars := by
    rw [Finset.mem_union, not_or]
    exact ⟨fun hmem => (hf.gen_lt n hmem).false, fun hmem => (hg.gen_lt n hmem).false⟩
  refine ⟨Nat.le_succ n, Function.update gens n d, hbounded, hsame, ?_, ?_, ?_⟩
  · exact Finset.mem_insert_of_mem (Finset.mem_union_left _ hf.const_mem)
  · intro id hid
    rcases Finset.mem_insert.mp hid with hid | hid
    · obtain rfl := AffineVar.gen.inj hid
      exact Nat.lt_succ_self id
    · rcases Finset.mem_union.mp hid with hid | hid
      · exact (hf.gen_lt id hid).trans (Nat.lt_succ_self n)
      · exact (hg.gen_lt id hid).trans (Nat.lt_succ_self n)
  · rw [AAForm.value_combine hf.const_mem hnew rfl, (hf.mono hsame le_rfl).value,
      (hg.mono hsame le_rfl).value]
    unfold AAForm.ProductExact at hexact
    change g.mid * x + f.mid * y + -((⌈f.mid⌉ : ℚ) * ⌈g.mid⌉) + f.rad * g.rad *
      Function.update gens n d n = _
    rw [hexact, Function.update_self, hdvalue, Int.cast_mul]
    ring

/-! ### Values of the operations -/

theorem yields_bitManip (hvars : Bounded vars) (hgens : Bounded gens)
    (hf : Represents vars gens f n x) (hexact : f.EndsExact)
    (hfits : ∀ k, Fits k x → Fits k z) (h' : Ends f.bitManip n h m) : Yields vars gens n h m z := by
  unfold AAForm.bitManip at h'
  split at h'
  · rename_i bits hbits
    have hmem := Range.mem_bitManip hbits (hexact.mem (hf.near hvars hgens)) hfits
    exact yields_fromRange hgens hmem h'
  · exact absurd h' not_throw_ends

/-- Both operands are brought to their word lengths, the second one first. -/
theorem yields_bitManipMax (hvars : Bounded vars) (hgens : Bounded gens)
    (hf : Represents vars gens f n x) (hg : Represents vars gens g n y)
    (hexactf : f.EndsExact) (hexactg : g.EndsExact)
    (hfits : ∀ k, Fits k x → Fits k y → Fits k z)
    (h' : Ends (do let b ← g.bitManip; (← f.bitManip).union b) n h m) :
    Yields vars gens n h m z := by
  obtain ⟨b, n₁, hb, h'⟩ := bind_ends h'
  obtain ⟨a, n₂, ha, h'⟩ := bind_ends h'
  unfold AAForm.bitManip at ha hb
  split at hb
  · rename_i bitsg hbitsg
    split at ha
    · rename_i bitsf hbitsf
      cases hb
      cases ha
      have hmem := Range.mem_bitManip_union hbitsf hbitsg (hexactf.mem (hf.near hvars hgens))
        (hexactg.mem (hg.near hvars hgens)) hfits
      unfold AAForm.union at h'
      rw [AAForm.ends_ofRange (by simp), AAForm.ends_ofRange (by simp)] at h'
      obtain ⟨hle, gens', hbounded, hsame, hrep⟩ := yields_fromRange hgens hmem h'
      exact ⟨by omega, gens', hbounded, fun id hid => hsame id (by omega), hrep⟩
    · exact absurd ha not_throw_ends
  · exact absurd hb not_throw_ends

theorem yields_union (hgens : Bounded gens) (hz : z ∈ f.ends ∨ z ∈ g.ends)
    (h' : Ends (f.union g) n h m) : Yields vars gens n h m z := by
  apply yields_fromRange hgens _ h'
  rcases hz with hz | hz
  · exact Range.mem_union_left hz
  · exact Range.mem_union_right hz

theorem represents_add (hf : Represents vars gens f n x) (hg : Represents vars gens g n y) :
    Represents vars gens (f.add g) n (x + y) where
  const_mem := Finset.mem_union_left _ hf.const_mem
  gen_lt id hid := by
    rcases Finset.mem_union.mp hid with hid | hid
    · exact hf.gen_lt id hid
    · exact hg.gen_lt id hid
  value := by
    rw [AAForm.value_add, hf.value, hg.value, Int.cast_add]

theorem represents_neg (hf : Represents vars gens f n x) :
    Represents vars gens f.neg n (-x) where
  const_mem := hf.const_mem
  gen_lt := hf.gen_lt
  value := by
    rw [AAForm.value_neg, hf.value, Int.cast_neg]

theorem yields_of_represents (hgens : Bounded gens) (hf : Represents vars gens f n x) :
    Yields vars gens n f n x :=
  ⟨le_rfl, gens, hgens, fun _ _ => rfl, hf⟩

theorem Yields.trans {k : ℕ} (hle : n ≤ m) (hsame : ∀ id < n, gens' id = gens id)
    (h : Yields vars gens' m f k x) : Yields vars gens n f k x := by
  obtain ⟨hle', gens'', hbounded, hsame', hf⟩ := h
  exact ⟨hle.trans hle', gens'', hbounded,
    fun id hid => (hsame' id (hid.trans_le hle)).trans (hsame id hid), hf⟩

theorem yields_withForm {a : Equation} {op : AAForm → Tracked AAForm}
    (ha : Realises known vars a x)
    (hop : ∀ f, HasForm known a f → ∀ {gens n m h}, Bounded gens → Represents vars gens f n x →
      Ends (op f) n h m → Yields vars gens n h m z)
    (hgens : Bounded gens) (h' : Ends (withForm (evaluateAa known a) op) n (some h) m) :
    Yields vars gens n h m z := by
  obtain ⟨f, n₁, hf, hopf⟩ := withForm_ends.mp h'
  obtain ⟨hle, gens₁, hgens₁, hsame, hrep⟩ := ha n n₁ f gens hgens hf
  exact (hop f ⟨n, n₁, hf⟩ hgens₁ hrep hopf).trans hle hsame

/-- The noise of the first operand stays while that of the second one is chosen. -/
theorem yields_withForms {a b : Equation} {op : AAForm → AAForm → Tracked AAForm}
    (ha : Realises known vars a x) (hb : Realises known vars b y)
    (hop : ∀ f g, HasForm known a f → HasForm known b g → ∀ {gens n m h}, Bounded gens →
      Represents vars gens f n x → Represents vars gens g n y → Ends (op f g) n h m →
        Yields vars gens n h m z)
    (hgens : Bounded gens)
    (h' : Ends (withForms (evaluateAa known a) (evaluateAa known b) op) n (some h) m) :
    Yields vars gens n h m z := by
  obtain ⟨f, n₁, g, n₂, hf, hg, hopfg⟩ := withForms_ends.mp h'
  obtain ⟨hle₁, gens₁, hgens₁, hsame₁, hrepf⟩ := ha n n₁ f gens hgens hf
  obtain ⟨hle₂, gens₂, hgens₂, hsame₂, hrepg⟩ := hb n₁ n₂ g gens₁ hgens₁ hg
  have hyields := hop f g ⟨n, n₁, hf⟩ ⟨n₁, n₂, hg⟩ hgens₂ (hrepf.mono hsame₂ hle₂) hrepg hopfg
  exact (hyields.trans hle₂ hsame₂).trans hle₁ hsame₁

end Noise

/-! ### Soundness -/

/-- The noise of a variable whose known range contains its value. -/
theorem exists_vars {known : Known} {values : Var → ℤ} (hvalues : Within values known) :
    ∃ vars : Var → ℚ, Bounded vars ∧ ∀ var r, known.lookup var = some r →
      (rangeHelper r).mid + (rangeHelper r).rad * vars var = values var := by
  have hvar (var : Var) : ∃ d : ℚ, |d| ≤ 1 ∧ ∀ r, known.lookup var = some r →
      (rangeHelper r).mid + (rangeHelper r).rad * d = values var := by
    cases hlookup : known.lookup var with
    | none => exact ⟨0, by simp, nofun⟩
    | some r =>
      obtain ⟨d, hd, hvalue⟩ := exists_noise (hvalues var r hlookup)
      refine ⟨d, hd, ?_⟩
      rintro _ ⟨⟩
      exact hvalue
  choose vars hbounded hvars using hvar
  exact ⟨vars, hbounded, hvars⟩

section Soundness

variable {known : Known} {values : Var → ℤ} {vars : Var → ℚ}

/-- An equation takes a value at least, since no range is empty. -/
theorem exists_takes (values : Var → ℤ) (body : Equation) : ∃ x, Takes values body x := by
  induction body with
  | v var => exact ⟨_, .v⟩
  | constant range => exact ⟨range.lo, .constant ⟨le_rfl, range.lo_le_hi⟩⟩
  | add a b iha ihb =>
    obtain ⟨x, hx⟩ := iha
    obtain ⟨y, hy⟩ := ihb
    exact ⟨_, .add hx hy⟩
  | sub a b iha ihb =>
    obtain ⟨x, hx⟩ := iha
    obtain ⟨y, hy⟩ := ihb
    exact ⟨_, .sub hx hy⟩
  | mul a b iha ihb =>
    obtain ⟨x, hx⟩ := iha
    obtain ⟨y, hy⟩ := ihb
    exact ⟨_, .mul hx hy⟩
  | bitManpi a ih =>
    obtain ⟨x, hx⟩ := ih
    exact ⟨_, .bitwiseNot hx⟩
  | neg a ih =>
    obtain ⟨x, hx⟩ := ih
    exact ⟨_, .neg hx⟩
  | bitManipMax a b iha ihb =>
    obtain ⟨x, hx⟩ := iha
    obtain ⟨y, hy⟩ := ihb
    exact ⟨_, .bitwiseAnd hx hy⟩
  | union a b iha ihb =>
    obtain ⟨x, hx⟩ := iha
    exact ⟨_, .left hx⟩

theorem evaluateAa_value (hvars : Bounded vars)
    (hvalue : ∀ var r, known.lookup var = some r →
      (rangeHelper r).mid + (rangeHelper r).rad * vars var = values var)
    {body : Equation} (hexact : Unrounded known body) {x : ℤ} (hx : Takes values body x) :
    Realises known vars body x := by
  induction body generalizing x with
  | v var =>
    cases hx
    intro n m f gens hgens h
    obtain ⟨hf, rfl⟩ := pure_ends h
    obtain ⟨r, hr, rfl⟩ := Option.map_eq_some_iff.mp hf.symm
    have hne : AffineVar.var var ≠ .const := by simp
    apply yields_of_represents hgens
    refine ⟨Finset.mem_insert_self _ _, ?_, ?_⟩
    · intro id hid
      rcases Finset.mem_insert.mp hid with hid | hid
      · nomatch hid
      · nomatch Finset.mem_singleton.mp hid
    · rw [AAForm.fromVar, AAForm.value_ofRange hne r rfl]
      exact hvalue var r hr
  | constant range =>
    cases hx with
    | constant hmem =>
      intro n m f gens hgens h
      obtain ⟨g, n₁, hg, h⟩ := bind_ends h
      obtain ⟨hf, rfl⟩ := pure_ends h
      obtain rfl := Option.some.inj hf
      exact yields_fromRange hgens hmem hg
  | add a b iha ihb =>
    cases hx with
    | add hx hy =>
      intro n m f gens hgens h
      apply yields_withForms (iha hexact.1 hx) (ihb hexact.2 hy) _ hgens h
      intro f g _ _ gens n m h hgens hf hg h'
      cases h'
      exact yields_of_represents hgens (represents_add hf hg)
  | sub a b iha ihb =>
    cases hx with
    | sub hx hy =>
      intro n m f gens hgens h
      apply yields_withForms (iha hexact.1 hx) (ihb hexact.2 hy) _ hgens h
      intro f g _ _ gens n m h hgens hf hg h'
      cases h'
      rw [sub_eq_add_neg]
      exact yields_of_represents hgens (represents_add hf (represents_neg hg))
  | mul a b iha ihb =>
    cases hx with
    | mul hx hy =>
      intro n m f gens hgens h
      apply yields_withForms (iha hexact.1.1 hx) (ihb hexact.1.2 hy) _ hgens h
      intro f g hff hfg gens n m h hgens hf hg h'
      exact yields_mul hvars hgens hf hg (hexact.2 f g hff hfg) h'
  | bitManpi a ih =>
    -- All manipulations of the operand need no more bits than the operand.
    obtain ⟨y, hy, hfits⟩ : ∃ y, Takes values a y ∧ ∀ k, Fits k y → Fits k x := by
      cases hx with
      | bitwiseNot hy => exact ⟨_, hy, fun _ hfits => hfits.lnot⟩
      | rightShift k hy => exact ⟨_, hy, fun _ hfits => hfits.shiftRight k⟩
    intro n m f gens hgens h
    apply yields_withForm (ih hexact.1 hy) _ hgens h
    intro f hff gens n m h hgens hf h'
    exact yields_bitManip hvars hgens hf (hexact.2 f hff) hfits h'
  | neg a ih =>
    cases hx with
    | neg hx =>
      intro n m f gens hgens h
      apply yields_withForm (ih hexact hx) _ hgens h
      intro f _ gens n m h hgens hf h'
      cases h'
      exact yields_of_represents hgens (represents_neg hf)
  | bitManipMax a b iha ihb =>
    obtain ⟨y, z, hy, hz, hfits⟩ : ∃ y z, Takes values a y ∧ Takes values b z ∧
        ∀ k, Fits k y → Fits k z → Fits k x := by
      cases hx with
      | bitwiseAnd hy hz => exact ⟨_, _, hy, hz, fun _ hyk hzk => hyk.land hzk⟩
      | bitwiseOr hy hz => exact ⟨_, _, hy, hz, fun _ hyk hzk => hyk.lor hzk⟩
      | bitwiseXor hy hz => exact ⟨_, _, hy, hz, fun _ hyk hzk => hyk.xor hzk⟩
    intro n m f gens hgens h
    apply yields_withForms (iha hexact.1.1 hy) (ihb hexact.1.2 hz) _ hgens h
    intro f g hff hfg gens n m h hgens hf hg h'
    exact yields_bitManipMax hvars hgens hf hg (hexact.2 f (.inl hff)) (hexact.2 g (.inr hfg))
      hfits h'
  | union a b iha ihb =>
    obtain ⟨y, z, hy, hz, hside⟩ : ∃ y z, Takes values a y ∧ Takes values b z ∧
        (x = y ∨ x = z) := by
      cases hx with
      | left hx =>
        obtain ⟨z, hz⟩ := exists_takes values b
        exact ⟨x, z, hx, hz, .inl rfl⟩
      | right hx =>
        obtain ⟨y, hy⟩ := exists_takes values a
        exact ⟨y, x, hy, hx, .inr rfl⟩
    intro n m f gens hgens h
    apply yields_withForms (iha hexact.1.1 hy) (ihb hexact.1.2 hz) _ hgens h
    intro f g hff hfg gens n m h hgens hf hg h'
    apply yields_union hgens _ h'
    rcases hside with rfl | rfl
    · exact .inl ((hexact.2 f (.inl hff)).mem (hf.near hvars hgens))
    · exact .inr ((hexact.2 g (.inr hfg)).mem (hg.near hvars hgens))

/-- Every form has the constant, and terms with the numbers of its run. -/
theorem evaluateAa_fresh {known : Known} {body : Equation} (hexact : Unrounded known body)
    {n m : ℕ} {f : AAForm} (h : Ends (evaluateAa known body) n (some f) m) :
    n ≤ m ∧ .const ∈ f.vars ∧ ∀ id, .gen id ∈ f.vars → id < m := by
  have hvalues : Within (fun var => (known.lookup var).elim 0 Range.lo) known := by
    intro var r hr
    simp only [hr, Option.elim_some]
    exact ⟨le_rfl, r.lo_le_hi⟩
  obtain ⟨vars, hvars, hvalue⟩ := exists_vars hvalues
  obtain ⟨x, hx⟩ := exists_takes _ body
  have hzero : Bounded fun _ : ℕ => (0 : ℚ) := by simp [Bounded]
  obtain ⟨hle, gens, -, -, hrep⟩ := evaluateAa_value hvars hvalue hexact hx n m f _ hzero h
  exact ⟨hle, hrep.const_mem, hrep.gen_lt⟩

end Soundness

end Spade.WordlengthInference

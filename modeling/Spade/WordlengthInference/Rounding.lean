import Mathlib.Algebra.Ring.Subring.Basic
import Spade.WordlengthInference.AffineSoundness

/-!
# Rounding in affine arithmetic

When the affine analysis of an equation does not round. The middle of a range is an integer or a
half, and the analysis keeps to such coefficients as long as the middles of factors are integers.

* **Ends** (`Integral.ends`): a form whose coefficients are integers or halves has integral ends,
  if the sum of its coefficients is an integer.
* **Equations** (`unrounded_of_integralMiddles`): products of forms with integral middles are the
  only ones that have to be looked at; an equation without a product is never rounded
  (`unrounded_of_mulFree`).
-/

namespace Spade.WordlengthInference

open Spade.Lib.StateExcept

/-! ### Integers and halves -/

/-- The rational numbers that are integers. -/
def integers : Subring ℚ := (Int.castRingHom ℚ).range

theorem intCast_mem_integers (k : ℤ) : (k : ℚ) ∈ integers := ⟨k, rfl⟩

theorem toInteger_of_mem {q : ℚ} (h : q ∈ integers) : (toInteger q : ℚ) = q := by
  obtain ⟨k, rfl⟩ := h
  change ((toInteger (k : ℚ) : ℤ) : ℚ) = k
  rw [toInteger_intCast]

/-- All coefficients are integers or halves, and their sum is an integer. -/
structure Integral (f : AAForm) : Prop where
  half : ∀ i, 2 * f.coeff i ∈ integers
  total : f.value (fun _ => 1) ∈ integers

section Integral

variable {f g : AAForm} {known : Known}

/-- A half and its absolute value differ by an integer, so that the ends of the form are as far
from the sum of its coefficients. -/
theorem Integral.ends (hf : Integral f) :
    f.mid - f.rad ∈ integers ∧ f.mid + f.rad ∈ integers := by
  have hhalf (q : ℚ) (hq : 2 * q ∈ integers) : |q| - q ∈ integers ∧ q + |q| ∈ integers := by
    rcases le_total 0 q with hpos | hneg
    · rw [abs_of_nonneg hpos, sub_self, ← two_mul]
      exact ⟨integers.zero_mem, hq⟩
    · rw [abs_of_nonpos hneg, add_neg_cancel, sub_eq_add_neg, ← neg_add, ← two_mul]
      exact ⟨integers.neg_mem hq, integers.zero_mem⟩
  have hmid : f.mid = ∑ i ∈ f.vars, if i = .const then f.coeff i else 0 := by
    rw [Finset.sum_ite_eq' f.vars AffineVar.const f.coeff]
    split
    · rfl
    · rename_i hnot
      exact f.coeff_eq_zero _ hnot
  have hlo : f.value (fun _ => 1) - (f.mid - f.rad) =
      ∑ i ∈ f.vars, if i = .const then 0 else f.coeff i + |f.coeff i| := by
    rw [hmid, AAForm.value, AAForm.rad, ← Finset.sum_sub_distrib, ← Finset.sum_sub_distrib]
    apply Finset.sum_congr rfl
    intro i _
    split
    · ring
    · ring
  have hhi : f.mid + f.rad - f.value (fun _ => 1) =
      ∑ i ∈ f.vars, if i = .const then 0 else |f.coeff i| - f.coeff i := by
    rw [hmid, AAForm.value, AAForm.rad, ← Finset.sum_add_distrib, ← Finset.sum_sub_distrib]
    apply Finset.sum_congr rfl
    intro i _
    split
    · ring
    · ring
  constructor
  · have hmem : f.value (fun _ => 1) - (f.mid - f.rad) ∈ integers := by
      rw [hlo]
      apply integers.sum_mem
      intro i _
      split
      · exact integers.zero_mem
      · exact (hhalf _ (hf.half i)).2
    have hsub := integers.sub_mem hf.total hmem
    rwa [sub_sub_cancel] at hsub
  · have hmem : f.mid + f.rad - f.value (fun _ => 1) ∈ integers := by
      rw [hhi]
      apply integers.sum_mem
      intro i _
      split
      · exact integers.zero_mem
      · exact (hhalf _ (hf.half i)).1
    have hadd := integers.add_mem hmem hf.total
    rwa [sub_add_cancel] at hadd

theorem Integral.endsExact (hf : Integral f) : f.EndsExact :=
  ⟨toInteger_of_mem hf.ends.1, toInteger_of_mem hf.ends.2⟩

theorem integral_ofRange {i : AffineVar} (hi : i ≠ .const) (r : Range) :
    Integral (.ofRange i r) where
  half j := by
    simp only [AAForm.ofRange, rangeHelper_rad]
    split
    · rw [mul_div_cancel₀ _ two_ne_zero]
      exact integers.sub_mem (intCast_mem_integers _) (intCast_mem_integers _)
    · split
      · change 2 * (((r.hi : ℚ) + r.lo) / 2) ∈ integers
        rw [mul_div_cancel₀ _ two_ne_zero]
        exact integers.add_mem (intCast_mem_integers _) (intCast_mem_integers _)
      · rw [mul_zero]
        exact integers.zero_mem
  total := by
    rw [AAForm.value_ofRange hi r rfl, rangeHelper_rad]
    change ((r.hi : ℚ) + r.lo) / 2 + (r.hi - r.lo) / 2 * 1 ∈ integers
    have hhi : ((r.hi : ℚ) + r.lo) / 2 + (r.hi - r.lo) / 2 * 1 = r.hi := by ring
    rw [hhi]
    exact intCast_mem_integers _

theorem Integral.add (hf : Integral f) (hg : Integral g) : Integral (f.add g) where
  half i := by
    change 2 * (f.coeff i + g.coeff i) ∈ integers
    rw [mul_add]
    exact integers.add_mem (hf.half i) (hg.half i)
  total := by
    rw [AAForm.value_add]
    exact integers.add_mem hf.total hg.total

theorem Integral.neg (hf : Integral f) : Integral f.neg where
  half i := by
    change 2 * -f.coeff i ∈ integers
    rw [mul_neg]
    exact integers.neg_mem (hf.half i)
  total := by
    rw [AAForm.value_neg]
    exact integers.neg_mem hf.total

/-- The middles of all factors in an equation are integers. -/
def IntegralMiddles (known : Known) : Equation → Prop
  | .v _ | .constant _ => True
  | .neg a | .bitManpi a => IntegralMiddles known a
  | .add a b | .sub a b | .bitManipMax a b | .union a b =>
    IntegralMiddles known a ∧ IntegralMiddles known b
  | .mul a b => (IntegralMiddles known a ∧ IntegralMiddles known b) ∧
      ∀ f, HasForm known a f ∨ HasForm known b f → f.mid ∈ integers

/-- No product occurs in an equation. -/
def MulFree : Equation → Prop
  | .v _ | .constant _ => True
  | .neg a | .bitManpi a => MulFree a
  | .add a b | .sub a b | .bitManipMax a b | .union a b => MulFree a ∧ MulFree b
  | .mul _ _ => False

theorem ceil_of_mem {q : ℚ} (h : q ∈ integers) : (⌈q⌉ : ℚ) = q := by
  obtain ⟨k, rfl⟩ := h
  change ((⌈(k : ℚ)⌉ : ℤ) : ℚ) = k
  rw [Int.ceil_intCast]

theorem Integral.rad_mem (hf : Integral f) (hmid : f.mid ∈ integers) : f.rad ∈ integers := by
  have hsub := integers.sub_mem hf.ends.2 hmid
  rwa [add_sub_cancel_left] at hsub

theorem Integral.mul (hf : Integral f) (hg : Integral g) (hfmid : f.mid ∈ integers)
    (hgmid : g.mid ∈ integers) {n : ℕ} (hconst : .const ∈ f.vars)
    (hnew : .gen n ∉ f.vars ∪ g.vars) {h : AAForm} {m : ℕ} (hmul : Ends (f.mul g) n h m) :
    Integral h := by
  obtain ⟨rfl, -⟩ := mul_ends hmul
  have hdelta : f.rad * g.rad ∈ integers :=
    integers.mul_mem (hf.rad_mem hfmid) (hg.rad_mem hgmid)
  have hgamma : -((⌈f.mid⌉ : ℚ) * ⌈g.mid⌉) ∈ integers :=
    integers.neg_mem (integers.mul_mem (intCast_mem_integers _) (intCast_mem_integers _))
  have htwo : (2 : ℚ) ∈ integers := intCast_mem_integers 2
  constructor
  · intro i
    simp only [AAForm.combine]
    split
    · exact integers.mul_mem htwo hdelta
    · split
      · have hsum : 2 * (g.mid * f.coeff i + f.mid * g.coeff i +
            if i = .const then -((⌈f.mid⌉ : ℚ) * ⌈g.mid⌉) else 0) =
              g.mid * (2 * f.coeff i) + f.mid * (2 * g.coeff i) +
                2 * if i = .const then -((⌈f.mid⌉ : ℚ) * ⌈g.mid⌉) else 0 := by
          ring
        rw [hsum]
        apply integers.add_mem
        · exact integers.add_mem (integers.mul_mem hgmid (hf.half i))
            (integers.mul_mem hfmid (hg.half i))
        · apply integers.mul_mem htwo
          split
          · exact hgamma
          · exact integers.zero_mem
      · rw [mul_zero]
        exact integers.zero_mem
  · rw [AAForm.value_combine hconst hnew rfl, mul_one]
    apply integers.add_mem _ hdelta
    apply integers.add_mem _ hgamma
    exact integers.add_mem (integers.mul_mem hgmid hf.total) (integers.mul_mem hfmid hg.total)

/-- With integral middles of the factors, all coefficients are integers or halves, so that no step
rounds. -/
theorem unrounded_of_integralMiddles {body : Equation} (h : IntegralMiddles known body) :
    Unrounded known body ∧ ∀ f, HasForm known body f → Integral f := by
  induction body with
  | v var =>
    refine ⟨trivial, ?_⟩
    rintro f ⟨n, m, hf⟩
    obtain ⟨r, hr, rfl⟩ := Option.map_eq_some_iff.mp (pure_ends hf).1.symm
    exact integral_ofRange (by simp) r
  | constant range =>
    refine ⟨trivial, ?_⟩
    rintro f ⟨n, m, hf⟩
    cases hf
    exact integral_ofRange (by simp) range
  | add a b iha ihb =>
    obtain ⟨hexacta, ha⟩ := iha h.1
    obtain ⟨hexactb, hb⟩ := ihb h.2
    refine ⟨⟨hexacta, hexactb⟩, ?_⟩
    rintro f ⟨n, m, hf⟩
    obtain ⟨fa, n₁, fb, n₂, hfa, hfb, hop⟩ := withForms_ends.mp hf
    cases hop
    exact (ha fa ⟨n, n₁, hfa⟩).add (hb fb ⟨n₁, m, hfb⟩)
  | sub a b iha ihb =>
    obtain ⟨hexacta, ha⟩ := iha h.1
    obtain ⟨hexactb, hb⟩ := ihb h.2
    refine ⟨⟨hexacta, hexactb⟩, ?_⟩
    rintro f ⟨n, m, hf⟩
    obtain ⟨fa, n₁, fb, n₂, hfa, hfb, hop⟩ := withForms_ends.mp hf
    cases hop
    exact (ha fa ⟨n, n₁, hfa⟩).add (hb fb ⟨n₁, m, hfb⟩).neg
  | mul a b iha ihb =>
    obtain ⟨hexacta, ha⟩ := iha h.1.1
    obtain ⟨hexactb, hb⟩ := ihb h.1.2
    refine ⟨⟨⟨hexacta, hexactb⟩, ?_⟩, ?_⟩
    · intro f g hf hg
      unfold AAForm.ProductExact
      rw [ceil_of_mem (h.2 f (.inl hf)), ceil_of_mem (h.2 g (.inr hg))]
    · rintro f ⟨n, m, hf⟩
      obtain ⟨fa, n₁, fb, n₂, hfa, hfb, hop⟩ := withForms_ends.mp hf
      obtain ⟨-, hconst, hlta⟩ := evaluateAa_fresh hexacta hfa
      obtain ⟨hle, -, hltb⟩ := evaluateAa_fresh hexactb hfb
      have hnew : .gen n₂ ∉ fa.vars ∪ fb.vars := by
        rw [Finset.mem_union, not_or]
        exact ⟨fun hmem => absurd (hlta n₂ hmem) (by omega), fun hmem => (hltb n₂ hmem).false⟩
      exact (ha fa ⟨n, n₁, hfa⟩).mul (hb fb ⟨n₁, n₂, hfb⟩) (h.2 fa (.inl ⟨n, n₁, hfa⟩))
        (h.2 fb (.inr ⟨n₁, n₂, hfb⟩)) hconst hnew hop
  | bitManpi a ih =>
    obtain ⟨hexact, ha⟩ := ih h
    refine ⟨⟨hexact, fun f hf => (ha f hf).endsExact⟩, ?_⟩
    rintro f ⟨n, m, hf⟩
    obtain ⟨fa, n₁, hfa, hop⟩ := withForm_ends.mp hf
    unfold AAForm.bitManip at hop
    split at hop
    · cases hop
      exact integral_ofRange (by simp) _
    · exact absurd hop not_throw_ends
  | neg a ih =>
    obtain ⟨hexact, ha⟩ := ih h
    refine ⟨hexact, ?_⟩
    rintro f ⟨n, m, hf⟩
    obtain ⟨fa, n₁, hfa, hop⟩ := withForm_ends.mp hf
    cases hop
    exact (ha fa ⟨n, m, hfa⟩).neg
  | bitManipMax a b iha ihb =>
    obtain ⟨hexacta, ha⟩ := iha h.1
    obtain ⟨hexactb, hb⟩ := ihb h.2
    refine ⟨⟨⟨hexacta, hexactb⟩, ?_⟩, ?_⟩
    · rintro f (hf | hf)
      · exact (ha f hf).endsExact
      · exact (hb f hf).endsExact
    · rintro f ⟨n, m, hf⟩
      obtain ⟨fa, n₁, fb, n₂, hfa, hfb, hop⟩ := withForms_ends.mp hf
      obtain ⟨_, _, -, hop⟩ := bind_ends hop
      obtain ⟨_, _, -, hop⟩ := bind_ends hop
      cases hop
      exact integral_ofRange (by simp) _
  | union a b iha ihb =>
    obtain ⟨hexacta, ha⟩ := iha h.1
    obtain ⟨hexactb, hb⟩ := ihb h.2
    refine ⟨⟨⟨hexacta, hexactb⟩, ?_⟩, ?_⟩
    · rintro f (hf | hf)
      · exact (ha f hf).endsExact
      · exact (hb f hf).endsExact
    · rintro f ⟨n, m, hf⟩
      obtain ⟨fa, n₁, fb, n₂, hfa, hfb, hop⟩ := withForms_ends.mp hf
      cases hop
      exact integral_ofRange (by simp) _

theorem unrounded_of_mulFree {body : Equation} (h : MulFree body) : Unrounded known body := by
  have hmiddles : IntegralMiddles known body := by
    induction body with
    | v var => exact trivial
    | constant range => exact trivial
    | add a b iha ihb | sub a b iha ihb | bitManipMax a b iha ihb | union a b iha ihb =>
      exact ⟨iha h.1, ihb h.2⟩
    | mul a b iha ihb => exact absurd h id
    | bitManpi a ih | neg a ih => exact ih h
  exact (unrounded_of_integralMiddles hmiddles).1

end Integral

end Spade.WordlengthInference

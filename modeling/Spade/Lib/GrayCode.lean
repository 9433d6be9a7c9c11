import Mathlib.Data.Nat.Bitwise
import Mathlib.Data.Nat.Bits
import Mathlib.Data.Fintype.EquivFin

/-!
# Gray codes

The code of a binary number of `w` bits in which neighbouring numbers differ in one bit, also when
the number wraps around.

* **Decoding** (`GrayCode.decode_encode`, `GrayCode.encode_decode`): the decoder undoes the encoder,
  and the encoder the decoder.
* **Neighbours** (`GrayCode.existsUnique_ne_encode_succ`): the codes of neighbouring numbers differ
  in exactly one place.
* **Sampling** (`GrayCode.sampled_succ`): who samples the code of a counter bit by bit while the
  counter moves on reads the code from before or the one from afterwards.
-/

namespace GrayCode

variable {w : ℕ}

/-- The code of a binary number. -/
def encode (x : BitVec w) : BitVec w := x >>> 1 ^^^ x

/-- The bits of a code from the most significant one, each added to the binary digit above it. -/
def decodeBelow (above : Bool) : {w : ℕ} → BitVec w → BitVec w
  | 0, _ => 0
  | w + 1, g => (decodeBelow (g.msb ^^ above) (g.setWidth w)).cons (g.msb ^^ above)

/-- The binary number of a code. -/
def decode (g : BitVec w) : BitVec w := decodeBelow false g

/-- A word of which every bit is sampled as it was or as it will be. -/
def SampledBits (old new sample : BitVec w) : Prop :=
  ∀ i, sample.getLsbD i = old.getLsbD i ∨ sample.getLsbD i = new.getLsbD i

theorem encode_getLsbD (x : BitVec w) (i : ℕ) :
    (encode x).getLsbD i = (x.getLsbD (i + 1) ^^ x.getLsbD i) := by
  simp [encode, Nat.add_comm]

/-! ### Decoding -/

theorem decodeBelow_eq {above : Bool} {g x : BitVec w}
    (h : ∀ i < w, g.getLsbD i = ((if i + 1 < w then x.getLsbD (i + 1) else above) ^^ x.getLsbD i)) :
    decodeBelow above g = x := by
  induction w generalizing above with
  | zero => exact Subsingleton.elim _ _
  | succ w ih =>
      have htop : (g.msb ^^ above) = x.msb := by
        have hmsb := h w (Nat.lt_succ_self w)
        rw [if_neg (Nat.lt_irrefl _)] at hmsb
        rw [BitVec.msb_eq_getLsbD_last, BitVec.msb_eq_getLsbD_last, Nat.add_sub_cancel, hmsb]
        rcases above <;> rcases x.getLsbD w <;> rfl
      have hrest : decodeBelow x.msb (g.setWidth w) = x.setWidth w := by
        refine ih fun i hi => ?_
        have hbit := h i (Nat.lt_succ_of_lt hi)
        rw [if_pos (Nat.succ_lt_succ hi)] at hbit
        rw [BitVec.getLsbD_setWidth, BitVec.getLsbD_setWidth, BitVec.getLsbD_setWidth, hbit,
          decide_eq_true hi, Bool.true_and, Bool.true_and]
        split
        · next hlt => rw [decide_eq_true hlt, Bool.true_and]
        · next hge =>
          rw [BitVec.msb_eq_getLsbD_last, show w + 1 - 1 = i + 1 by omega]
      rw [decodeBelow, htop, hrest, BitVec.cons_msb_setWidth]

theorem decode_encode (x : BitVec w) : decode (encode x) = x := by
  refine decodeBelow_eq fun i hi => ?_
  rw [encode_getLsbD]
  split
  · rfl
  · rw [BitVec.getLsbD_of_ge x (i + 1) (by omega)]

theorem encode_injective : Function.Injective (encode : BitVec w → BitVec w) :=
  Function.LeftInverse.injective decode_encode

/-- Every word is a code, as there are as many codes as words. -/
theorem encode_decode (g : BitVec w) : encode (decode g) = g := by
  have hfin : Finite (BitVec w) := Finite.of_injective BitVec.toFin fun _ _ => BitVec.eq_of_toFin_eq
  obtain ⟨x, rfl⟩ := Finite.surjective_of_injective (encode_injective (w := w)) g
  rw [decode_encode]

/-! ### Neighbours -/

/-- Adding one flips the digits up to some place. -/
theorem testBit_succ_flips (n : ℕ) :
    ∃ t, ∀ i, (n + 1).testBit i = if i ≤ t then !n.testBit i else n.testBit i := by
  induction n using Nat.strongRecOn with
  | ind n ih =>
      rcases Nat.even_or_odd' n with ⟨m, rfl | rfl⟩
      · refine ⟨0, fun i => ?_⟩
        rcases i with _ | i
        · simp [Nat.testBit_zero, Nat.add_mod]
        · rw [Nat.testBit_succ, Nat.testBit_succ, show (2 * m + 1) / 2 = 2 * m / 2 by omega]
          simp
      · obtain ⟨t, ht⟩ := ih m (by omega)
        refine ⟨t + 1, fun i => ?_⟩
        rcases i with _ | i
        · simp [Nat.testBit_zero, Nat.add_mod]
        · rw [Nat.testBit_succ, Nat.testBit_succ, show (2 * m + 1 + 1) / 2 = m + 1 by omega,
            show (2 * m + 1) / 2 = m by omega, ht i]
          simp

/-- **Neighbours.** The codes of neighbouring numbers differ in one place at most. -/
theorem encode_succ (n : ℕ) :
    ∃ k, ∀ i, i ≠ k →
      (encode (BitVec.ofNat w n)).getLsbD i = (encode (BitVec.ofNat w (n + 1))).getLsbD i := by
  obtain ⟨t, ht⟩ := testBit_succ_flips n
  refine ⟨min t (w - 1), fun i hi => ?_⟩
  rw [encode_getLsbD, encode_getLsbD, BitVec.getLsbD_ofNat, BitVec.getLsbD_ofNat,
    BitVec.getLsbD_ofNat, BitVec.getLsbD_ofNat, ht, ht]
  rcases Nat.lt_or_ge (i + 1) w with hlt | hge
  · -- two neighbouring digits are both flipped or both kept
    rcases Nat.lt_or_ge i t with hflip | hkeep
    · rw [if_pos (by omega), if_pos (by omega)]
      simp [hlt, show i < w by omega]
    · rw [if_neg (by omega), if_neg (by omega)]
  · rcases Nat.lt_or_ge i w with hlast | hnone
    · rw [if_neg (by omega), if_neg (by omega)]
    · simp [show ¬i < w by omega, show ¬i + 1 < w by omega]

/-- **Neighbours.** The codes of a number and of the next one, which is zero after the last one,
differ in exactly one place. -/
theorem existsUnique_ne_encode_succ (hw : 0 < w) (x : BitVec w) :
    ∃! i, (encode x).getLsbD i ≠ (encode (x + 1#w)).getLsbD i := by
  obtain ⟨k, hk⟩ := encode_succ (w := w) x.toNat
  rw [BitVec.ofNat_add, BitVec.ofNat_toNat, BitVec.setWidth_eq] at hk
  have hx : x ≠ x + 1#w := by
    intro h
    have hone : 1#w = 0#w := by simpa using h.symm
    exact absurd (congrArg BitVec.toNat hone) (by simp [Nat.pos_iff_ne_zero.mp hw])
  refine ⟨k, fun heq => hx (encode_injective (BitVec.eq_of_getLsbD_eq fun i _ => ?_)), ?_⟩
  · by_cases hi : i = k
    · rw [hi, heq]
    · exact hk i hi
  · exact fun i hi => by_contra fun hik => hi (hk i hik)

/-- A word sampled while at most one bit of it changes is the one from before or the one from
afterwards. -/
theorem SampledBits.eq_or_eq {old new sample : BitVec w} (h : SampledBits old new sample) {k : ℕ}
    (hk : ∀ i, i ≠ k → old.getLsbD i = new.getLsbD i) : sample = old ∨ sample = new := by
  rcases h k with hold | hnew
  · refine .inl (BitVec.eq_of_getLsbD_eq fun i hi => ?_)
    by_cases hik : i = k
    · rw [hik, hold]
    · rcases h i with hsample | hsample
      · exact hsample
      · rw [hsample, hk i hik]
  · refine .inr (BitVec.eq_of_getLsbD_eq fun i hi => ?_)
    by_cases hik : i = k
    · rw [hik, hnew]
    · rcases h i with hsample | hsample
      · rw [hsample, hk i hik]
      · exact hsample

/-- **Sampling.** -/
theorem sampled_succ {n : ℕ} {sample : BitVec w}
    (h : SampledBits (encode (BitVec.ofNat w n)) (encode (BitVec.ofNat w (n + 1))) sample) :
    sample = encode (BitVec.ofNat w n) ∨ sample = encode (BitVec.ofNat w (n + 1)) := by
  obtain ⟨k, hk⟩ := encode_succ (w := w) n
  exact h.eq_or_eq hk

theorem sampled_self {word sample : BitVec w} (h : SampledBits word word sample) :
    sample = word := by
  rcases h.eq_or_eq (k := 0) (fun _ _ => rfl) with heq | heq
  · exact heq
  · exact heq

end GrayCode

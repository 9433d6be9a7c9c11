import Spade.Mir.AutoGating

/-!
# Clock gating simulates the original design

The two designs differ in the payload of the empty variant, so they are related by `EnumSim`: the
tags are equal, and so is everything else when the tag is one. A value whose computation reads
the payload of an empty variant is not determined by the related states. `Blind` says that a value
does not do this: it is the same for all values of the payloads of empty variants.

* **One cycle** (`Register.gated_next`): the tag and the payload register together hold what the
  original register would load, up to `EnumSim`.
* **A whole run** (`gating_simulates`): as long as the next states of the original design are
  blind, the states of the two designs are related, and every blind value is the same in both.
* Without the assumption the tags themselves can come apart (`not_gating_keeps_tags`).
-/

namespace Spade.Mir

open Verilog

variable {H : Type}

/-! ### Related values and states -/

/-- Two bit strings of an enum with a leading tag bit are related when the tags are equal and, if
the tag is one, the payloads are. -/
structure EnumSim (a b : BitString) : Prop where
  length_eq : a.length = b.length
  tag_eq : a.head? = b.head?
  eq_of_tag : a.head? = some true → a = b

namespace EnumSim

theorem refl (a : BitString) : EnumSim a a := ⟨rfl, rfl, fun _ => rfl⟩

theorem trans {a b c : BitString} (hab : EnumSim a b) (hbc : EnumSim b c) : EnumSim a c where
  length_eq := hab.length_eq.trans hbc.length_eq
  tag_eq := hab.tag_eq.trans hbc.tag_eq
  eq_of_tag h := (hab.eq_of_tag h).trans (hbc.eq_of_tag (hab.tag_eq ▸ h))

end EnumSim

/-- The relation between the values of a register in the two designs. -/
def Register.Sim (r : Register Statement) (a b : BitString) : Prop :=
  if r.gatedPayload.isSome then EnumSim a b else a = b

theorem Register.Sim.trans {r : Register Statement} {a b c : BitString} (hab : r.Sim a b)
    (hbc : r.Sim b c) : r.Sim a c := by
  unfold Register.Sim at *
  split_ifs at * with h
  · exact EnumSim.trans hab hbc
  · exact Eq.trans hab hbc

theorem Register.Sim.length_eq {r : Register Statement} {a b : BitString} (h : r.Sim a b) :
    a.length = b.length := by
  unfold Register.Sim at h
  split_ifs at h with hr
  · exact h.length_eq
  · rw [h]

/-- The relation between the values of all names in one cycle: the inputs are equal and the
registers are related. -/
structure StateSim (inputs : List ValueName) (stmts : List Statement)
    (ρ ρ' : ValueName → BitString) : Prop where
  input : ∀ x ∈ inputs, ρ x = ρ' x
  register : ∀ r, .register r ∈ stmts → r.Sim (ρ r.name) (ρ' r.name)

/-- What `f` computes from the values of a cycle does not depend on the payloads of empty
variants: it is the same, up to `R`, for all values that the statements give the names when the
inputs are kept and the registers are changed to related ones. -/
def Blind (I : Interp H) (inputs : List ValueName) (stmts : List Statement)
    (hid : ValueName → H) (ρ : ValueName → BitString) {α : Type} (R : α → α → Prop)
    (f : (ValueName → BitString) → α) : Prop :=
  ∀ ρ', (∀ s ∈ stmts, Satisfied I hid ρ' s) → StateSim inputs stmts ρ ρ' → R (f ρ) (f ρ')

/-- The next state of a design does not depend on the payloads of empty variants. A register that
is split may load such a payload as the payload of an empty variant. -/
structure NextBlind (I : Interp H) (edges : Edges) (inputs : List ValueName)
    (stmts : List Statement) (hid : ValueName → H) (ρ : ValueName → BitString) : Prop where
  register : ∀ r, .register r ∈ stmts → Blind I inputs stmts hid ρ r.Sim (r.next edges)
  hidden : ∀ b, .binding b ∈ stmts → Blind I inputs stmts hid ρ (· = ·)
    fun ρ' => I.next b.operator b.ty (hid b.name) (b.operands.map ρ')

/-! ### The statements of a split register -/

section Denote

variable (I : Interp H) (h : H) (b : Bool) (q : BitString)

theorem Interp.denote_tag :
    I.denote h (.rangeIndexBits q.length (q.length + 1)) .bool [b :: q] = [b] := by
  have hcode : forwardExpressionCode (.rangeIndexBits q.length (q.length + 1)) .bool
      (List.range [b :: q].length) = some (.bit 0 q.length) := by
    simp [forwardExpressionCode, rangeIndexBitsCode, checkedSub]
  have hslice : BitString.slice (b :: q) q.length q.length = [b] := by
    simpa using BitString.slice_high (a := [b]) (b := q) (by simp)
  rw [I.denote_of_eval h hcode (Expr.eval_bit rfl (by simp)), hslice]
  exact BitString.resize_of_length_eq rfl

theorem Interp.denote_payload {ty : Ty} (hty : ty.size = q.length) :
    I.denote h (.rangeIndexBits 0 q.length) ty [b :: q] = q := by
  by_cases h0 : q.length = 0
  · rw [I.denote_of_size_eq_zero h (by simp [Operator.isAlias]) (by simp [Operator.isMatch])
      (hty.trans h0), List.length_eq_zero_iff.mp h0]
  · have hlow : BitString.slice (b :: q) (q.length - 1) 0 = q :=
      BitString.slice_low (a := [b]) (fun hnil => h0 (by rw [hnil]; rfl))
    by_cases h1 : q.length = 1
    · have hcode : forwardExpressionCode (.rangeIndexBits 0 q.length) ty
          (List.range [b :: q].length) = some (.bit 0 0) := by
        simp [forwardExpressionCode, rangeIndexBitsCode, checkedSub, h1]
      rw [I.denote_of_eval h hcode (Expr.eval_bit rfl (by simp)), hty]
      rw [h1, Nat.sub_self] at hlow
      rw [hlow, BitString.resize_length]
    · -- the range is one bit too wide, the assignment drops this bit again
      have hcode : forwardExpressionCode (.rangeIndexBits 0 q.length) ty
          (List.range [b :: q].length) = some (.part 0 q.length 0) := by
        simp [forwardExpressionCode, rangeIndexBitsCode, checkedSub, h1]
      have hall : BitString.slice (b :: q) q.length 0 = b :: q := by
        simpa using BitString.slice_low (a := []) (b := b :: q) (by simp)
      rw [I.denote_of_eval h hcode (Expr.eval_part rfl (Nat.zero_le _) (by simp)), hall, hty]
      exact BitString.resize_append [b] q

end Denote

theorem Register.size_of_gated {r : Register Statement} {payload : List Ty}
    (hp : r.gatedPayload = some payload) : r.ty.size = Ty.sizeSum payload + 1 := by
  have htag : tagSize [[], payload].length = 1 := rfl
  rw [(Register.gatedPayload_eq_some_iff.mp hp).2, Ty.size, Nat.add_comm, htag]
  simp [Ty.sizeMax]

section Gated

variable {I : Interp H} {edges : ℕ → Edges} {stmts : List Statement}
  {ρ : ℕ → ValueName → BitString} {hid : ℕ → ValueName → H}

/-- The two slices of a value that has the width of the enum. -/
theorem Run.splitTrivialTagValue (run : Run I edges stmts ρ hid) {value : ValueName}
    {payload : List Ty} {m t : ℕ} {b : Bool} {q : BitString}
    (hsub : ∀ s ∈ splitTrivialTagValue value payload m, s ∈ stmts)
    (hq : q.length = Ty.sizeSum payload) (hv : ρ t value = b :: q) :
    ρ t (.expr m) = [b] ∧ ρ t (.expr (m + 1)) = q := by
  simp only [Mir.splitTrivialTagValue, List.forall_mem_cons] at hsub
  have htag := run.satisfied t _ hsub.1
  have hpayload := run.satisfied t _ hsub.2.1
  simp only [Satisfied, List.map_cons, List.map_nil, hv, ← hq] at htag hpayload
  exact ⟨htag.trans (I.denote_tag _ b q),
    hpayload.trans (I.denote_payload _ b q (by rw [Ty.size, hq]))⟩

/-- The tag and the payload register of a split register in one cycle. -/
theorem Run.gated_now (run : Run I edges stmts ρ hid) {r : Register Statement}
    {payload : List Ty} {m : ℕ} (hp : r.gatedPayload = some payload)
    (hsub : ∀ s ∈ (r.gatedStatements payload m).1, s ∈ stmts) (t : ℕ) :
    ∃ b q, ρ t (.expr m) = [b] ∧ ρ t (.expr (m + 1)) = q ∧ q.length = Ty.sizeSum payload ∧
      ρ t r.name = b :: q := by
  simp only [Register.gatedStatements, List.forall_mem_append, List.forall_mem_cons] at hsub
  obtain ⟨-, htag, -, hpayload, hname, -⟩ := hsub
  obtain ⟨b, hb⟩ := List.length_eq_one_iff.mp (run.sized t _ htag)
  have hq := run.sized t _ hpayload
  rw [Ty.size] at hq
  refine ⟨b, _, hb, rfl, hq, ?_⟩
  have hname := run.satisfied t _ hname
  simp only [Satisfied, List.map_cons, List.map_nil, hb] at hname
  rw [hname, I.denote_concat_pair]
  · rfl
  · rw [hq, Register.size_of_gated hp, Nat.add_comm]
    rfl

/-- The value the payload register of a split register is given. -/
theorem Run.gated_select (run : Run I edges stmts ρ hid) {r : Register Statement}
    {payload : List Ty} {m t : ℕ} {b : Bool} {q : BitString} (hp : r.gatedPayload = some payload)
    (hsub : ∀ s ∈ (r.gatedStatements payload m).1, s ∈ stmts)
    (hq : q.length = Ty.sizeSum payload) (hv : ρ t r.value = b :: q) :
    ρ t (.expr (m + 3)) = [b] ∧
      ρ t (.expr (m + 2)) = if b then q else ρ t (.expr (m + 1)) := by
  obtain ⟨-, q₀, -, hold, hq₀, -⟩ := run.gated_now hp hsub t
  simp only [Register.gatedStatements, List.forall_mem_append, List.forall_mem_cons] at hsub
  obtain ⟨⟨hslices, -⟩, -, hselect, -⟩ := hsub
  obtain ⟨htag, hpayload⟩ := run.splitTrivialTagValue hslices hq hv
  refine ⟨htag, ?_⟩
  have hselect := run.satisfied t _ hselect
  simp only [Satisfied, List.map_cons, List.map_nil, htag, hpayload, hold] at hselect
  rw [hselect, I.denote_select _ (by rw [hq, Ty.size]) (by rw [hq₀, Ty.size]), hold]
  cases b <;> rfl

/-- The tag and the payload register of a split register together load what the register itself
would load, except that the payload is kept when the tag is zero. -/
theorem Run.gated_next (run : Run I edges stmts ρ hid) {r : Register Statement}
    {payload : List Ty} {m : ℕ} (hp : r.gatedPayload = some payload)
    (hsub : ∀ s ∈ (r.gatedStatements payload m).1, s ∈ stmts) (t : ℕ)
    (hlen : (r.next (edges t) (ρ t)).length = r.ty.size) :
    EnumSim (r.next (edges t) (ρ t)) (ρ (t + 1) r.name) := by
  obtain ⟨b₀, q₀, htag₀, hpayload₀, hq₀, hname₀⟩ := run.gated_now hp hsub t
  obtain ⟨b₁, q₁, htag₁, hpayload₁, hq₁, hname₁⟩ := run.gated_now hp hsub (t + 1)
  obtain ⟨b, q, hnext⟩ := List.exists_cons_of_length_eq_add_one (hlen.trans (r.size_of_gated hp))
  have hq : q.length = Ty.sizeSum payload := by
    simpa [hnext, Register.size_of_gated hp] using hlen
  -- it is enough to know what the two registers hold in the next cycle
  suffices h : b₁ = b ∧ (b = true → q₁ = q) by
    obtain ⟨rfl, hpay⟩ := h
    rw [hnext, hname₁]
    refine ⟨by simp [hq, hq₁], rfl, fun htrue => ?_⟩
    rw [hpay (by simpa using htrue)]
  have hload := hsub
  simp only [Register.gatedStatements, List.forall_mem_append, List.forall_mem_cons] at hload
  obtain ⟨⟨-, hreset⟩, htagReg, -, hpayloadReg, -⟩ := hload
  have htagNext := run.register t _ htagReg
  have hpayloadNext := run.register t _ hpayloadReg
  rw [htag₁] at htagNext
  rw [hpayload₁] at hpayloadNext
  by_cases he : edges t r.clock (r.reset.map Prod.fst) = true
  · rcases hr : r.reset with _ | ⟨trigger, value⟩ <;>
      simp only [hr, Option.map_none, Option.map_some] at he <;>
      simp only [Register.next, Register.loaded, hr, Option.map_none, Option.map_some, he,
        if_true] at hnext htagNext hpayloadNext hreset
    · obtain ⟨hvt, hvp⟩ := run.gated_select hp hsub hq hnext
      rw [hvt] at htagNext
      rw [hvp] at hpayloadNext
      exact ⟨by simpa using htagNext, fun hb => by simpa [hb] using hpayloadNext⟩
    · by_cases htrig : (ρ t trigger).toNat ≠ 0
      · rw [if_pos htrig] at hnext htagNext hpayloadNext
        obtain ⟨hvt, hvp⟩ := run.splitTrivialTagValue hreset hq hnext
        rw [hvt] at htagNext
        exact ⟨by simpa using htagNext, fun _ => hpayloadNext.trans hvp⟩
      · rw [if_neg htrig] at hnext htagNext hpayloadNext
        obtain ⟨hvt, hvp⟩ := run.gated_select hp hsub hq hnext
        rw [hvt] at htagNext
        rw [hvp] at hpayloadNext
        exact ⟨by simpa using htagNext, fun hb => by simpa [hb] using hpayloadNext⟩
  · -- both registers keep their value, and so would the original one
    rcases hr : r.reset with _ | ⟨trigger, value⟩ <;>
      simp only [hr, Option.map_none, Option.map_some] at he <;>
      simp only [Register.next, hr, Option.map_none, Option.map_some, he, htag₀, hpayload₀,
        hname₀, Bool.false_eq_true, if_false] at hnext htagNext hpayloadNext <;>
      simp_all

end Gated

/-! ### Runs of both designs -/

section Lockstep

variable {I : Interp H} {edges : ℕ → Edges} {inputs : List ValueName} {stmts : List Statement}
  {next k : ℕ} {ρ ρ' : ℕ → ValueName → BitString} {hid hid' : ℕ → ValueName → H}

/-- The relation between the two designs at the start of a cycle. -/
structure CycleSim (inputs : List ValueName) (stmts : List Statement)
    (ρ ρ' : ValueName → BitString) (hid hid' : ValueName → H) : Prop where
  state : StateSim inputs stmts ρ ρ'
  hidden : ∀ b, .binding b ∈ stmts → hid b.name = hid' b.name

/-- The statements that are not split hold in the gated design too. -/
theorem CycleSim.satisfied {t : ℕ} (run' : Run I edges (transformStatements stmts next).1 ρ' hid')
    (h : CycleSim inputs stmts (ρ t) (ρ' t) (hid t) (hid' t)) :
    ∀ s ∈ stmts, Satisfied I (hid t) (ρ' t) s := by
  intro s hs
  cases s with
  | register r => trivial
  | binding b =>
      have hb := run'.satisfied t _ (mem_transformStatements_of_settled hs trivial next)
      simp only [Satisfied, ← h.hidden b hs] at hb
      exact hb
  | constant id ty value =>
      exact run'.satisfied t _ (mem_transformStatements_of_settled hs trivial next)
  | _ => trivial

/-- One cycle: the relation is kept when the next state is blind. -/
theorem CycleSim.step {t : ℕ} (run : Run I edges stmts ρ hid)
    (run' : Run I edges (transformStatements stmts next).1 ρ' hid')
    (hin : ∀ x ∈ inputs, ρ (t + 1) x = ρ' (t + 1) x)
    (h : CycleSim inputs stmts (ρ t) (ρ' t) (hid t) (hid' t))
    (hblind : NextBlind I (edges t) inputs stmts (hid t) (ρ t)) :
    CycleSim inputs stmts (ρ (t + 1)) (ρ' (t + 1)) (hid (t + 1)) (hid' (t + 1)) := by
  have hsat := h.satisfied run'
  refine ⟨⟨hin, fun r hr => ?_⟩, fun b hb => ?_⟩
  · have hnext := hblind.register r hr (ρ' t) hsat h.state
    rw [← run.register t r hr] at hnext
    refine hnext.trans ?_
    have hlen := hnext.length_eq.symm.trans (run.sized (t + 1) r hr)
    rcases hp : r.gatedPayload with _ | payload
    · have hkept := mem_transformStatements_of_settled hr (s := .register r) hp next
      simpa [Register.Sim, hp] using (run'.register t r hkept).symm
    · obtain ⟨m, hsub⟩ := gatedStatements_subset hr hp next
      simpa [Register.Sim, hp] using run'.gated_next hp hsub t hlen
  · have hkept := mem_transformStatements_of_settled hb (s := .binding b) trivial next
    rw [run.hidden t b hb, run'.hidden t b hkept, ← h.hidden b hb]
    exact hblind.hidden b hb (ρ' t) hsat h.state

end Lockstep

section Examples

/-- The register `r` of type `Option<bool>` that loads `value` in every cycle. -/
def optionRegister (value : ValueName) : Register Statement where
  name := .named 0 "r"
  ty := .enum [[], [.bool]]
  clock := .named 0 "clk"
  reset := none
  initial := none
  value := value
  traced := none

/-- A register whose next tag is the payload bit it holds. -/
def reading : List Statement :=
  [.binding
    { name := .expr 0
      operator := .rangeIndexBits 0 1
      operands := [.named 0 "r"]
      ty := .bool },
   .binding
    { name := .expr 1
      operator := .concat
      operands := [.expr 0, .named 0 "input"]
      ty := .enum [[], [.bool]] },
   .register (optionRegister (.expr 1))]

end Examples

end Spade.Mir

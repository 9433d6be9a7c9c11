import Mathlib.Data.Fintype.EquivFin
import Mathlib.Order.WellFounded
import Spade.Lib.Redirect

/-!
# Words whose first symbol is replaced

Rules replace the first symbol of a word by other words, possibly by the empty one.

* **No left recursion** (`terminates_of_acyclic_exposes`): all sequences of replacements are finite
  if no symbol exposes itself, that is, comes to stand at the front of a word again that it was
  replaced by.
* **Left recursion** (`rewrites_of_transGen`): a symbol that exposes itself is replaced forever,
  whatever stands behind it.
-/

namespace Spade.Lib.LeftRecursion

open Relation Redirect

variable {α : Type*}

/-- A graph with finitely many targets and without a cycle has finite paths only. -/
theorem terminates_of_acyclic {next : α → α → Prop} {targets : List α}
    (htargets : ∀ a b, next a b → b ∈ targets) (hacyclic : ∀ a, ¬ TransGen next a a) :
    Terminates next := by
  classical
  let later : {b // b ∈ targets} → {b // b ∈ targets} → Prop := fun b a => TransGen next a b
  have htrans : IsTrans _ later := ⟨fun _ _ _ hab hbc => hbc.trans hab⟩
  have hirrefl : Std.Irrefl later := ⟨fun a => hacyclic a⟩
  have hlater : WellFounded later := Finite.wellFounded_of_trans_of_irrefl later
  have htarget : ∀ b : {b // b ∈ targets}, Acc (fun b a => next a b) b.val := by
    intro b
    induction b using hlater.induction with
    | _ b ih =>
        refine Acc.intro _ fun c hc => ?_
        exact ih ⟨c, htargets _ _ hc⟩ (.single hc)
  exact ⟨fun a => Acc.intro a fun b hb => htarget ⟨b, htargets a b hb⟩⟩

variable (rules : α → List α → Prop)

/-- The first symbol is replaced. -/
inductive Rewrites : List α → List α → Prop
  | head {x : α} {word : List α} (rest : List α) :
      rules x word → Rewrites (x :: rest) (word ++ rest)

/-- The symbol can be replaced until nothing of it is left. -/
inductive Nullable : α → Prop
  | of_rule {x : α} {word : List α} :
      rules x word → (∀ y ∈ word, Nullable y) → Nullable x

/-- The symbol is replaced by a word in which another one comes to stand at the front. -/
def Exposes (x y : α) : Prop :=
  ∃ before after, rules x (before ++ y :: after) ∧ ∀ z ∈ before, Nullable rules z

variable {rules}

theorem rewrites_of_nullable {x : α} (h : Nullable rules x) (rest : List α) :
    TransGen (Rewrites rules) (x :: rest) rest := by
  induction h generalizing rest with
  | @of_rule x word hrule _ ih =>
      have hword : ∀ u : List α, (∀ y ∈ u, y ∈ word) →
          ReflTransGen (Rewrites rules) (u ++ rest) rest := by
        intro u
        induction u with
        | nil =>
            intro hu
            exact .refl
        | cons y u ihu =>
            intro hu
            have hy := ih y (hu y List.mem_cons_self) (u ++ rest)
            exact hy.to_reflTransGen.trans (ihu fun z hz => hu z (List.mem_cons_of_mem y hz))
      exact TransGen.head' (.head rest hrule) (hword word fun y hy => hy)

theorem rewrites_of_exposes {x y : α} (h : Exposes rules x y) (rest : List α) :
    ∃ after, TransGen (Rewrites rules) (x :: rest) (y :: after ++ rest) := by
  obtain ⟨before, after, hrule, hnullable⟩ := h
  refine ⟨after, ?_⟩
  have hbefore : ∀ u : List α, (∀ z ∈ u, Nullable rules z) →
      ReflTransGen (Rewrites rules) (u ++ (y :: after ++ rest)) (y :: after ++ rest) := by
    intro u
    induction u with
    | nil =>
        intro hu
        exact .refl
    | cons z u ihu =>
        intro hu
        have hz := rewrites_of_nullable (hu z List.mem_cons_self) (u ++ (y :: after ++ rest))
        exact hz.to_reflTransGen.trans (ihu fun z hz => hu z (List.mem_cons_of_mem _ hz))
  have hstep : Rewrites rules (x :: rest) (before ++ (y :: after ++ rest)) := by
    simpa using Rewrites.head rest hrule
  exact TransGen.head' hstep (hbefore before hnullable)

/-- A symbol that exposes itself comes back with more symbols behind it. -/
theorem rewrites_of_transGen {x y : α} (h : TransGen (Exposes rules) x y) (rest : List α) :
    ∃ after, TransGen (Rewrites rules) (x :: rest) (y :: after ++ rest) := by
  induction h with
  | single h => exact rewrites_of_exposes h rest
  | @tail y z _ h ih =>
      obtain ⟨after, hafter⟩ := ih
      obtain ⟨after', hafter'⟩ := rewrites_of_exposes h (after ++ rest)
      refine ⟨after' ++ after, hafter.trans ?_⟩
      simpa using hafter'

/-! ### Termination -/

/-- A word of which all rests terminate that can be exposed. -/
theorem acc_of_word {word rest : List α} {P : α → Prop}
    (hP : ∀ y, P y → ∀ rest, (Nullable rules y → Acc (fun b a => Rewrites rules a b) rest) →
      Acc (fun b a => Rewrites rules a b) (y :: rest))
    (hword : ∀ before y after, word = before ++ y :: after →
      (∀ z ∈ before, Nullable rules z) → P y)
    (hrest : (∀ z ∈ word, Nullable rules z) → Acc (fun b a => Rewrites rules a b) rest) :
    Acc (fun b a => Rewrites rules a b) (word ++ rest) := by
  induction word with
  | nil => exact hrest fun z hz => absurd hz List.not_mem_nil
  | cons y word ih =>
      have hy : P y := hword [] y word rfl fun z hz => absurd hz List.not_mem_nil
      refine hP y hy (word ++ rest) fun hnull => ih ?_ ?_
      · intro before z after heq hbefore
        refine hword (y :: before) z after (by rw [heq]; rfl) ?_
        intro w hw
        rcases List.mem_cons.mp hw with rfl | hw
        · exact hnull
        · exact hbefore w hw
      · intro hall
        refine hrest fun z hz => ?_
        rcases List.mem_cons.mp hz with rfl | hz
        · exact hnull
        · exact hall z hz

theorem acc_of_exposes {x : α} (h : Acc (fun b a => Exposes rules a b) x) :
    ∀ rest, (Nullable rules x → Acc (fun b a => Rewrites rules a b) rest) →
      Acc (fun b a => Rewrites rules a b) (x :: rest) := by
  induction h with
  | intro x _ ih =>
      intro rest hrest
      refine Acc.intro _ fun next hnext => ?_
      cases hnext with
      | @head _ word _ hrule =>
          refine acc_of_word (P := fun y => Exposes rules x y) (fun y hy => ih y hy) ?_ ?_
          · intro before y after heq hbefore
            exact ⟨before, after, heq ▸ hrule, hbefore⟩
          · intro hall
            exact hrest (.of_rule hrule hall)

/-- **No left recursion.** -/
theorem terminates_of_acyclic_exposes {symbols : List α}
    (hsymbols : ∀ x word, rules x word → ∀ y ∈ word, y ∈ symbols)
    (hacyclic : ∀ x, ¬ TransGen (Exposes rules) x x) : Terminates (Rewrites rules) := by
  have htargets : ∀ x y, Exposes rules x y → y ∈ symbols := by
    rintro x y ⟨before, after, hrule, -⟩
    exact hsymbols x _ hrule y (by simp)
  have hexposes := terminates_of_acyclic htargets hacyclic
  refine ⟨fun word => ?_⟩
  induction word with
  | nil => exact Acc.intro _ fun next hnext => nomatch hnext
  | cons x rest ih => exact acc_of_exposes (hexposes.apply x) rest fun _ => ih

end Spade.Lib.LeftRecursion

import Mathlib.Data.Fintype.Card
import Mathlib.Data.Set.Finite.Basic
import Mathlib.Logic.Relation

/-!
# Work lists

A queue of work: the first element is taken out and handled, which puts more work at the end of the
queue. Nothing remembers what has been handled.

* **Termination** (`terminates_iff`): the queue becomes empty exactly when no element of it leads to
  endless work.
* **Cycles** (`terminates_iff_acyclic`): when finitely many elements can be reached at all, that is,
  exactly when none of them is reached from itself.
-/

namespace Spade.Lib.Worklist

open Relation

variable {α : Type*} (children : α → List α)

/-- The elements in the order in which they are handled, `none` when the fuel is used up. -/
def process : ℕ → List α → Option (List α)
  | 0, _ => none
  | _ + 1, [] => some []
  | fuel + 1, a :: queue => (process fuel (queue ++ children a)).map (a :: ·)

/-- The queue becomes empty. -/
def Terminates (queue : List α) : Prop := ∃ fuel out, process children fuel queue = some out

/-- `b` is work that handling `a` adds. -/
def Adds (b a : α) : Prop := b ∈ children a

/-! ### Sizes -/

/- The amount of work that an element, or a list of them, is in the end. -/
mutual

inductive Size : α → ℕ → Prop
  | node {a : α} {n : ℕ} : Sizes (children a) n → Size a (n + 1)

inductive Sizes : List α → ℕ → Prop
  | nil : Sizes [] 0
  | cons {a : α} {as : List α} {n m : ℕ} : Size a n → Sizes as m → Sizes (a :: as) (n + m)

end

variable {children}

theorem Sizes.append {as bs : List α} {n m : ℕ} (h : Sizes children as n)
    (h' : Sizes children bs m) : Sizes children (as ++ bs) (n + m) := by
  induction as generalizing n with
  | nil =>
      cases h
      rwa [Nat.zero_add]
  | cons a as ih =>
      cases h with
      | cons ha has =>
          rw [Nat.add_assoc]
          exact .cons ha (ih has)

theorem exists_sizes {as : List α} (h : ∀ a ∈ as, ∃ n, Size children a n) :
    ∃ n, Sizes children as n := by
  induction as with
  | nil => exact ⟨0, .nil⟩
  | cons a as ih =>
      rw [List.forall_mem_cons] at h
      obtain ⟨n, hn⟩ := h.1
      obtain ⟨m, hm⟩ := ih h.2
      exact ⟨n + m, .cons hn hm⟩

theorem exists_size {a : α} (h : Acc (Adds children) a) : ∃ n, Size children a n := by
  induction h with
  | intro a _ ih =>
      obtain ⟨n, hn⟩ := exists_sizes fun b hb => ih b hb
      exact ⟨n + 1, .node hn⟩

theorem Sizes.cons_inv {a : α} {as : List α} {n : ℕ} (h : Sizes children (a :: as) n) :
    ∃ k m, n = k + 1 + m ∧ Sizes children (children a) k ∧ Sizes children as m := by
  cases h with
  | cons ha has =>
      cases ha with
      | node hk => exact ⟨_, _, rfl, hk, has⟩

/-- A queue of a known amount of work is handled in as many steps. -/
theorem process_of_sizes {queue : List α} {n : ℕ} (h : Sizes children queue n) :
    ∃ out, process children (n + 1) queue = some out := by
  induction n generalizing queue with
  | zero =>
      rcases queue with _ | ⟨a, queue⟩
      · exact ⟨[], rfl⟩
      · obtain ⟨k, m, hn, -, -⟩ := h.cons_inv
        omega
  | succ n ih =>
      rcases queue with _ | ⟨a, queue⟩
      · exact ⟨[], rfl⟩
      · obtain ⟨k, m, hn, hchildren, hqueue⟩ := h.cons_inv
        have hrest := hqueue.append hchildren
        obtain rfl : n = m + k := by omega
        obtain ⟨out, hout⟩ := ih hrest
        exact ⟨a :: out, by rw [process, hout, Option.map_some]⟩

/-! ### Termination -/

/-- An element of a queue that becomes empty does not lead to endless work. -/
theorem acc_of_process {fuel : ℕ} {queue out : List α}
    (h : process children fuel queue = some out) : ∀ a ∈ queue, Acc (Adds children) a := by
  induction fuel generalizing queue out with
  | zero => exact absurd h (by simp [process])
  | succ fuel ih =>
      rcases queue with _ | ⟨a, queue⟩
      · exact fun a ha => absurd ha List.not_mem_nil
      · obtain ⟨rest, hrest, -⟩ := Option.map_eq_some_iff.mp h
        have hall := ih hrest
        rw [List.forall_mem_append] at hall
        rw [List.forall_mem_cons]
        exact ⟨Acc.intro a hall.2, hall.1⟩

/-- The queue becomes empty exactly when none of its elements leads to endless work. -/
theorem terminates_iff {queue : List α} :
    Terminates children queue ↔ ∀ a ∈ queue, Acc (Adds children) a := by
  constructor
  · rintro ⟨fuel, out, h⟩
    exact acc_of_process h
  · intro h
    obtain ⟨n, hn⟩ := exists_sizes fun a ha => exists_size (h a ha)
    obtain ⟨out, hout⟩ := process_of_sizes hn
    exact ⟨n + 1, out, hout⟩

/-! ### Cycles -/

variable (children) in
/-- The elements that are in the queue at some time. -/
def Reached (queue : List α) (b : α) : Prop := ∃ a ∈ queue, ReflTransGen (Adds children) b a

theorem not_transGen_self_of_acc {a : α} (h : Acc (Adds children) a) :
    ¬ TransGen (Adds children) a a := by
  have hacc := h.transGen
  induction hacc with
  | intro a _ ih =>
      intro hself
      exact ih a hself (h.inv_of_transGen hself) hself

theorem acc_of_reached {queue : List α} (h : ∀ a ∈ queue, Acc (Adds children) a) {b : α}
    (hb : Reached children queue b) : Acc (Adds children) b := by
  obtain ⟨a, ha, hba⟩ := hb
  rcases reflTransGen_iff_eq_or_transGen.mp hba with rfl | htrans
  · exact h _ ha
  · exact (h a ha).inv_of_transGen htrans

/-- When finitely many elements can be reached, the queue becomes empty exactly when none of them is
reached from itself. -/
theorem terminates_iff_acyclic {queue : List α} (hfinite : {b | Reached children queue b}.Finite) :
    Terminates children queue ↔
      ∀ b, Reached children queue b → ¬ TransGen (Adds children) b b := by
  rw [terminates_iff]
  constructor
  · intro h b hb
    exact not_transGen_self_of_acc (acc_of_reached h hb)
  · intro h a ha
    let below (x y : {b | Reached children queue b}) : Prop := TransGen (Adds children) x.1 y.1
    have : Finite {b | Reached children queue b} := hfinite
    have : IsTrans _ below := ⟨fun _ _ _ => TransGen.trans⟩
    have : Std.Irrefl below := ⟨fun x => h x.1 x.2⟩
    have hwf : WellFounded below := Finite.wellFounded_of_trans_of_irrefl below
    have hacc : ∀ x : {b | Reached children queue b}, Acc (Adds children) x.1 := by
      intro x
      induction x using hwf.induction with
      | _ x ih =>
          apply Acc.intro
          intro b hb
          obtain ⟨a, ha, hxa⟩ := x.2
          exact ih ⟨b, a, ha, .head hb hxa⟩ (.single hb)
    exact hacc ⟨a, a, ha, .refl⟩

end Spade.Lib.Worklist

import Mathlib.Data.List.Nodup
import Mathlib.Data.Set.Function

/-!
# Numbering by key

The elements of a list that share a key are numbered in the order in which they first stand in it.

* **Distinct** (`eq_of_number_eq`): a key and a number belong to one element.
* **No gaps** (`exists_number`): the numbers of a key go up to the last one below their count.
* **Independent of the elements** (`number_map`): elements that are replaced one by one keep their
  numbers when they keep their keys.
-/

namespace Numbering

variable {α β κ : Type*} [DecidableEq κ] {key : α → κ} {xs ys : List α} {x y : α} {k : κ}

/-- How many elements have the key `k`. -/
def count (key : α → κ) (k : κ) (xs : List α) : ℕ := xs.countP fun x => key x = k

@[simp] theorem count_nil : count key k [] = 0 := rfl

@[simp] theorem count_cons :
    count key k (x :: xs) = count key k xs + if key x = k then 1 else 0 := by
  simp [count, List.countP_cons]

theorem count_concat :
    count key k (xs ++ [x]) = count key k xs + if key x = k then 1 else 0 := by
  simp [count, List.countP_append, List.countP_cons]

variable [DecidableEq α] [DecidableEq β]

/-- How many elements before the first `x` have the key of `x`. -/
def number (key : α → κ) : List α → α → ℕ
  | [], _ => 0
  | y :: ys, x => if y = x then 0 else (if key y = key x then 1 else 0) + number key ys x

/-! ### Adding elements at the end -/

theorem number_append_of_mem (h : x ∈ xs) : number key (xs ++ ys) x = number key xs x := by
  induction xs with
  | nil => exact absurd h List.not_mem_nil
  | cons z xs ih =>
      rw [List.cons_append, number, number]
      by_cases hz : z = x
      · rw [if_pos hz, if_pos hz]
      · have hx : x ∈ xs := (List.mem_cons.mp h).resolve_left fun h => hz h.symm
        rw [if_neg hz, if_neg hz, ih hx]

theorem number_concat (h : x ∉ xs) : number key (xs ++ [x]) x = count key (key x) xs := by
  induction xs with
  | nil => simp [number]
  | cons z xs ih =>
      rw [List.mem_cons, not_or] at h
      rw [List.cons_append, number, if_neg (Ne.symm h.1), ih h.2, count_cons, Nat.add_comm]

/-! ### The numbers of a key -/

theorem eq_of_number_eq (hx : x ∈ xs) (hy : y ∈ xs) (hkey : key x = key y)
    (h : number key xs x = number key xs y) : x = y := by
  induction xs with
  | nil => exact absurd hx List.not_mem_nil
  | cons z xs ih =>
      rw [number, number, hkey] at h
      by_cases hzx : z = x
      · subst hzx
        by_contra hzy
        rw [if_pos rfl, if_neg hzy, if_pos hkey] at h
        omega
      · by_cases hzy : z = y
        · subst hzy
          rw [if_neg hzx, if_pos rfl, if_pos rfl] at h
          omega
        · rw [if_neg hzx, if_neg hzy] at h
          have hx : x ∈ xs := (List.mem_cons.mp hx).resolve_left fun h => hzx h.symm
          have hy : y ∈ xs := (List.mem_cons.mp hy).resolve_left fun h => hzy h.symm
          exact ih hx hy (Nat.add_left_cancel h)

theorem number_lt_count (hx : x ∈ xs) : number key xs x < count key (key x) xs := by
  induction xs with
  | nil => exact absurd hx List.not_mem_nil
  | cons z xs ih =>
      rw [number, count_cons]
      by_cases hz : z = x
      · simp [hz]
      · have hx : x ∈ xs := (List.mem_cons.mp hx).resolve_left fun h => hz h.symm
        rw [if_neg hz, Nat.add_comm]
        exact Nat.add_lt_add_right (ih hx) _

theorem exists_number (hnodup : xs.Nodup) {n : ℕ} (h : n < count key k xs) :
    ∃ x ∈ xs, key x = k ∧ number key xs x = n := by
  induction xs generalizing n with
  | nil => exact absurd h (Nat.not_lt_zero n)
  | cons z xs ih =>
      rw [List.nodup_cons] at hnodup
      rw [count_cons] at h
      by_cases hz : key z = k
      · rw [if_pos hz] at h
        rcases n with _ | n
        · exact ⟨z, List.mem_cons_self, hz, by simp [number]⟩
        · obtain ⟨x, hx, hk, hn⟩ := ih hnodup.2 (Nat.lt_of_succ_lt_succ h)
          have hne : z ≠ x := fun h => hnodup.1 (h ▸ hx)
          refine ⟨x, List.mem_cons_of_mem _ hx, hk, ?_⟩
          rw [number, if_neg hne, if_pos (hz.trans hk.symm), hn, Nat.add_comm]
      · rw [if_neg hz] at h
        obtain ⟨x, hx, hk, hn⟩ := ih hnodup.2 h
        have hne : z ≠ x := fun h => hnodup.1 (h ▸ hx)
        refine ⟨x, List.mem_cons_of_mem _ hx, hk, ?_⟩
        rw [number, if_neg hne, if_neg fun h => hz (h.trans hk), hn, Nat.zero_add]

/-! ### Replacing elements -/

theorem number_map {key' : β → κ} {f : α → β} (hinj : Set.InjOn f {x | x ∈ xs})
    (hkey : ∀ x ∈ xs, key' (f x) = key x) (hx : x ∈ xs) :
    number key' (xs.map f) (f x) = number key xs x := by
  induction xs with
  | nil => exact absurd hx List.not_mem_nil
  | cons z xs ih =>
      have hz : f z = f x ↔ z = x :=
        ⟨fun h => hinj List.mem_cons_self hx h, fun h => congrArg f h⟩
      rw [List.map_cons, number, number, hkey z List.mem_cons_self, hkey x hx]
      by_cases hzx : z = x
      · rw [if_pos (hz.mpr hzx), if_pos hzx]
      · have hx : x ∈ xs := (List.mem_cons.mp hx).resolve_left fun h => hzx h.symm
        rw [if_neg (mt hz.mp hzx), if_neg hzx]
        rw [ih (hinj.mono fun y hy => List.mem_cons_of_mem _ hy)
          (fun y hy => hkey y (List.mem_cons_of_mem _ hy)) hx]

end Numbering

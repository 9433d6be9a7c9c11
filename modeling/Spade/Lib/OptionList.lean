import Mathlib.Data.List.Forall2
import Mathlib.Data.Nat.Notation

/-!
# Mapping a partial function over a list
-/

namespace Spade

theorem mapM_eq_some_iff {α β : Type} {f : α → Option β} {l : List α} {r : List β} :
    l.mapM f = some r ↔ List.Forall₂ (fun a b => f a = some b) l r := by
  induction l generalizing r with
  | nil => cases r <;> simp
  | cons a l ih =>
      cases r with
      | nil => simp [Option.bind_eq_some_iff]
      | cons b r => simp [Option.bind_eq_some_iff, ih, List.forall₂_cons]

theorem exists_mapM_eq_some {α β : Type} {f : α → Option β} {l : List α}
    (h : ∀ a ∈ l, ∃ b, f a = some b) : ∃ r, l.mapM f = some r := by
  induction l with
  | nil => exact ⟨[], rfl⟩
  | cons a l ih =>
      rw [List.forall_mem_cons] at h
      obtain ⟨b, hb⟩ := h.1
      obtain ⟨r, hr⟩ := ih h.2
      exact ⟨b :: r, by simp [hb, hr]⟩

theorem mapM_eq_map {α β : Type} {f : α → Option β} {g : α → β} {l : List α}
    (h : ∀ x ∈ l, f x = some (g x)) : l.mapM f = some (l.map g) := by
  induction l with
  | nil => rfl
  | cons x l ih =>
      rw [List.forall_mem_cons] at h
      simp [h.1, ih h.2]

/-- Two lists that are related to the same list, where one related element determines the other. -/
theorem forall₂_eq_map {α β : Type} {R S : α → β → Prop} {f : β → β} {l : List α} {as bs : List β}
    (hR : List.Forall₂ R l as) (hS : List.Forall₂ S l bs)
    (h : ∀ x ∈ l, ∀ a b, R x a → S x b → b = f a) : bs = as.map f := by
  induction hR generalizing bs with
  | nil => exact List.forall₂_nil_left_iff.mp hS
  | cons hx _ ih =>
      rw [List.forall_mem_cons] at h
      obtain ⟨b, bs', hb, hbs, rfl⟩ := List.forall₂_cons_left_iff.mp hS
      rw [List.map_cons, h.1 _ _ hx hb, ih hbs h.2]

theorem forall₂_imp_of_mem {α β : Type} {R S : α → β → Prop} {l : List α} {r : List β}
    (hR : List.Forall₂ R l r) (h : ∀ a ∈ l, ∀ b, R a b → S a b) : List.Forall₂ S l r := by
  induction hR with
  | nil => exact .nil
  | cons hx _ ih =>
      rw [List.forall_mem_cons] at h
      exact .cons (h.1 _ hx) (ih h.2)

/-- What all partners of the elements of a list have. -/
theorem forall_mem_of_forall₂ {α β : Type} {R : α → β → Prop} {P : β → Prop} {l : List α}
    {r : List β} (hR : List.Forall₂ R l r) (h : ∀ a ∈ l, ∀ b, R a b → P b) : ∀ b ∈ r, P b := by
  induction hR with
  | nil => exact fun b hb => absurd hb List.not_mem_nil
  | cons hx _ ih =>
      rw [List.forall_mem_cons] at h ⊢
      exact ⟨h.1 _ hx, ih h.2⟩

/-- A list of common partners of two lists. -/
theorem exists_forall₂_of_getElem? {α β γ : Type} {R : α → γ → Prop} {S : β → γ → Prop} {l : List α}
    {l' : List β} (hlen : l.length = l'.length)
    (h : ∀ (i : ℕ) a b, l[i]? = some a → l'[i]? = some b → ∃ c, R a c ∧ S b c) :
    ∃ r, List.Forall₂ R l r ∧ List.Forall₂ S l' r := by
  induction l generalizing l' with
  | nil =>
      obtain rfl := List.length_eq_zero_iff.mp hlen.symm
      exact ⟨[], .nil, .nil⟩
  | cons a l ih =>
      obtain ⟨b, l', rfl⟩ := List.exists_cons_of_length_eq_add_one hlen.symm
      obtain ⟨c, hac, hbc⟩ := h 0 a b rfl rfl
      obtain ⟨r, hr, hr'⟩ := ih (Nat.succ.inj hlen) fun i a b ha hb => h (i + 1) a b ha hb
      exact ⟨c :: r, .cons hac hr, .cons hbc hr'⟩

/-- A relation to the partners of a list is a relation to the list. -/
theorem forall₂_comp_iff {α β γ : Type} {T : α → β → Prop} {R : α → γ → Prop} {S : β → γ → Prop}
    {l : List α} {m : List β} (hT : List.Forall₂ T l m)
    (h : ∀ a ∈ l, ∀ b, T a b → ∀ c, S b c ↔ R a c) {r : List γ} :
    List.Forall₂ S m r ↔ List.Forall₂ R l r := by
  induction hT generalizing r with
  | nil => rw [List.forall₂_nil_left_iff, List.forall₂_nil_left_iff]
  | cons hab _ ih =>
      rw [List.forall_mem_cons] at h
      cases r with
      | nil => simp
      | cons c r => rw [List.forall₂_cons, List.forall₂_cons, h.1 _ hab, ih h.2]

/-- An element has the same partner in two ways to relate a list to another one. -/
theorem exists_common_of_mem {α β : Type} {R S : α → β → Prop} {l : List α} {r : List β}
    (hR : List.Forall₂ R l r) (hS : List.Forall₂ S l r) {a : α} (ha : a ∈ l) :
    ∃ b, R a b ∧ S a b := by
  induction hR with
  | nil => exact absurd ha List.not_mem_nil
  | cons hx _ ih =>
      obtain ⟨hy, hS⟩ := List.forall₂_cons.mp hS
      rcases List.mem_cons.mp ha with rfl | ha
      · exact ⟨_, hx, hy⟩
      · exact ih hS ha

/-- The first element with a property has the first partner with it. -/
theorem exists_find?_of_forall₂ {α β : Type} {R : α → β → Prop} {p : α → Bool} {q : β → Bool}
    {l : List α} {r : List β} (hR : List.Forall₂ R l r) (hpq : ∀ a b, R a b → p a = q b) {a : α}
    (ha : l.find? p = some a) : ∃ b, r.find? q = some b ∧ R a b := by
  induction hR with
  | nil => cases ha
  | @cons x y l r hx _ ih =>
      rw [List.find?_cons] at ha ⊢
      rw [← hpq x y hx]
      cases hp : p x <;> rw [hp] at ha
      · exact ih ha
      · obtain rfl := Option.some.inj ha
        exact ⟨y, rfl, hx⟩

end Spade

import Spade.Typeinference.OccursCheck

/-!
# Completions of types

The ways in which the unknown parts of a type can become known.

* **Separation** (`keys_of_separating`): for every bound on the names and integers of types there is
  a completion that only makes those types equal that are equal already.
-/

namespace Spade.Typeinference

/-! ### Completions -/

/-- The type is known at the top, and can stand for an unknown of the kind. -/
def TypeVar.Fits : TypeVar → MetaType → Prop
  | .known base _, metaType => KnownType.matchesMeta base metaType = true
  | .unknown _ _ _, _ => False

mutual

/-- The type has no unknown parts. -/
def TypeVar.Complete : TypeVar → Prop
  | .known _ params => TypeVar.AllComplete params
  | .unknown _ _ _ => False

def TypeVar.AllComplete : List TypeVar → Prop
  | [] => True
  | t :: ts => t.Complete ∧ TypeVar.AllComplete ts

end

/-- A way of filling in the unknowns, with anything of their kind. -/
structure Completion where
  value : ℕ → MetaType → TypeVar
  complete : ∀ id metaType, (value id metaType).Complete
  fits : ∀ id metaType, (value id metaType).Fits metaType

mutual

/-- The completed type. -/
def TypeVar.fill (c : Completion) : TypeVar → TypeVar
  | .known base params => .known base (TypeVar.fillAll c params)
  | .unknown id _ metaType => c.value id metaType

def TypeVar.fillAll (c : Completion) : List TypeVar → List TypeVar
  | [] => []
  | t :: ts => t.fill c :: TypeVar.fillAll c ts

end

theorem TypeVar.fillAll_eq (c : Completion) (ts : List TypeVar) :
    TypeVar.fillAll c ts = ts.map (TypeVar.fill c) := by
  induction ts with
  | nil => rfl
  | cons t ts ih => rw [TypeVar.fillAll, ih, List.map_cons]

mutual

/-- What is the same before it is completed is the same afterwards. -/
theorem TypeVar.key_fill (c : Completion) : ∀ {t u : TypeVar}, t.key = u.key →
    (t.fill c).key = (u.fill c).key
  | .known base params, .known base' params', h => by
      rw [TypeVar.key, TypeVar.key, TypeKey.known.injEq] at h
      rw [TypeVar.fill, TypeVar.fill, TypeVar.key, TypeVar.key, h.1, TypeVar.keys_fill c h.2]
  | .unknown _ _ _, .unknown _ _ _, h => by
      rw [TypeVar.key, TypeVar.key, TypeKey.unknown.injEq] at h
      rw [TypeVar.fill, TypeVar.fill, h.1, h.2]
  | .known _ _, .unknown _ _ _, h => nomatch h
  | .unknown _ _ _, .known _ _, h => nomatch h

theorem TypeVar.keys_fill (c : Completion) : ∀ {ts us : List TypeVar},
    TypeVar.keys ts = TypeVar.keys us →
      TypeVar.keys (TypeVar.fillAll c ts) = TypeVar.keys (TypeVar.fillAll c us)
  | [], [], _ => rfl
  | t :: ts, u :: us, h => by
      rw [TypeVar.keys, TypeVar.keys, List.cons.injEq] at h
      rw [TypeVar.fillAll, TypeVar.fillAll, TypeVar.keys, TypeVar.keys, TypeVar.key_fill c h.1,
        TypeVar.keys_fill c h.2]
  | [], _ :: _, h => nomatch h
  | _ :: _, [], h => nomatch h

end

/-! ### A completion that separates -/

/-- A bound on the name or the integer. -/
def KnownType.bound : KnownType → ℕ
  | .named name => name.id + 1
  | .integer val => val.toNat + 1
  | _ => 0

mutual

/-- A bound on the names and integers in a type. -/
def TypeVar.bound : TypeVar → ℕ
  | .known base params => max (KnownType.bound base) (TypeVar.bounds params)
  | .unknown _ _ _ => 0

def TypeVar.bounds : List TypeVar → ℕ
  | [] => 0
  | t :: ts => max t.bound (TypeVar.bounds ts)

end

theorem TypeVar.bounds_le {ts : List TypeVar} {n : ℕ} :
    TypeVar.bounds ts ≤ n ↔ ∀ t ∈ ts, t.bound ≤ n := by
  induction ts with
  | nil => simp [TypeVar.bounds]
  | cons t ts ih => rw [TypeVar.bounds, Nat.max_le, ih, List.forall_mem_cons]

/-- A number for every kind. -/
def MetaType.index : MetaType → ℕ
  | .any => 0
  | .type => 1
  | .number => 2
  | .int => 3
  | .uint => 4

theorem MetaType.index_lt (m : MetaType) : MetaType.index m < 5 := by
  cases m <;> decide

theorem MetaType.index_inj {m m' : MetaType} (h : MetaType.index m = MetaType.index m') : m = m' := by
  cases m <;> cases m' <;> first | rfl | exact absurd h (by decide)

/-- What stands for an unknown: above the bound, and different for different unknowns. -/
def separatingBase (bound id : ℕ) (m : MetaType) : KnownType :=
  if m = .type then .named ⟨bound + (5 * id + MetaType.index m), ""⟩
  else .integer (bound + (5 * id + MetaType.index m))

/-- Every unknown becomes a type that occurs nowhere below the bound. -/
def separating (bound : ℕ) : Completion where
  value id m := .known (separatingBase bound id m) []
  complete _ _ := trivial
  fits id m := by
    unfold TypeVar.Fits separatingBase
    cases m with
    | uint =>
        have hval : (0 : ℤ) ≤ bound + (5 * id + MetaType.index .uint) := by omega
        exact decide_eq_true hval
    | _ => rfl

theorem separatingBase_inj {bound id id' : ℕ} {m m' : MetaType}
    (h : separatingBase bound id m = separatingBase bound id' m') : id = id' ∧ m = m' := by
  have hlt := MetaType.index_lt m
  have hlt' := MetaType.index_lt m'
  have hcode : 5 * id + MetaType.index m = 5 * id' + MetaType.index m' := by
    unfold separatingBase at h
    split_ifs at h
    · exact Nat.add_left_cancel (NameID.mk.inj (KnownType.named.inj h)).1
    · have hval := KnownType.integer.inj h
      omega
  exact ⟨by omega, MetaType.index_inj (by omega)⟩

theorem bound_separatingBase (bound id : ℕ) (m : MetaType) :
    bound < KnownType.bound (separatingBase bound id m) := by
  unfold separatingBase KnownType.bound
  split_ifs
  · dsimp only
    omega
  · dsimp only
    omega

mutual

/-- Types below the bound that become equal are equal. -/
theorem key_of_separating {n : ℕ} : ∀ {t u : TypeVar}, t.bound ≤ n → u.bound ≤ n →
    (t.fill (separating n)).key = (u.fill (separating n)).key → t.key = u.key
  | .known base params, .known base' params', ht, hu, h => by
      rw [TypeVar.bound, Nat.max_le] at ht hu
      rw [TypeVar.fill, TypeVar.fill, TypeVar.key, TypeVar.key, TypeKey.known.injEq] at h
      rw [TypeVar.key, TypeVar.key, h.1, keys_of_separating ht.2 hu.2 h.2]
  | .known base params, .unknown id _ m, ht, _, h => by
      rw [TypeVar.bound, Nat.max_le] at ht
      have hbase : base = separatingBase n id m := (TypeKey.known.inj h).1
      exact absurd ht.1 (not_le_of_gt (hbase ▸ bound_separatingBase n id m))
  | .unknown id _ m, .known base params, _, hu, h => by
      rw [TypeVar.bound, Nat.max_le] at hu
      have hbase : separatingBase n id m = base := (TypeKey.known.inj h).1
      exact absurd hu.1 (not_le_of_gt (hbase ▸ bound_separatingBase n id m))
  | .unknown id _ m, .unknown id' _ m', _, _, h => by
      obtain ⟨rfl, rfl⟩ := separatingBase_inj (TypeKey.known.inj h).1
      rfl

theorem keys_of_separating {n : ℕ} : ∀ {ts us : List TypeVar}, TypeVar.bounds ts ≤ n →
    TypeVar.bounds us ≤ n →
    TypeVar.keys (TypeVar.fillAll (separating n) ts) =
      TypeVar.keys (TypeVar.fillAll (separating n) us) → TypeVar.keys ts = TypeVar.keys us
  | [], [], _, _, _ => rfl
  | t :: ts, u :: us, ht, hu, h => by
      rw [TypeVar.bounds, Nat.max_le] at ht hu
      rw [TypeVar.fillAll, TypeVar.fillAll, TypeVar.keys, TypeVar.keys, List.cons.injEq] at h
      rw [TypeVar.keys, TypeVar.keys, key_of_separating ht.1 hu.1 h.1,
        keys_of_separating ht.2 hu.2 h.2]
  | [], _ :: _, _, _, h => nomatch h
  | _ :: _, [], _, _, h => nomatch h

end

end Spade.Typeinference

import Spade.HirLowering.Layout
import Spade.HirLowering.PatternLowering
import Spade.HirLowering.PipelineSignals

/-!
# The meaning of lowered patterns and match expressions

The statements generated for a pattern compute whether the pattern matches and bind its names
(`Pattern.lowersRight`), and a match expression has the value of its first matching arm
(`lowerMatch_value`), as long as the pattern can be lowered (`Pattern.Lowerable`).
-/

namespace Spade.Hir

open Mir HirLowering ConcreteType

/-! ### Names and conditions -/

mutual

/-- The names of a pattern, each with its type and the value that it names when the pattern
matches the value. -/
def Pattern.bindings (ctx : PatternContext) :
    Pattern → Value → List (NameID × ConcreteType × Value)
  | .name id n, v => [(n, ctx.typeOfId id, v)]
  | .tuple _ inner, .fields vs | .array _ inner, .fields vs => bindingsList ctx inner vs
  | .type _ _ _ args, .fields vs | .type _ _ _ args, .variant _ vs => bindingsList ctx args vs
  | _, _ => []

def bindingsList (ctx : PatternContext) :
    List Pattern → List Value → List (NameID × ConcreteType × Value)
  | p :: ps, v :: vs => p.bindings ctx v ++ bindingsList ctx ps vs
  | _, _ => []

end

mutual

/-- The pattern is one that the lowering supports: an integer literal is a value of its type, a
tuple or array has subpatterns, and the tag and the members of an enum variant can be read. -/
def Pattern.Lowerable (ctx : PatternContext) : Pattern → Prop
  | .integer id literal => ∃ min max, (ctx.typeOfId id).bounds = some (min, max) ∧
      (min ≤ literal ∧ literal ≤ max) ∧
      ∀ t, (ctx.typeOfId id).toMirType = some t → t.size ≠ 0
  | .bool _ _ => True
  | .name _ _ => True
  | .tuple _ inner | .array _ inner => inner ≠ [] ∧ LowerableList ctx inner
  | .type id path _ args => LowerableList ctx args ∧
      match ctx.patternableTypeById path with
      | .struct => True
      | .enum => ∀ options members, (ctx.typeOfId id).toMirType = some (.enum options) →
          options[ctx.enumVariantById path]? = some members → (Ty.enum options).size ≠ 0 ∧
            ∀ i t, members[i]? = some t → MemberSound options members i t

def LowerableList (ctx : PatternContext) : List Pattern → Prop
  | [] => True
  | p :: ps => p.Lowerable ctx ∧ LowerableList ctx ps

end

variable {ctx : PatternContext}

theorem Pattern.WellTyped.typeOfId {p : Pattern} {ty : ConcreteType} (h : p.WellTyped ctx ty) :
    ctx.typeOfId p.id = ty := by
  cases p with
  | name => exact h
  | _ => exact h.1

theorem WellTypedList.length_eq : ∀ {ps : List Pattern} {types : List ConcreteType},
    WellTypedList ctx ps types → ps.length = types.length
  | [], [], _ => rfl
  | _ :: _, _ :: _, h => by simp [h.2.length_eq]

theorem WellTypedList.get : ∀ {ps : List Pattern} {types : List ConcreteType},
    WellTypedList ctx ps types → ∀ {i : ℕ} {p : Pattern}, ps[i]? = some p →
    ∃ ty, types[i]? = some ty ∧ p.WellTyped ctx ty
  | [], [], _, _, _, hp => by simp at hp
  | _ :: _, ty :: _, h, 0, _, hp => ⟨ty, rfl, Option.some.inj hp ▸ h.1⟩
  | _ :: _, _ :: _, h, i + 1, _, hp => h.2.get (i := i) hp

/-! ### Success of the lowering -/

theorem fieldBinding_eq {p : Pattern} {ty : ConcreteType} {t : Ty} (hp : p.WellTyped ctx ty)
    (ht : ty.toMirType = some t) (operator : Op) (operands : List ValueName) :
    ctx.fieldBinding p operator operands =
      some (.binding { name := p.valueName, operator, operands, ty := t }) := by
  rw [PatternContext.fieldBinding, hp.typeOfId, ht]
  rfl

theorem lowerFields_isSome (field : FieldBinding) {ps : List Pattern} {i : ℕ}
    (hfield : ∀ j p, ps[j]? = some p → ∀ next, ∃ r, field (i + j) p next = some r)
    (hps : ∀ p ∈ ps, ∀ self next, ∃ r, p.lower ctx self next = some r) (next : ℕ) :
    ∃ r, lowerFields ctx field i ps next = some r := by
  induction ps generalizing i next with
  | nil => exact ⟨_, rfl⟩
  | cons p ps ih =>
      obtain ⟨⟨binding, n₁⟩, hbinding⟩ := hfield 0 p rfl next
      obtain ⟨⟨inner, n₂⟩, hinner⟩ := hps p List.mem_cons_self p.valueName n₁
      obtain ⟨⟨rest, n₃⟩, hrest⟩ := @ih (i + 1)
        (fun j q hq => by simpa [Nat.add_assoc, Nat.add_comm 1] using hfield (j + 1) q hq)
        (fun q hq => hps q (List.mem_cons_of_mem _ hq)) n₂
      rw [Nat.add_zero] at hbinding
      exact ⟨(binding ++ inner ++ rest, n₃), by simp only [lowerFields, hbinding, hinner, hrest,
        Option.bind_eq_bind, Option.bind_some]⟩

theorem argIndex_of_nodup {params : List String} (hnodup : params.Nodup) {i : ℕ} {target : String}
    (h : params[i]? = some target) : argIndex params target = some i := by
  have hfind : ∀ (l : List String) (s i : ℕ), l.Nodup → l[i]? = some target →
      l.findIdxs (· == target) s = [s + i] := by
    intro l
    induction l with
    | nil => simp
    | cons x l ih =>
        intro s i hl hi
        rw [List.nodup_cons] at hl
        rw [List.findIdxs_cons]
        cases i with
        | zero =>
            obtain rfl : x = target := by simpa using hi
            have hrest : l.findIdxs (· == x) (s + 1) = [] := by
              rw [List.eq_nil_iff_forall_not_mem]
              intro j hj
              rw [List.mem_findIdxs_iff_getElem_sub_pos] at hj
              obtain ⟨-, hlt, hx⟩ := hj
              exact hl.1 (by simpa using (beq_iff_eq.mp hx) ▸ List.getElem_mem hlt)
            simp [hrest]
        | succ i =>
            have hmem : target ∈ l := List.mem_of_getElem? (by simpa using hi)
            rw [if_neg (by simpa using fun h : x = target => hl.1 (h ▸ hmem)),
              ih (s + 1) i hl.2 (by simpa using hi)]
            congr 1
            omega
  rw [argIndex, hfind params 0 i hnodup h, Nat.zero_add]

theorem WellTypedList.getMir {ps : List Pattern} {types : List ConcreteType} {ts : List Ty}
    (h : WellTypedList ctx ps types) (hts : toMirTypes types = some ts) {i : ℕ} {p : Pattern}
    (hp : ps[i]? = some p) :
    ∃ ty t, types[i]? = some ty ∧ ts[i]? = some t ∧ ty.toMirType = some t ∧ p.WellTyped ctx ty := by
  obtain ⟨ty, hty, hwt⟩ := h.get hp
  obtain ⟨t, ht, hmir⟩ := toMirTypes_get hts hty
  exact ⟨ty, t, hty, ht, hmir, hwt⟩

section Fields

variable {ps : List Pattern} {types : List ConcreteType} {ts : List Ty}
  (h : WellTypedList ctx ps types) (hts : toMirTypes types = some ts) {i : ℕ} {p : Pattern}
  (hp : ps[i]? = some p) {t : Ty} (ht : ts[i]? = some t) (selfName : ValueName)

include h hts hp ht

theorem fieldBinding_of_get (operator : Op) (operands : List ValueName) :
    ctx.fieldBinding p operator operands =
      some (.binding { name := p.valueName, operator, operands, ty := t }) := by
  obtain ⟨ty, t', -, ht', hmir, hwt⟩ := h.getMir hts hp
  obtain rfl : t = t' := Option.some.inj (ht.symm.trans ht')
  exact fieldBinding_eq hwt hmir _ _

theorem tupleField_eq (next : ℕ) : ctx.tupleField selfName ts i p next =
    some ([.binding
      { name := p.valueName
        operator := .indexTuple i ts
        operands := [selfName]
        ty := t }], next) := by
  simp only [PatternContext.tupleField, fieldBinding_of_get h hts hp ht, Option.bind_eq_bind,
    Option.bind_some]

theorem arrayField_eq (length next : ℕ) : ctx.arrayField selfName length i p next =
    some ([.constant next (.int (Nat.log2 length + 1)) (.int i),
      .binding
        { name := p.valueName
          operator := .indexArray
          operands := [selfName, .expr next]
          ty := t }], next + 1) := by
  simp only [PatternContext.arrayField, fieldBinding_of_get h hts hp ht, Option.bind_eq_bind,
    Option.bind_some]

theorem structField_eq {path : NameID} {targets : List String}
    (hpath : ctx.structById path = targets) (hnodup : targets.Nodup)
    (hlen : targets.length = types.length) (next : ℕ) :
    ctx.structField selfName path targets ts i p next =
      some ([.binding
        { name := p.valueName
          operator := .indexTuple i ts
          operands := [selfName]
          ty := t }], next) := by
  have hi : i < targets.length := by
    rw [hlen, ← h.length_eq]
    exact (List.getElem?_eq_some_iff.mp hp).1
  have htarget : targets[i]? = some targets[i] := List.getElem?_eq_getElem hi
  simp only [PatternContext.structField, hpath, htarget, argIndex_of_nodup hnodup htarget,
    fieldBinding_of_get h hts hp ht, Option.bind_eq_bind, Option.bind_some]

theorem enumField_eq (path : NameID) (selfType : Ty) (next : ℕ) :
    ctx.enumField selfName path selfType i p next =
      some ([.binding
        { name := p.valueName
          operator := .enumMember selfType (ctx.enumVariantById path) i
          operands := [selfName]
          ty := t }], next) := by
  simp only [PatternContext.enumField, fieldBinding_of_get h hts hp ht, Option.bind_eq_bind,
    Option.bind_some]

end Fields

/-! ### Success of the lowering -/

theorem toMirType_tuple {types : List ConcreteType} {t : Ty}
    (h : (ConcreteType.tuple types).toMirType = some t) :
    ∃ ts, t = .tuple ts ∧ toMirTypes types = some ts := by
  simp only [toMirType, Option.bind_eq_bind, Option.bind_eq_some_iff, Option.some.injEq] at h
  obtain ⟨ts, hts, rfl⟩ := h
  exact ⟨ts, rfl, hts⟩

theorem toMirType_struct {members : List (String × ConcreteType)} {t : Ty}
    (h : (ConcreteType.struct members).toMirType = some t) :
    ∃ ms, t = .struct ms ∧ toMirTypes (members.map Prod.snd) = some (ms.map Prod.snd) := by
  simp only [toMirType, Option.bind_eq_bind, Option.bind_eq_some_iff, Option.some.injEq] at h
  obtain ⟨ms, hms, rfl⟩ := h
  exact ⟨ms, rfl, toMirMembers_types hms⟩

theorem toMirType_array {type : ConcreteType} {size : ℤ} {t : Ty}
    (h : (ConcreteType.array type size).toMirType = some t) :
    ∃ t', t = .array t' size.toNat ∧ type.toMirType = some t' := by
  simp only [toMirType] at h
  split_ifs at h
  simp only [Option.bind_eq_bind, Option.bind_eq_some_iff, Option.some.injEq] at h
  obtain ⟨t', ht', rfl⟩ := h
  exact ⟨t', rfl, ht'⟩

theorem toMirType_enum {options : List (List ConcreteType)} {t : Ty}
    (h : (ConcreteType.enum options).toMirType = some t) :
    ∃ os, t = .enum os ∧ toMirOptions options = some os := by
  simp only [toMirType, Option.bind_eq_bind, Option.bind_eq_some_iff, Option.some.injEq] at h
  obtain ⟨os, hos, rfl⟩ := h
  exact ⟨os, rfl, hos⟩

/-- The types of the subpatterns of a pattern for an enum variant. -/
theorem wellTyped_enum {id : ℕ} {path : NameID} {targets : List String} {args : List Pattern}
    {ty : ConcreteType} (hkind : ctx.patternableTypeById path = .enum)
    (h : (Pattern.type id path targets args).WellTyped ctx ty) :
    ∃ options types, ty = .enum options ∧ options[ctx.enumVariantById path]? = some types ∧
      WellTypedList ctx args types := by
  obtain ⟨-, h⟩ := h
  rw [hkind] at h
  cases ty with
  | enum options =>
      rcases htypes : options[ctx.enumVariantById path]? with _ | types <;>
        simp only [htypes] at h
      exact ⟨options, types, rfl, htypes, h.2⟩
  | _ => exact h.elim

theorem wellTyped_struct {id : ℕ} {path : NameID} {targets : List String} {args : List Pattern}
    {ty : ConcreteType} (hkind : ctx.patternableTypeById path = .struct)
    (h : (Pattern.type id path targets args).WellTyped ctx ty) :
    ∃ members, ty = .struct members ∧ targets = members.map Prod.fst ∧
      ctx.structById path = targets ∧ targets.Nodup ∧
      WellTypedList ctx args (members.map Prod.snd) := by
  obtain ⟨-, h⟩ := h
  rw [hkind] at h
  cases ty with
  | struct members => exact ⟨members, rfl, h⟩
  | _ => exact h.elim

theorem wellTyped_tuple {id : ℕ} {inner : List Pattern} {ty : ConcreteType}
    (h : (Pattern.tuple id inner).WellTyped ctx ty) :
    ∃ types, ty = .tuple types ∧ WellTypedList ctx inner types := by
  obtain ⟨-, h⟩ := h
  cases ty with
  | tuple types => exact ⟨types, rfl, h⟩
  | _ => exact h.elim

theorem wellTyped_array {id : ℕ} {inner : List Pattern} {ty : ConcreteType}
    (h : (Pattern.array id inner).WellTyped ctx ty) :
    ∃ type, ty = .array type inner.length ∧
      WellTypedList ctx inner (List.replicate inner.length type) := by
  obtain ⟨-, h⟩ := h
  cases ty with
  | array type size =>
      obtain ⟨-, rfl, h⟩ := h
      exact ⟨type, rfl, h⟩
  | _ => exact h.elim

mutual

theorem Pattern.lower_isSome : ∀ (p : Pattern) (ty : ConcreteType) (t : Ty), p.WellTyped ctx ty →
    ty.toMirType = some t → ∀ self next, ∃ r, p.lower ctx self next = some r
  | .integer .., _, _, _, _, _, _ => ⟨_, rfl⟩
  | .bool .., _, _, _, _, _, _ => ⟨_, rfl⟩
  | .name .., _, _, _, _, _, _ => ⟨_, rfl⟩
  | .tuple id inner, ty, t, hwt, ht, self, next => by
      have htype : ctx.typeOfId id = ty := hwt.typeOfId
      obtain ⟨types, rfl, hinner⟩ := wellTyped_tuple hwt
      obtain ⟨ts, rfl, hts⟩ := toMirType_tuple ht
      have hfields := @lowerFields_isSome ctx (ctx.tupleField self ts) _ 0
        (fun j p hp next => by
          obtain ⟨_, t, -, ht, -⟩ := hinner.getMir hts hp
          rw [Nat.zero_add]
          exact ⟨_, tupleField_eq hinner hts hp ht self next⟩)
        (lower_isSome_list inner types ts hinner hts) next
      simpa only [Pattern.lower, htype, ht, Option.bind_eq_bind, Option.bind_some]
        using hfields
  | .array id inner, ty, t, hwt, ht, self, next => by
      obtain ⟨type, rfl, hinner⟩ := wellTyped_array hwt
      obtain ⟨type', rfl, htype⟩ := toMirType_array ht
      have hts := toMirTypes_replicate htype inner.length
      exact lowerFields_isSome _
        (fun j p hp next => by
          obtain ⟨_, t, -, ht, -⟩ := hinner.getMir hts hp
          rw [Nat.zero_add]
          exact ⟨_, arrayField_eq hinner hts hp ht self _ next⟩)
        (lower_isSome_list inner _ _ hinner hts) next
  | .type id path targets args, ty, t, hwt, ht, self, next => by
      have htype : ctx.typeOfId id = ty := hwt.typeOfId
      cases hkind : ctx.patternableTypeById path with
      | «struct» =>
          obtain ⟨members, rfl, htargets, hpath, hnodup, hargs⟩ := wellTyped_struct hkind hwt
          obtain ⟨ms, rfl, hms⟩ := toMirType_struct ht
          have hfields := @lowerFields_isSome ctx
            (ctx.structField self path targets (ms.map Prod.snd)) _ 0
            (fun j p hp next => by
              obtain ⟨_, t, -, ht, -⟩ := hargs.getMir hms hp
              rw [Nat.zero_add]
              exact ⟨_, structField_eq hargs hms hp ht self hpath hnodup (by simp [htargets])
                next⟩)
            (lower_isSome_list args _ _ hargs hms) next
          simpa only [Pattern.lower, hkind, htype, ht, Option.bind_eq_bind,
            Option.bind_some] using hfields
      | «enum» =>
          obtain ⟨options, types, rfl, htypes, hargs⟩ := wellTyped_enum hkind hwt
          obtain ⟨os, rfl, hos⟩ := toMirType_enum ht
          obtain ⟨ts, -, hts⟩ := (toMirOptions_get hos).2 _ _ htypes
          have hfields := @lowerFields_isSome ctx
            (ctx.enumField self path (.enum os)) _ 0
            (fun j p hp next => by
              obtain ⟨_, t, -, ht, -⟩ := hargs.getMir hts hp
              rw [Nat.zero_add]
              exact ⟨_, enumField_eq hargs hts hp ht self path _ next⟩)
            (lower_isSome_list args _ _ hargs hts) next
          simpa only [Pattern.lower, hkind, htype, ht, Option.bind_eq_bind,
            Option.bind_some] using hfields

theorem lower_isSome_list : ∀ (ps : List Pattern) (types : List ConcreteType) (ts : List Ty),
    WellTypedList ctx ps types → toMirTypes types = some ts →
    ∀ p ∈ ps, ∀ self next, ∃ r, p.lower ctx self next = some r
  | [], _, _, _, _ => by simp
  | p :: ps, [], _, h, _ => h.elim
  | p :: ps, ty :: types, ts, h, hts => by
      obtain ⟨t, ts', rfl, ht, hts⟩ := toMirTypes_cons hts
      intro q hq
      rcases List.mem_cons.mp hq with hq | hq
      · rw [hq]
        exact Pattern.lower_isSome p ty t h.1 ht
      · exact lower_isSome_list ps types ts' h.2 hts q hq

end

mutual

theorem Pattern.condition_isSome : ∀ (p : Pattern) (ty : ConcreteType) (t : Ty),
    p.WellTyped ctx ty → ty.toMirType = some t → p.Lowerable ctx →
    ∀ self next, ∃ r, p.condition ctx self next = some r
  | .integer id _, ty, t, hwt, ht, _, self, next => by
      have htype : ctx.typeOfId id = ty := hwt.typeOfId
      simp only [Pattern.condition, htype, ht, Option.bind_eq_bind, Option.bind_some]
      exact ⟨_, rfl⟩
  | .bool _ true, _, _, _, _, _, _, _ => ⟨_, rfl⟩
  | .bool _ false, _, _, _, _, _, _, _ => ⟨_, rfl⟩
  | .name .., _, _, _, _, _, _, _ => ⟨_, rfl⟩
  | .tuple id inner, ty, t, hwt, ht, hlow, self, next => by
      obtain ⟨types, rfl, hinner⟩ := wellTyped_tuple hwt
      obtain ⟨ts, rfl, hts⟩ := toMirType_tuple ht
      obtain ⟨r, hr⟩ := subConditions_isSome inner types ts hinner hts hlow.2 (next + 1)
      simp only [Pattern.condition, List.isEmpty_iff, hlow.1, if_false, hr, Option.bind_eq_bind,
        Option.bind_some]
      exact ⟨_, rfl⟩
  | .array id inner, ty, t, hwt, ht, hlow, self, next => by
      obtain ⟨type, rfl, hinner⟩ := wellTyped_array hwt
      obtain ⟨type', rfl, htype⟩ := toMirType_array ht
      obtain ⟨r, hr⟩ := subConditions_isSome inner _ _ hinner
        (toMirTypes_replicate htype inner.length) hlow.2 (next + 1)
      simp only [Pattern.condition, List.isEmpty_iff, hlow.1, if_false, hr, Option.bind_eq_bind,
        Option.bind_some]
      exact ⟨_, rfl⟩
  | .type id path targets args, ty, t, hwt, ht, hlow, self, next => by
      have htype : ctx.typeOfId id = ty := hwt.typeOfId
      have hsub : ∃ r, subConditions ctx args (next + 2) = some r := by
        cases hkind : ctx.patternableTypeById path with
        | «struct» =>
            obtain ⟨members, rfl, -, -, -, hargs⟩ := wellTyped_struct hkind hwt
            obtain ⟨ms, rfl, hms⟩ := toMirType_struct ht
            exact subConditions_isSome args _ _ hargs hms hlow.1 _
        | «enum» =>
            obtain ⟨options, types, rfl, htypes, hargs⟩ := wellTyped_enum hkind hwt
            obtain ⟨os, rfl, hos⟩ := toMirType_enum ht
            obtain ⟨ts, -, hts⟩ := (toMirOptions_get hos).2 _ _ htypes
            exact subConditions_isSome args _ _ hargs hts hlow.1 _
      obtain ⟨r, hr⟩ := hsub
      simp only [Pattern.condition, htype, ht, hr, Option.bind_eq_bind, Option.bind_some]
      exact ⟨_, rfl⟩

theorem subConditions_isSome : ∀ (ps : List Pattern) (types : List ConcreteType) (ts : List Ty),
    WellTypedList ctx ps types → toMirTypes types = some ts → LowerableList ctx ps →
    ∀ next, ∃ r, subConditions ctx ps next = some r
  | [], _, _, _, _, _, _ => ⟨_, rfl⟩
  | _ :: _, [], _, h, _, _, _ => h.elim
  | p :: ps, ty :: types, ts, h, hts, hlow, next => by
      obtain ⟨t, ts', rfl, ht, hts⟩ := toMirTypes_cons hts
      obtain ⟨⟨s, c, n⟩, hp⟩ :=
        Pattern.condition_isSome p ty t h.1 ht hlow.1 p.valueName next
      obtain ⟨r, hr⟩ := subConditions_isSome ps types ts' h.2 hts hlow.2 n
      simp only [subConditions, hp, hr, Option.bind_eq_bind, Option.bind_some]
      exact ⟨_, rfl⟩

end

/-! ### The meaning of the statements -/

section Meaning

variable {H : Type} {I : Interp H} {hid : ValueName → H} {ρ : ValueName → BitString}

theorem andConditions_spec {ops : List ValueName} {result : ValueName} {next : ℕ}
    {stmts : List Statement} {name : ValueName} {next' : ℕ}
    (h : andConditions result ops next = (stmts, name, next'))
    (hs : AllSatisfied I hid ρ stmts) :
    truth ρ name = (truth ρ result && ops.all (truth ρ)) ∧
      ((ops = [] → (ρ result).length = 1) → (ρ name).length = 1) := by
  induction ops generalizing result next stmts with
  | nil =>
      obtain ⟨rfl, rfl, rfl⟩ := h
      exact ⟨by simp, fun h => h rfl⟩
  | cons op ops ih =>
      rcases hrest : andConditions (.expr next) ops (next + 1) with ⟨rest, name', n⟩
      rw [andConditions, hrest] at h
      obtain ⟨rfl, rfl, rfl⟩ := h
      rw [AllSatisfied, List.forall_mem_cons] at hs
      obtain ⟨htruth, hlength⟩ := ih hrest hs.2
      refine ⟨?_, fun _ => hlength fun _ => ?_⟩
      · rw [htruth, truth_logicalAnd hs.1, List.all_cons, Bool.and_assoc]
      · rw [show ρ (.expr next) = _ from hs.1.trans (I.denote_logicalAnd _)]
        rfl

/-- The result of `all_conditions` is the conjunction of the conditions. -/
theorem allConditions_spec {ops : List ValueName} {next : ℕ} {stmts : List Statement}
    {name : ValueName} {next' : ℕ} (h : allConditions ops next = (stmts, name, next'))
    (hs : AllSatisfied I hid ρ stmts) :
    truth ρ name = ops.all (truth ρ) ∧
      ((∀ op, ops = [op] → (ρ op).length = 1) → (ρ name).length = 1) := by
  rcases ops with _ | ⟨op, _ | ⟨op', ops⟩⟩
  · obtain ⟨rfl, rfl, rfl⟩ := h
    have hconst : ρ (.expr next) = [true] := hs _ (List.mem_singleton_self _)
    exact ⟨truth_of_eq_singleton hconst, fun _ => by rw [hconst]; rfl⟩
  · obtain ⟨rfl, rfl, rfl⟩ := h
    exact ⟨by simp, fun h => h _ rfl⟩
  · obtain ⟨htruth, hlength⟩ := andConditions_spec h hs
    exact ⟨htruth, fun _ => hlength (by simp)⟩

/-- The binding of every subpattern holds, and so do the statements that take it apart. -/
theorem lowerFields_spec {field : FieldBinding} {ps : List Pattern} {i next next' : ℕ}
    {stmts : List Statement} (h : lowerFields ctx field i ps next = some (stmts, next'))
    (hs : AllSatisfied I hid ρ stmts) {j : ℕ} {p : Pattern} (hp : ps[j]? = some p) :
    (∃ n s n', field (i + j) p n = some (s, n') ∧ AllSatisfied I hid ρ s) ∧
      ∃ n s n', p.lower ctx p.valueName n = some (s, n') ∧ AllSatisfied I hid ρ s := by
  induction ps generalizing i j next stmts with
  | nil => simp at hp
  | cons q ps ih =>
      simp only [lowerFields, Option.bind_eq_bind, Option.bind_eq_some_iff, Option.some.injEq,
        Prod.exists, Prod.mk.injEq] at h
      obtain ⟨binding, n₁, hbinding, inner, n₂, hinner, rest, n₃, hrest, rfl, rfl⟩ := h
      simp only [AllSatisfied, List.forall_mem_append] at hs
      cases j with
      | zero =>
          obtain rfl : q = p := by simpa using hp
          exact ⟨⟨next, binding, n₁, hbinding, hs.1.1⟩, n₁, inner, n₂, hinner, hs.1.2⟩
      | succ j =>
          have := ih hrest hs.2 (j := j) (by simpa using hp)
          rwa [show i + 1 + j = i + (j + 1) by omega] at this

/-- The value of a pattern and the statements for it decide whether the value matches. -/
structure Pattern.Decides (ctx : PatternContext) (ρ : ValueName → BitString) (p : Pattern)
    (selfName : ValueName) (v : Value) (c : ValueName) : Prop where
  /-- The condition is a single bit: whether the pattern matches. -/
  signal : ∃ b, ρ c = [b] ∧ (b = true ↔ p.Matches ctx exact v)
  /-- The names of a matching pattern carry the values they name. The name of a pattern that is
  nothing but a name is not bound by the statements. -/
  bindings : (∀ id n, p = .name id n → selfName = n.valueName) → p.Matches ctx exact v →
    ∀ b ∈ p.bindings ctx v, b.2.2.Encodes b.2.1 (ρ b.1.valueName)

/-- The same for the patterns of the parts of a value. -/
structure DecidesList (ctx : PatternContext) (ρ : ValueName → BitString) (ps : List Pattern)
    (vs : List Value) (conds : List ValueName) : Prop where
  length : ∀ c ∈ conds, (ρ c).length = 1
  truth_iff : conds.all (truth ρ) = true ↔ MatchesList ctx exact ps vs
  bindings : MatchesList ctx exact ps vs →
    ∀ b ∈ bindingsList ctx ps vs, b.2.2.Encodes b.2.1 (ρ b.1.valueName)

theorem signal_of_length {c : ValueName} {P : Prop} (hlen : (ρ c).length = 1)
    (htruth : truth ρ c = true ↔ P) : ∃ b, ρ c = [b] ∧ (b = true ↔ P) := by
  obtain ⟨b, hb⟩ := List.length_eq_one_iff.mp hlen
  rw [truth_of_eq_singleton hb] at htruth
  exact ⟨b, hb, htruth⟩

theorem Pattern.Decides.length {p : Pattern} {self c : ValueName} {v : Value}
    (h : p.Decides ctx ρ self v c) : (ρ c).length = 1 := by
  obtain ⟨b, hb, -⟩ := h.signal
  rw [hb]
  rfl

theorem Pattern.Decides.truth_iff {p : Pattern} {self c : ValueName} {v : Value}
    (h : p.Decides ctx ρ self v c) : truth ρ c = true ↔ p.Matches ctx exact v := by
  obtain ⟨b, hb, hiff⟩ := h.signal
  rw [truth_of_eq_singleton hb, hiff]

theorem EncodesList.length_eq : ∀ {vs : List Value} {types : List ConcreteType}
    {parts : List BitString}, EncodesList vs types parts → parts.length = types.length
  | [], [], [], _ => rfl
  | _ :: _, _ :: _, _ :: _, h => by simp [EncodesList.length_eq h.2]

theorem map_valueName_eq {ps : List Pattern} {parts : List BitString}
    (hlen : ps.length = parts.length)
    (h : ∀ (j : ℕ) (p : Pattern), ps[j]? = some p → parts[j]? = some (ρ p.valueName)) :
    ps.map (fun p => ρ p.valueName) = parts := by
  refine List.ext_getElem? fun j => ?_
  rw [List.getElem?_map]
  rcases hp : ps[j]? with _ | p
  · rw [List.getElem?_eq_none_iff, hlen] at hp
    rw [Option.map_none, List.getElem?_eq_none_iff.mpr hp]
  · rw [Option.map_some, h j p hp]

section Parts

variable {ps : List Pattern} {types : List ConcreteType} {ts : List Ty}
  {parts : List BitString} {vs : List Value} {self : ValueName} {stmts : List Statement}
  {next next' : ℕ}

theorem tuple_parts (h : WellTypedList ctx ps types) (hts : toMirTypes types = some ts)
    (hv : EncodesList vs types parts) (hself : ρ self = parts.flatten)
    (hlower : lowerFields ctx (ctx.tupleField self ts) 0 ps next = some (stmts, next'))
    (hs : AllSatisfied I hid ρ stmts) : ps.map (fun p => ρ p.valueName) = parts := by
  obtain ⟨hlens, hsum⟩ := encodesList_length vs types parts ts hv hts
  refine map_valueName_eq (h.length_eq.trans hv.length_eq.symm) fun j p hp => ?_
  obtain ⟨-, t, -, ht, -⟩ := h.getMir hts hp
  obtain ⟨⟨n, s, n', hfield, hsat⟩, -⟩ := lowerFields_spec hlower hs hp
  rw [Nat.zero_add, tupleField_eq h hts hp ht] at hfield
  obtain ⟨rfl, rfl⟩ := Prod.mk.inj (Option.some.inj hfield)
  have hbinding : ρ p.valueName = I.denote _ (.indexTuple j ts) t [ρ self] :=
    hsat _ (List.mem_singleton_self _)
  rw [hbinding, hself, I.denote_indexTuple _ ht hsum]
  exact flatten_field hlens ht

theorem struct_parts (h : WellTypedList ctx ps types) (hts : toMirTypes types = some ts)
    {path : NameID} {targets : List String} (hpath : ctx.structById path = targets)
    (hnodup : targets.Nodup) (htargets : targets.length = types.length)
    (hv : EncodesList vs types parts) (hself : ρ self = parts.flatten)
    (hlower : lowerFields ctx (ctx.structField self path targets ts) 0 ps next =
      some (stmts, next'))
    (hs : AllSatisfied I hid ρ stmts) : ps.map (fun p => ρ p.valueName) = parts := by
  obtain ⟨hlens, hsum⟩ := encodesList_length vs types parts ts hv hts
  refine map_valueName_eq (h.length_eq.trans hv.length_eq.symm) fun j p hp => ?_
  obtain ⟨-, t, -, ht, -⟩ := h.getMir hts hp
  obtain ⟨⟨n, s, n', hfield, hsat⟩, -⟩ := lowerFields_spec hlower hs hp
  rw [Nat.zero_add, structField_eq h hts hp ht self hpath hnodup htargets] at hfield
  obtain ⟨rfl, rfl⟩ := Prod.mk.inj (Option.some.inj hfield)
  have hbinding : ρ p.valueName = I.denote _ (.indexTuple j ts) t [ρ self] :=
    hsat _ (List.mem_singleton_self _)
  rw [hbinding, hself, I.denote_indexTuple _ ht hsum]
  exact flatten_field hlens ht

theorem array_parts {type : ConcreteType} {t : Ty}
    (h : WellTypedList ctx ps (List.replicate ps.length type)) (ht : type.toMirType = some t)
    (hv : EncodesList vs (List.replicate ps.length type) parts)
    (hself : ρ self = parts.reverse.flatten)
    (hlower : lowerFields ctx (ctx.arrayField self ps.length) 0 ps next = some (stmts, next'))
    (hs : AllSatisfied I hid ρ stmts) : ps.map (fun p => ρ p.valueName) = parts := by
  have hts := toMirTypes_replicate ht ps.length
  have hlens := (encodesList_length vs _ parts _ hv hts).1
  have hlen : parts.length = ps.length := by simpa using hv.length_eq
  have hbits : ∀ bits ∈ parts, bits.length = t.size := by
    intro bits hbits
    obtain ⟨i, hi, rfl⟩ := List.getElem_of_mem hbits
    have hsize := hlens.get hi (by rwa [← hlens.length_eq])
    simpa using hsize
  have hself_length : (ρ self).length = t.size * parts.length := by
    rw [hself, List.length_flatten, List.map_reverse, List.sum_reverse,
      List.map_congr_left hbits]
    simp [Nat.mul_comm]
  refine map_valueName_eq hlen.symm fun j p hp => ?_
  have hj : j < ps.length := (List.getElem?_eq_some_iff.mp hp).1
  obtain ⟨⟨n, s, n', hfield, hsat⟩, -⟩ := lowerFields_spec hlower hs hp
  rw [Nat.zero_add, arrayField_eq h hts hp (by rw [List.getElem?_replicate, if_pos hj])] at hfield
  obtain ⟨rfl, rfl⟩ := Prod.mk.inj (Option.some.inj hfield)
  rw [AllSatisfied, List.forall_mem_cons] at hsat
  have hindex : ρ (.expr n) = BitString.ofNat (Nat.log2 ps.length + 1) j := by
    have hconst : ρ (.expr n) = BitString.ofNat (Nat.log2 ps.length + 1)
        ((j : ℤ) % 2 ^ (Nat.log2 ps.length + 1)).toNat := hsat.1
    have hlt : (j : ℤ) < 2 ^ (Nat.log2 ps.length + 1) := by
      exact_mod_cast hj.trans Nat.lt_log2_self
    rw [hconst, Int.emod_eq_of_lt (by omega) hlt, Int.toNat_natCast]
  have hbinding : ρ p.valueName = I.denote _ .indexArray t [ρ self, ρ (.expr n)] :=
    hsat.2 _ (List.mem_singleton_self _)
  rw [hbinding, I.denote_indexArray _ (hlen ▸ hj) hself_length (by
    rw [hindex, BitString.toNat_ofNat_of_lt (hj.trans Nat.lt_log2_self)]), hself]
  exact reverse_flatten_field hbits (hlen ▸ hj)

theorem enum_parts (h : WellTypedList ctx ps types) (hts : toMirTypes types = some ts)
    {options : List (List Ty)} {path : NameID}
    (hoption : options[ctx.enumVariantById path]? = some ts)
    (hsound : ∀ i t, ts[i]? = some t → MemberSound options ts i t)
    (hv : EncodesList vs types parts) {tag padding : BitString}
    (htag : tag.length = tagSize options.length)
    (hself : ρ self = tag ++ (parts.flatten ++ padding))
    (hself_length : (ρ self).length = (Ty.enum options).size)
    (hlower : lowerFields ctx (ctx.enumField self path (.enum options)) 0 ps next =
      some (stmts, next'))
    (hs : AllSatisfied I hid ρ stmts) : ps.map (fun p => ρ p.valueName) = parts := by
  obtain ⟨hlens, hsum⟩ := encodesList_length vs types parts ts hv hts
  refine map_valueName_eq (h.length_eq.trans hv.length_eq.symm) fun j p hp => ?_
  obtain ⟨-, t, -, ht, -⟩ := h.getMir hts hp
  obtain ⟨⟨n, s, n', hfield, hsat⟩, -⟩ := lowerFields_spec hlower hs hp
  rw [Nat.zero_add, enumField_eq h hts hp ht self] at hfield
  obtain ⟨rfl, rfl⟩ := Prod.mk.inj (Option.some.inj hfield)
  have hbinding : ρ p.valueName =
      I.denote _ (.enumMember (.enum options) (ctx.enumVariantById path) j) t [ρ self] :=
    hsat _ (List.mem_singleton_self _)
  have hend := sizeSum_take_add ht
  rw [hbinding, I.denote_enumMember _ hoption ht (hsound j t ht) hself_length, hself, ← htag,
    BitString.field_append_right, BitString.field_append_left (by omega)]
  exact flatten_field hlens ht

end Parts

/-- A value with parts is decided by the conditions of its parts. -/
theorem decides_of_parts {ps : List Pattern} {vs : List Value} {conds : List ValueName}
    (hparts : DecidesList ctx ρ ps vs conds) {next next' : ℕ} {stmts : List Statement}
    {p : Pattern} {selfName c : ValueName} {v : Value} (first : List ValueName)
    (hall : allConditions (first ++ conds) next = (stmts, c, next'))
    (hs : AllSatisfied I hid ρ stmts) (hfirst : ∀ op ∈ first, ρ op = [true])
    (hmatches : p.Matches ctx exact v ↔ MatchesList ctx exact ps vs)
    (hbindings : p.bindings ctx v = bindingsList ctx ps vs) :
    p.Decides ctx ρ selfName v c := by
  obtain ⟨htruth, hlength⟩ := allConditions_spec hall hs
  have hlen : ∀ op ∈ first ++ conds, (ρ op).length = 1 := by
    intro op hop
    rcases List.mem_append.mp hop with hop | hop
    · rw [hfirst op hop]
      rfl
    · exact hparts.length op hop
  have hall_first : first.all (truth ρ) = true :=
    List.all_eq_true.mpr fun op hop => truth_of_eq_singleton (hfirst op hop)
  refine ⟨signal_of_length (hlength fun op hop => hlen op (by simp [hop])) ?_, fun _ h => ?_⟩
  · rw [htruth, List.all_append, hall_first, Bool.true_and, hparts.truth_iff, hmatches]
  · rw [hbindings]
    exact hparts.bindings (hmatches.mp h)

mutual

/-- The statements of a pattern decide whether a value of its type matches. -/
theorem Pattern.decides : ∀ (p : Pattern) (ty : ConcreteType) (t : Ty), p.WellTyped ctx ty →
    ty.toMirType = some t → p.Lowerable ctx → ∀ {selfName c : ValueName} {n n' m m' : ℕ}
    {lowered conditions : List Statement}, p.lower ctx selfName n = some (lowered, n') →
    AllSatisfied I hid ρ lowered → p.condition ctx selfName m = some (conditions, c, m') →
    AllSatisfied I hid ρ conditions → ∀ v : Value, v.Encodes ty (ρ selfName) →
    p.Decides ctx ρ selfName v c
  | .integer id literal, ty, t, hwt, ht, hlow, selfName, c, _, _, m, _, _, _, _, _, hcond, hc, v,
      hv => by
      obtain rfl : ctx.typeOfId id = ty := hwt.typeOfId
      obtain ⟨min, max, hbounds, hliteral, hsize⟩ := hlow
      obtain ⟨k, t', rfl, hmin, hmax, ht', hbits⟩ := encodes_int hbounds hv
      obtain rfl : t = t' := Option.some.inj (ht.symm.trans ht')
      simp only [Pattern.condition, ht, Option.bind_eq_bind, Option.bind_some, Option.some.injEq,
        Prod.mk.injEq] at hcond
      obtain ⟨rfl, rfl, -⟩ := hcond
      rw [AllSatisfied, List.forall_mem_cons] at hc
      have hconst : ρ (.expr (m + 1)) = BitString.ofNat t.size (literal % 2 ^ t.size).toNat := hc.1
      have heq := (hc.2 _ (List.mem_singleton_self _)).trans (I.denote_eq _)
      refine ⟨⟨_, heq, ?_⟩, fun _ _ => by simp [Pattern.bindings]⟩
      have hpow : (0 : ℤ) < 2 ^ t.size := Int.pow_pos (by decide)
      have hlt : ∀ a : ℤ, (a % 2 ^ t.size).toNat < 2 ^ t.size := by
        intro a
        have := Int.emod_lt_of_pos a hpow
        have := Int.emod_nonneg a hpow.ne'
        have : ((2 ^ t.size : ℕ) : ℤ) = 2 ^ t.size := by simp
        omega
      rw [beq_iff_eq, hconst, hbits, BitString.toNat_ofNat_of_lt (hlt k),
        BitString.toNat_ofNat_of_lt (hlt literal)]
      constructor
      · intro h
        refine int_bits_injective hbounds ht (hsize t ht) ⟨hmin, hmax⟩ hliteral ?_
        have := Int.emod_nonneg k hpow.ne'
        have := Int.emod_nonneg literal hpow.ne'
        omega
      · rintro h
        rw [show k = literal from h]
  | .bool id b, ty, t, hwt, ht, _, selfName, c, _, _, m, _, _, _, _, _, hcond, hc, v, hv => by
      obtain ⟨-, rfl⟩ := hwt
      obtain ⟨b', rfl, hbits⟩ := encodes_bool hv
      refine ⟨⟨b' == b, ?_, by rw [beq_iff_eq]; exact eq_comm⟩,
        fun _ _ => by simp [Pattern.bindings]⟩
      cases b with
      | true =>
          obtain ⟨rfl, rfl, -⟩ := Option.some.inj hcond
          simpa using hbits
      | false =>
          obtain ⟨rfl, rfl, -⟩ := Option.some.inj hcond
          have hnot := (hc _ (List.mem_singleton_self _)).trans (I.denote_logicalNot _)
          rw [hnot, hbits]
          cases b' <;> rfl
  | .name id n, ty, t, hwt, ht, _, selfName, c, _, _, m, _, _, _, _, _, hcond, hc, v, hv => by
      obtain ⟨rfl, rfl, -⟩ := Option.some.inj hcond
      have hconst : ρ (.expr m) = [true] := hc _ (List.mem_singleton_self _)
      refine ⟨⟨true, hconst, by simp [Pattern.Matches]⟩, fun hself _ => ?_⟩
      obtain rfl : ctx.typeOfId id = ty := hwt
      simpa [Pattern.bindings, ← hself id n rfl] using hv
  | .tuple id inner, ty, t, hwt, ht, hlow, selfName, c, n, _, m, _, _, _, hlower, hl, hcond, hc, v,
      hv => by
      have htype : ctx.typeOfId id = ty := hwt.typeOfId
      obtain ⟨types, rfl, hinner⟩ := wellTyped_tuple hwt
      obtain ⟨ts, rfl, hts⟩ := toMirType_tuple ht
      obtain ⟨vs, parts, rfl, hparts, hbits⟩ := encodes_tuple hv
      simp only [Pattern.lower, htype, ht, Option.bind_eq_bind, Option.bind_some] at hlower
      simp only [Pattern.condition, List.isEmpty_iff, hlow.1, if_false, Option.bind_eq_bind,
        Option.bind_eq_some_iff, Option.some.injEq, Prod.exists, Prod.mk.injEq] at hcond
      obtain ⟨statements, conds, k, hsub, rfl, rfl, -⟩ := hcond
      rw [AllSatisfied, List.forall_mem_append] at hc
      have hmap := tuple_parts hinner hts hparts hbits hlower hl
      exact decides_of_parts (decides_list inner types ts hinner hts hlow.2
        (fun p hp => by
          obtain ⟨j, hj⟩ := List.mem_iff_getElem?.mp hp
          exact (lowerFields_spec hlower hl hj).2) hsub hc.1 vs (hmap ▸ hparts))
        [] rfl hc.2 (by simp) Iff.rfl rfl
  | .array id inner, ty, t, hwt, ht, hlow, selfName, c, n, _, m, _, _, _, hlower, hl, hcond, hc, v,
      hv => by
      obtain ⟨type, rfl, hinner⟩ := wellTyped_array hwt
      obtain ⟨type', rfl, htype⟩ := toMirType_array ht
      obtain ⟨vs, parts, rfl, hparts, hbits⟩ := encodes_array hv
      simp only [Pattern.condition, List.isEmpty_iff, hlow.1, if_false, Option.bind_eq_bind,
        Option.bind_eq_some_iff, Option.some.injEq, Prod.exists, Prod.mk.injEq] at hcond
      obtain ⟨statements, conds, k, hsub, rfl, rfl, -⟩ := hcond
      rw [AllSatisfied, List.forall_mem_append] at hc
      have hmap := array_parts hinner htype hparts hbits hlower hl
      exact decides_of_parts (decides_list inner _ _ hinner
        (toMirTypes_replicate htype _) hlow.2
        (fun p hp => by
          obtain ⟨j, hj⟩ := List.mem_iff_getElem?.mp hp
          exact (lowerFields_spec hlower hl hj).2) hsub hc.1 vs (hmap ▸ hparts))
        [] rfl hc.2 (by simp) Iff.rfl rfl
  | .type id path targets args, ty, t, hwt, ht, hlow, selfName, c, n, _, m, _, _, _, hlower, hl,
      hcond, hc, v, hv => by
      have htype : ctx.typeOfId id = ty := hwt.typeOfId
      simp only [Pattern.lower, Pattern.condition, htype, ht, Option.bind_eq_bind,
        Option.bind_some, Option.bind_eq_some_iff, Option.some.injEq, Prod.exists,
        Prod.mk.injEq] at hlower hcond
      obtain ⟨statements, conds, k, hsub, rfl, rfl, -⟩ := hcond
      rw [AllSatisfied, List.forall_mem_append, List.forall_mem_cons] at hc
      obtain ⟨⟨hfirst, hsubs⟩, hall⟩ := hc
      cases hkind : ctx.patternableTypeById path with
      | «struct» =>
          obtain ⟨members, rfl, htargets, hpath, hnodup, hargs⟩ := wellTyped_struct hkind hwt
          obtain ⟨ms, rfl, hms⟩ := toMirType_struct ht
          obtain ⟨vs, parts, rfl, hparts, hbits⟩ := encodes_struct hv
          simp only [hkind] at hlower hfirst
          have hmap := struct_parts hargs hms hpath hnodup (by simp [htargets]) hparts hbits hlower
            hl
          have hconst : ρ (.expr (m + 1)) = [true] := hfirst
          exact decides_of_parts (decides_list args _ _ hargs hms hlow.1
            (fun p hp => by
              obtain ⟨j, hj⟩ := List.mem_iff_getElem?.mp hp
              exact (lowerFields_spec hlower hl hj).2) hsub hsubs vs (hmap ▸ hparts))
            [.expr (m + 1)] rfl hall (by simpa using hconst) (by simp [Pattern.Matches, hkind]) rfl
      | «enum» =>
          obtain ⟨options, types, rfl, htypes, hargs⟩ := wellTyped_enum hkind hwt
          obtain ⟨os, rfl, hos⟩ := toMirType_enum ht
          obtain ⟨hlen, hget⟩ := toMirOptions_get hos
          obtain ⟨ts, hoption, hts⟩ := hget _ _ htypes
          obtain ⟨option, vs, types', t', parts, padding, rfl, htypes', ht', hparts, hbits,
            hlength⟩ := encodes_enum hv
          obtain rfl : Ty.enum os = t' := Option.some.inj (ht.symm.trans ht')
          have hlow' := hlow.2
          simp only [hkind] at hlower hfirst hlow'
          obtain ⟨hsize, hsound⟩ := hlow' os ts (htype ▸ ht) hoption
          have hw : ctx.enumVariantById path < os.length := (List.getElem?_eq_some_iff.mp hoption).1
          have hlt : option < os.length := hlen ▸ (List.getElem?_eq_some_iff.mp htypes').1
          have htag : ρ (.expr (m + 1)) = [ctx.enumVariantById path == option] := by
            have hdenote := Eq.trans hfirst (I.denote_isEnumVariant _ hw hsize hlength)
            rw [hdenote, hbits, ← hlen, List.take_left' (BitString.length_ofNat _ _),
              BitString.toNat_ofNat_of_lt (lt_two_pow_tagSize hlt)]
          by_cases hvariant : option = ctx.enumVariantById path
          · subst hvariant
            obtain rfl : types = types' := Option.some.inj (htypes.symm.trans htypes')
            have hmap := enum_parts hargs hts hoption hsound hparts
              (by rw [BitString.length_ofNat]) (hlen ▸ hbits) hlength hlower hl
            exact decides_of_parts (decides_list args _ _ hargs hts
              hlow.1 (fun p hp => by
                obtain ⟨j, hj⟩ := List.mem_iff_getElem?.mp hp
                exact (lowerFields_spec hlower hl hj).2) hsub hsubs vs (hmap ▸ hparts))
              [.expr (m + 1)] rfl hall (by simpa using htag) (by simp [Pattern.Matches, hkind]) rfl
          · have hfalse : ¬ (Pattern.type id path targets args).Matches ctx exact
                (.variant option vs) := by
              simp [Pattern.Matches, hkind, hvariant]
            generalize hresult : allConditions (.expr (m + 1) :: conds) k = result at hall ⊢
            obtain ⟨extra, c, k'⟩ := result
            obtain ⟨htruth, hlength'⟩ := allConditions_spec hresult hall
            refine ⟨signal_of_length (hlength' fun op hop => ?_) ?_, fun _ h => (hfalse h).elim⟩
            · obtain ⟨rfl, -⟩ := List.cons.inj hop
              rw [htag]
              rfl
            · rw [htruth, List.all_cons, truth_of_eq_singleton htag]
              simp [hfalse, Ne.symm hvariant]

theorem decides_list : ∀ (ps : List Pattern) (types : List ConcreteType) (ts : List Ty),
    WellTypedList ctx ps types → toMirTypes types = some ts → LowerableList ctx ps →
    (∀ p ∈ ps, ∃ n s n', p.lower ctx p.valueName n = some (s, n') ∧ AllSatisfied I hid ρ s) →
    ∀ {m m' : ℕ} {conditions : List Statement} {conds : List ValueName},
    subConditions ctx ps m = some (conditions, conds, m') → AllSatisfied I hid ρ conditions →
    ∀ vs : List Value, EncodesList vs types (ps.map fun p => ρ p.valueName) →
    DecidesList ctx ρ ps vs conds
  | [], [], _, _, _, _, _, _, _, _, _, hsub, _, vs, hvs => by
      obtain ⟨rfl, rfl, -⟩ := Option.some.inj hsub
      cases vs with
      | nil => exact ⟨by simp, by simp [MatchesList], by simp [bindingsList]⟩
      | cons v vs => exact hvs.elim
  | _ :: _, [], _, h, _, _, _, _, _, _, _, _, _, _, _ => h.elim
  | [], _ :: _, _, h, _, _, _, _, _, _, _, _, _, _, _ => h.elim
  | p :: ps, ty :: types, ts, h, hts, hlow, hlower, m, _, _, conds, hsub, hs, vs, hvs => by
      obtain ⟨t, ts', rfl, ht, hts⟩ := toMirTypes_cons hts
      simp only [subConditions, Option.bind_eq_bind, Option.bind_eq_some_iff, Option.some.injEq,
        Prod.exists, Prod.mk.injEq] at hsub
      obtain ⟨statements, c, k, hcond, rest, conds, k', hrest, rfl, rfl, -⟩ := hsub
      rw [AllSatisfied, List.forall_mem_append] at hs
      obtain ⟨n, lowered, n', hplower, hplowered⟩ := hlower p List.mem_cons_self
      cases vs with
      | nil => exact hvs.elim
      | cons v vs =>
          have hhead := Pattern.decides p ty t h.1 ht hlow.1 hplower hplowered hcond hs.1 v hvs.1
          have htail := decides_list ps types ts' h.2 hts hlow.2
            (fun q hq => hlower q (List.mem_cons_of_mem _ hq)) hrest hs.2 vs hvs.2
          refine ⟨?_, ?_, fun hm => ?_⟩
          · exact List.forall_mem_cons.mpr ⟨hhead.length, htail.length⟩
          · rw [List.all_cons, Bool.and_eq_true, hhead.truth_iff, htail.truth_iff]
            rfl
          · rw [bindingsList, List.forall_mem_append]
            refine ⟨hhead.bindings ?_ hm.1, htail.bindings hm.2⟩
            rintro id n rfl
            rfl

end

end Meaning

end Spade.Hir

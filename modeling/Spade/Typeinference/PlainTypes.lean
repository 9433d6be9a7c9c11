import Spade.Typeinference.Shape
import Spade.Typeinference.Solutions

/-!
# Plain types

The types that unification can handle in either order: types over declared types whose unknown parts
are numbers (`Sized`), and unknown types whose traits have no parameters.

* **Lookup** (`InPlay.check`): plain types are looked up to plain types.
* **Replacement** (`PlainState.replace`, `PlainState.fresh`): what unification replaces leaves the
  other types plain.
-/

namespace Spade.Typeinference

/-! ### Types -/

/-- Whether the known type is one of the language, or has been declared. -/
def Context.Declares (ctx : Context) : KnownType → Prop
  | .named name => ctx.typeSymbol name = some .declared
  | _ => True

/-- A number at the type level: an integer, or an unknown one without traits. -/
def TypeVar.IsSize : TypeVar → Prop
  | .known (.integer _) [] => True
  | .unknown _ [] .int => True
  | .unknown _ [] .uint => True
  | _ => False

/-- No trait has parameters. -/
def NoTraitParams (traits : List TraitReq) : Prop := ∀ req ∈ traits, req.typeParams = []

/-- The id of an unknown type is below the bound. -/
def TypeVar.IdBelow (bound : ℕ) : TypeVar → Prop
  | .known _ _ => True
  | .unknown id _ _ => id < bound

section types

variable (ctx : Context) (vars : Set TypeVar)

/-- A type of a bounded depth whose unknown parts are numbers among the variables. -/
inductive Sized : ℕ → TypeVar → Prop where
  | integer (depth : ℕ) (val : ℤ) : Sized depth (.known (.integer val) [])
  | unknown {depth id : ℕ} {metaType : MetaType} (hmeta : metaType = .int ∨ metaType = .uint)
      (hvar : .unknown id [] metaType ∈ vars) : Sized depth (.unknown id [] metaType)
  | known {depth : ℕ} {base : KnownType} {params : List TypeVar} (hbase : ctx.Declares base)
      (hinteger : ∀ val, base ≠ .integer val) (hparams : ∀ p ∈ params, Sized depth p) :
      Sized (depth + 1) (.known base params)

/-- An unknown type without parameters of traits, or a type whose unknown parts are numbers. -/
def InPlay (depth : ℕ) (t : TypeVar) : Prop :=
  Sized ctx vars depth t ∨
    ∃ id traits, t = .unknown id traits .type ∧ NoTraitParams traits ∧ t ∈ vars

variable {ctx vars}

theorem Sized.mono {vars' : Set TypeVar} (hvars : vars ⊆ vars') {depth depth' : ℕ} {t : TypeVar}
    (h : Sized ctx vars depth t) (hle : depth ≤ depth') : Sized ctx vars' depth' t := by
  induction h generalizing depth' with
  | integer => exact .integer _ _
  | unknown hmeta hvar => exact .unknown hmeta (hvars hvar)
  | known hbase hinteger hparams ih =>
      obtain ⟨d, rfl⟩ : ∃ d, depth' = d + 1 := ⟨depth' - 1, by omega⟩
      exact .known hbase hinteger fun p hp => ih p hp (by omega)

theorem InPlay.mono {vars' : Set TypeVar} (hvars : vars ⊆ vars') {depth : ℕ} {t : TypeVar}
    (h : InPlay ctx vars depth t) : InPlay ctx vars' depth t := by
  rcases h with h | ⟨id, traits, rfl, hparams, hmem⟩
  · exact .inl (h.mono hvars le_rfl)
  · exact .inr ⟨id, traits, rfl, hparams, hvars hmem⟩

/-- A number among the types in play is a type of depth zero. -/
theorem InPlay.sized {depth depth' : ℕ} {t : TypeVar} (h : InPlay ctx vars depth t)
    (hsize : t.IsSize) : Sized ctx vars depth' t := by
  rcases h with h | ⟨id, traits, rfl, -, -⟩
  · cases h with
    | integer => exact .integer _ _
    | unknown hmeta hvar => exact .unknown hmeta hvar
    | @known _ base params _ hinteger _ =>
        cases base with
        | integer val => exact absurd rfl (hinteger val)
        | _ => exact hsize.elim
  · cases traits <;> exact hsize.elim

/-- Types whose unknown parts are numbers are given by their shapes. -/
theorem Sized.eq_of_shape {depth depth' : ℕ} {t u : TypeVar} (ht : Sized ctx vars depth t)
    (hu : Sized ctx vars depth' u) (h : t.shape = u.shape) : t = u := by
  induction ht generalizing u depth' with
  | integer depth val =>
      cases hu with
      | integer => simpa [TypeVar.shape, TypeVar.shapes] using h
      | unknown => cases h
      | known hbase hinteger =>
          rw [TypeVar.shape, TypeVar.shape, Shape.known.injEq] at h
          exact absurd h.1.symm (hinteger val)
  | unknown hmeta hvar =>
      cases hu with
      | integer => cases h
      | unknown =>
          rw [TypeVar.shape, TypeVar.shape, Shape.unknown.injEq] at h
          rw [h.1, h.2.2]
      | known => cases h
  | @known depth base params hbase hinteger hparams ih =>
      cases hu with
      | integer depth val =>
          rw [TypeVar.shape, TypeVar.shape, Shape.known.injEq] at h
          exact absurd h.1 (hinteger val)
      | unknown => cases h
      | @known depth' base' params' _ _ hparams' =>
          rw [TypeVar.shape, TypeVar.shape, Shape.known.injEq, TypeVar.shapes_eq,
            TypeVar.shapes_eq] at h
          have hlists : params = params' := by
            obtain ⟨-, hshapes⟩ := h
            clear hbase hparams
            induction params generalizing params' with
            | nil => exact (List.map_eq_nil_iff.mp hshapes.symm).symm
            | cons p params ihparams =>
                cases params' with
                | nil => cases hshapes
                | cons p' params' =>
                    rw [List.map_cons, List.map_cons, List.cons.injEq] at hshapes
                    rw [List.forall_mem_cons] at ih hparams'
                    rw [ih.1 hparams'.1 hshapes.1, ihparams ih.2 hparams'.2 hshapes.2]
          rw [h.1, hlists]

end types

/-! ### States -/

/-- Only unknown types and generic arguments have been replaced, and the ids of unknown types are
below the next one. -/
structure WellFormed (ctx : Context) (s : TypeState) : Prop where
  known : ∀ base params, ctx.Declares base → s.replacements.get (.known base params) = none
  constraints : ∀ c ∈ s.constraints, c.1.IdBelow s.nextTypeid
  replacements : ∀ r ∈ s.replacements, r.1.IdBelow s.nextTypeid ∧ r.2.IdBelow s.nextTypeid

/-- The variables have been replaced by plain types, and numbers by numbers. -/
structure PlainState (ctx : Context) (vars : Set TypeVar) (depth : ℕ) (s : TypeState) : Prop where
  wellFormed : WellFormed ctx s
  below : ∀ v ∈ vars, v.IdBelow s.nextTypeid
  get : ∀ v ∈ vars, ∀ new, s.replacements.get v = some new →
    InPlay ctx vars depth new ∧ (v.IsSize → new.IsSize)

section states

variable {ctx : Context} {vars : Set TypeVar} {depth d : ℕ} {s : TypeState} {t : TypeVar}

theorem checkAll_eq (replacements : Replacements) (ts : List TypeVar) :
    TypeVar.checkAll replacements ts = ts.map (TypeVar.check replacements) := by
  induction ts with
  | nil => rfl
  | cons t ts ih => rw [TypeVar.checkAll, ih, List.map_cons]

theorem NoTraitParams.checkAll {traits : List TraitReq} (h : NoTraitParams traits)
    (replacements : Replacements) : TraitReq.checkAll replacements traits = traits := by
  induction traits with
  | nil => rfl
  | cons req traits ih =>
      obtain ⟨hreq, htraits⟩ := List.forall_mem_cons.mp h
      cases req with
      | mk name typeParams =>
          obtain rfl : typeParams = [] := hreq
          rw [TraitReq.checkAll, TraitReq.check, TypeVar.checkAll, ih htraits]

theorem Sized.check (hs : PlainState ctx vars depth s) (h : Sized ctx vars d t) :
    Sized ctx vars d (t.check s.replacements) := by
  induction h with
  | integer d val =>
      rw [TypeVar.check, hs.wellFormed.known (.integer val) [] trivial]
      exact .integer d val
  | @unknown d id metaType hmeta hvar =>
      rw [TypeVar.check]
      cases hget : s.replacements.get (.unknown id [] metaType) with
      | none => exact .unknown hmeta hvar
      | some new =>
          obtain ⟨hplay, hsize⟩ := hs.get _ hvar new hget
          refine hplay.sized (hsize ?_)
          rcases hmeta with rfl | rfl <;> trivial
  | @known d base params hbase hinteger hparams ih =>
      rw [TypeVar.check, hs.wellFormed.known _ _ hbase, checkAll_eq]
      exact .known hbase hinteger (List.forall_mem_map.mpr ih)

theorem InPlay.check (hs : PlainState ctx vars depth s) (h : InPlay ctx vars depth t) :
    InPlay ctx vars depth (t.check s.replacements) := by
  rcases h with h | ⟨id, traits, rfl, hparams, hvar⟩
  · exact .inl (h.check hs)
  · rw [TypeVar.check]
    cases hget : s.replacements.get (.unknown id traits .type) with
    | none =>
        refine .inr ⟨id, _, rfl, ?_, ?_⟩ <;> rw [hparams.checkAll]
        · exact hparams
        · exact hvar
    | some new => exact (hs.get _ hvar new hget).1

/-- A type that has been replaced is unknown to the new types. -/
theorem TypeVar.IdBelow.replace {bound : ℕ} {old new : TypeVar} (h : t.IdBelow bound)
    (hnew : new.IdBelow bound) : (t.replace old new).IdBelow bound := by
  cases t with
  | known base params =>
      rw [TypeVar.replace]
      split_ifs
      · exact hnew
      · trivial
  | unknown id traits metaType =>
      rw [TypeVar.replace]
      split_ifs
      · exact hnew
      · exact h

theorem TypeVar.IdBelow.mono {bound bound' : ℕ} (h : t.IdBelow bound) (hle : bound ≤ bound') :
    t.IdBelow bound' := by
  cases t with
  | known base params => trivial
  | unknown id traits metaType => exact Nat.lt_of_lt_of_le h hle

theorem TypeVar.IsSize.metaType_of_same (h : t.IsSize) {id : ℕ} {traits : List TraitReq}
    {metaType : MetaType} (hsame : TypeVar.same (.unknown id traits metaType) t = true) :
    metaType = .int ∨ metaType = .uint := by
  cases t with
  | known base params => cases hsame
  | unknown id' traits' metaType' =>
      rw [TypeVar.same, Bool.and_eq_true, beq_iff_eq, beq_iff_eq] at hsame
      rw [hsame.2]
      cases traits' <;> cases metaType' <;> first | exact h.elim | simp

/-- A type with a new id has not been replaced. -/
theorem WellFormed.get_eq_none (h : WellFormed ctx s) {id : ℕ} (hid : s.nextTypeid ≤ id)
    {traits : List TraitReq} {metaType : MetaType} :
    s.replacements.get (.unknown id traits metaType) = none := by
  rw [Option.eq_none_iff_forall_ne_some]
  intro new hget
  obtain ⟨r, hr, hsame, -⟩ := Replacements.get_mem hget
  have hbelow := (h.replacements r hr).1
  cases hold : r.1 with
  | known base params =>
      rw [hold] at hsame
      cases hsame
  | unknown id' traits' metaType' =>
      rw [hold] at hsame hbelow
      rw [TypeVar.same, Bool.and_eq_true, beq_iff_eq] at hsame
      exact absurd (hsame.1 ▸ hbelow : id < s.nextTypeid) (by omega)

/-- An unknown type is replaced. -/
theorem WellFormed.replace (h : WellFormed ctx s) {id : ℕ} {traits : List TraitReq}
    {metaType : MetaType} (hid : id < s.nextTypeid) {new : TypeVar}
    (hnew : new.IdBelow s.nextTypeid) :
    WellFormed ctx (s.replace (.unknown id traits metaType) new) where
  known base params hbase := h.known base params hbase
  constraints c hc := by
    obtain ⟨c', hmem, rfl⟩ := List.mem_map.mp hc
    exact (h.constraints c' hmem).replace hnew
  replacements r hr := by
    rcases List.mem_cons.mp hr with rfl | hr
    · exact ⟨hid, hnew⟩
    · exact h.replacements r hr

theorem PlainState.replace (h : PlainState ctx vars depth s) {id : ℕ} {traits : List TraitReq}
    {metaType : MetaType} (hid : id < s.nextTypeid) {new : TypeVar}
    (hbelow : new.IdBelow s.nextTypeid) (hnew : InPlay ctx vars depth new)
    (hsize : metaType = .int ∨ metaType = .uint → new.IsSize) :
    PlainState ctx vars depth (s.replace (.unknown id traits metaType) new) where
  wellFormed := h.wellFormed.replace hid hbelow
  below := h.below
  get v hv new' hget := by
    change Replacements.get (_ :: _) v = _ at hget
    rw [Replacements.get_cons] at hget
    split_ifs at hget with hsame
    · obtain rfl := Option.some.inj hget
      exact ⟨hnew, fun hv => hsize (hv.metaType_of_same hsame)⟩
    · exact h.get v hv new' hget

/-- An unknown type is made. -/
theorem PlainState.fresh (h : PlainState ctx vars depth s) (traits traits' : List TraitReq)
    (metaType : MetaType) :
    PlainState ctx
      (vars ∪ {.unknown s.nextTypeid traits metaType, .unknown s.nextTypeid traits' metaType}) depth
      { s with nextTypeid := s.nextTypeid + 1 } where
  wellFormed := by
    refine ⟨h.wellFormed.known, fun c hc => ?_, fun r hr => ?_⟩
    · exact (h.wellFormed.constraints c hc).mono (Nat.le_succ _)
    · obtain ⟨hold, hnew⟩ := h.wellFormed.replacements r hr
      exact ⟨hold.mono (Nat.le_succ _), hnew.mono (Nat.le_succ _)⟩
  below v hv := by
    rcases hv with hv | rfl | rfl
    · exact (h.below v hv).mono (Nat.le_succ _)
    · exact Nat.lt_succ_self _
    · exact Nat.lt_succ_self _
  get v hv new hget := by
    have hnone : ∀ traits, s.replacements.get (.unknown s.nextTypeid traits metaType) = none :=
      fun _ => h.wellFormed.get_eq_none le_rfl
    rcases hv with hv | rfl | rfl
    · obtain ⟨hplay, hsize⟩ := h.get v hv new hget
      exact ⟨hplay.mono Set.subset_union_left, hsize⟩
    · exact absurd hget (by simp [hnone])
    · exact absurd hget (by simp [hnone])

end states

end Spade.Typeinference

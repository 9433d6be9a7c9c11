import Spade.Typeinference.Inversion

/-!
# Instantiation of generic structs

The substitution of arguments into the declaration of a generic struct, and when it gives the same
concrete type as concretising the struct at the arguments.

* **Termination** (`WellKinded.exists_concrete`): the concretisation of a well-kinded type over
  non-recursive declarations returns.
* **Instantiation** (`concrete_instantiate_iff`): the two agree exactly when no argument with a port
  stands under an odd number of inversions in a field.
* **Laws** (`inversion_laws`): this, and what inversion does to types without generic arguments.
-/

namespace Spade.Typeinference

open Hir

/-! ### Substitution -/

/-- What stands for a generic argument as an expression. -/
def argumentExpr (args : NameID → Option TypeExpression) (spec result : TypeSpec) :
    TypeExpression :=
  match spec with
  | .generic name => (args name).getD (.typeSpec (.generic name))
  | _ => .typeSpec result

mutual

/-- The specification with the arguments in the place of the generic arguments. -/
def substSpec (args : NameID → Option TypeExpression) : TypeSpec → TypeSpec
  | .declared name params => .declared name (substExprs args params)
  | .generic name =>
      match args name with
      | some (.typeSpec s) => s
      | _ => .generic name
  | .tuple inner => .tuple (substSpecs args inner)
  | .array inner size => .array (substSpec args inner) (substExpr args size)
  | .unit => .unit
  | .backward inner => .backward (substSpec args inner)
  | .inverted inner => .inverted (substSpec args inner)
  | .wire inner => .wire (substSpec args inner)
  | .traitSelf => .traitSelf
  | .wildcard => .wildcard

def substExpr (args : NameID → Option TypeExpression) : TypeExpression → TypeExpression
  | .integer val => .integer val
  | .typeSpec inner => argumentExpr args inner (substSpec args inner)
  | .constGeneric g => .constGeneric g

def substSpecs (args : NameID → Option TypeExpression) : List TypeSpec → List TypeSpec
  | [] => []
  | s :: inner => substSpec args s :: substSpecs args inner

def substExprs (args : NameID → Option TypeExpression) : List TypeExpression → List TypeExpression
  | [] => []
  | e :: params => substExpr args e :: substExprs args params

end

theorem substSpecs_eq (args : NameID → Option TypeExpression) (inner : List TypeSpec) :
    substSpecs args inner = inner.map (substSpec args) := by
  induction inner with
  | nil => rfl
  | cons s inner ih => rw [substSpecs, ih, List.map_cons]

theorem substExprs_eq (args : NameID → Option TypeExpression) (params : List TypeExpression) :
    substExprs args params = params.map (substExpr args) := by
  induction params with
  | nil => rfl
  | cons e params ih => rw [substExprs, ih, List.map_cons]

/-- The declaration of a struct with the arguments substituted into the types of its fields. -/
def instantiate (decl : TypeDeclaration) (args : List TypeExpression) : TypeDeclaration where
  kind :=
    match decl.kind with
    | .struct members =>
        .struct (members.map fun m => (m.1, substSpec (genericSubs decl.genericArgs args) m.2))
    | kind => kind
  genericArgs := []

/-! ### Depth -/

theorem typeSpecToConcrete_mono {types : NameID → Option TypeDeclaration} {depth depth' : ℕ}
    (hdecl : ∀ {decl ps invert c}, typeDeclToConcrete types depth decl ps invert = some c →
      typeDeclToConcrete types depth' decl ps invert = some c)
    {spec : TypeSpec} {subs : NameID → Option ConcreteType} {invert : Bool} {c : ConcreteType}
    (h : typeSpecToConcrete types depth subs invert spec = some c) :
    typeSpecToConcrete types depth' subs invert spec = some c := by
  induction spec using TypeSpec.specInduction generalizing invert c with
  | declared name params ih =>
      obtain ⟨decl, ps, hget, hps, hc⟩ := typeSpecToConcrete_declared.mp h
      refine typeSpecToConcrete_declared.mpr ⟨decl, ps, hget, ?_, hdecl hc⟩
      refine forall₂_imp_of_mem hps fun e he p hp => ?_
      cases e with
      | integer v => exact hp
      | typeSpec s => exact ih s he hp
      | constGeneric g => exact absurd hp (by simp [typeExprToConcrete, typeExprWith])
  | generic name => exact h
  | tuple inner ih =>
      obtain ⟨cs, hcs, rfl⟩ := typeSpecToConcrete_tuple.mp h
      exact typeSpecToConcrete_tuple.mpr
        ⟨cs, forall₂_imp_of_mem hcs fun s hs c hc => ih s hs hc, rfl⟩
  | array inner size ih ihsize =>
      obtain ⟨x, n, hn, hx, rfl⟩ := typeSpecToConcrete_array.mp h
      refine typeSpecToConcrete_array.mpr ⟨x, n, ?_, ih hx, rfl⟩
      cases size with
      | integer v => exact hn
      | typeSpec s => exact ihsize s rfl hn
      | constGeneric g => exact absurd hn (by simp [typeExprToConcrete, typeExprWith])
  | backward inner ih =>
      obtain ⟨x, hx, rfl⟩ := typeSpecToConcrete_backward.mp h
      exact typeSpecToConcrete_backward.mpr ⟨x, ih hx, rfl⟩
  | inverted inner ih => exact ih h
  | wire inner ih =>
      obtain ⟨x, hx, rfl⟩ := typeSpecToConcrete_wire.mp h
      exact typeSpecToConcrete_wire.mpr ⟨x, ih hx, rfl⟩
  | unit => exact absurd h (by simp [typeSpecToConcrete, typeSpecWith])
  | traitSelf => exact absurd h (by simp [typeSpecToConcrete, typeSpecWith])
  | wildcard => exact absurd h (by simp [typeSpecToConcrete, typeSpecWith])

/-- More depth does not change the result. -/
theorem typeDeclToConcrete_mono {types : NameID → Option TypeDeclaration} {depth depth' : ℕ}
    (hle : depth ≤ depth') {decl : TypeDeclaration} {ps : List ConcreteType} {invert : Bool}
    {c : ConcreteType} (h : typeDeclToConcrete types depth decl ps invert = some c) :
    typeDeclToConcrete types depth' decl ps invert = some c := by
  induction depth generalizing depth' decl ps invert c with
  | zero => exact absurd h (by simp [typeDeclToConcrete])
  | succ depth ih =>
      obtain ⟨depth', rfl⟩ : ∃ d, depth' = d + 1 := ⟨depth' - 1, by omega⟩
      have hspec : ∀ {spec subs invert c}, typeSpecToConcrete types depth subs invert spec = some c →
          typeSpecToConcrete types depth' subs invert spec = some c := fun h =>
        typeSpecToConcrete_mono (ih (by omega)) h
      rw [typeDeclToConcrete_succ] at h ⊢
      refine ⟨h.1, ?_⟩
      obtain ⟨-, h⟩ := h
      rcases hkind : decl.kind with options | base | members <;> simp only [hkind] at h ⊢
      · obtain ⟨css, hcss, rfl⟩ := h
        exact ⟨css, hcss.imp fun types' cs hcs => hcs.imp fun s c hc => hspec hc, rfl⟩
      · exact h
      · obtain ⟨cs, hcs, rfl⟩ := h
        exact ⟨cs, hcs.imp fun m c hc => ⟨hc.1, hspec hc.2⟩, rfl⟩

/-! ### Kinds -/

/-- The expression fits where a number, or a type, is expected, over generic arguments of the given
kinds and declared types of a level below the bound. -/
inductive HasKind (types : NameID → Option TypeDeclaration) (level : NameID → ℕ)
    (kinds : NameID → Option Bool) (bound : ℕ) : TypeExpression → Bool → Prop where
  | integer (val : ℤ) : HasKind types level kinds bound (.integer val) true
  | generic {name : NameID} {number : Bool} (h : kinds name = some number) :
      HasKind types level kinds bound (.typeSpec (.generic name)) number
  | declared {name : NameID} {params : List TypeExpression} {decl : TypeDeclaration}
      (hdecl : types name = some decl) (hlevel : level name < bound)
      (hlen : params.length = decl.genericArgs.length)
      (hparams : ∀ (i : ℕ) e (arg : TypeParam), params[i]? = some e → decl.genericArgs[i]? = some arg →
        HasKind types level kinds bound e arg.metaType.isNumber) :
      HasKind types level kinds bound (.typeSpec (.declared name params)) false
  | tuple {inner : List TypeSpec}
      (h : ∀ s ∈ inner, HasKind types level kinds bound (.typeSpec s) false) :
      HasKind types level kinds bound (.typeSpec (.tuple inner)) false
  | array {inner : TypeSpec} {size : TypeExpression}
      (h : HasKind types level kinds bound (.typeSpec inner) false)
      (hsize : HasKind types level kinds bound size true) :
      HasKind types level kinds bound (.typeSpec (.array inner size)) false
  | backward {inner : TypeSpec} (h : HasKind types level kinds bound (.typeSpec inner) false) :
      HasKind types level kinds bound (.typeSpec (.backward inner)) false
  | inverted {inner : TypeSpec} (h : HasKind types level kinds bound (.typeSpec inner) false) :
      HasKind types level kinds bound (.typeSpec (.inverted inner)) false
  | wire {inner : TypeSpec} (h : HasKind types level kinds bound (.typeSpec inner) false) :
      HasKind types level kinds bound (.typeSpec (.wire inner)) false

/-- A declared type at arguments of the right kinds. -/
theorem HasKind.declared_of_forall₂ {types : NameID → Option TypeDeclaration} {level : NameID → ℕ}
    {kinds : NameID → Option Bool} {bound : ℕ} {name : NameID} {decl : TypeDeclaration}
    {args : List TypeExpression} (hdecl : types name = some decl) (hlevel : level name < bound)
    (hargs : List.Forall₂ (fun arg e => HasKind types level kinds bound e arg.metaType.isNumber)
      decl.genericArgs args) :
    HasKind types level kinds bound (.typeSpec (.declared name args)) false := by
  refine .declared hdecl hlevel hargs.length_eq.symm fun i e arg he harg => ?_
  obtain ⟨hi, rfl⟩ := List.getElem?_eq_some_iff.mp he
  obtain ⟨hj, rfl⟩ := List.getElem?_eq_some_iff.mp harg
  exact hargs.get hj hi

/-- The kinds of the generic arguments of a declaration. -/
def declKinds (decl : TypeDeclaration) : NameID → Option Bool :=
  genericSubs decl.genericArgs (decl.genericArgs.map (·.metaType.isNumber))

theorem exists_genericSubs_hasKind {types : NameID → Option TypeDeclaration} {level : NameID → ℕ}
    {kinds : NameID → Option Bool} {bound : ℕ} {decl : TypeDeclaration} {args : List TypeExpression}
    (hargs : List.Forall₂ (fun arg e => HasKind types level kinds bound e arg.metaType.isNumber)
      decl.genericArgs args) {x : NameID} {number : Bool} (hx : declKinds decl x = some number) :
    ∃ e, genericSubs decl.genericArgs args x = some e ∧ HasKind types level kinds bound e number := by
  have hrel : List.Forall₂ (fun number e => HasKind types level kinds bound e number)
      (decl.genericArgs.map (·.metaType.isNumber)) args := List.forall₂_map_left_iff.mpr hargs
  rcases genericSubs_rel hrel decl.genericArgs x with ⟨hnone, -⟩ | ⟨n, -, e, hn, he, hkind⟩
  · exact absurd hx (by rw [declKinds, hnone]; simp)
  · obtain rfl := Option.some.inj (hx.symm.trans hn)
    exact ⟨e, he, hkind⟩

/-- The type list: declarations that are well-kinded and not recursive, since every declaration uses
declarations of lower levels only, and where the members of enums have no ports. -/
structure TypeList where
  decls : NameID → Option TypeDeclaration
  level : NameID → ℕ
  wellKinded : ∀ name decl, decls name = some decl → ∀ field ∈ decl.fields,
    HasKind decls level (declKinds decl) (level name) (.typeSpec field) false
  enumsPortless : EnumsPortless decls

/-- A concrete type of the kind. -/
def OfKind (number : Bool) (c : ConcreteType) : Prop := number = true → ∃ n, c = .integer n

/-- What stands for the generic arguments has their kinds. -/
def SubsOfKind (kinds : NameID → Option Bool) (subs : NameID → Option ConcreteType) : Prop :=
  ∀ x number, kinds x = some number → ∃ c, subs x = some c ∧ OfKind number c

theorem subsOfKind_genericSubs {args : List TypeParam} {ps : List ConcreteType}
    (h : List.Forall₂ (fun arg p => OfKind arg.metaType.isNumber p) args ps) :
    SubsOfKind (genericSubs args (args.map (·.metaType.isNumber))) (genericSubs args ps) := by
  intro x number hx
  have hrel : List.Forall₂ OfKind (args.map (·.metaType.isNumber)) ps :=
    List.forall₂_map_left_iff.mpr h
  rcases genericSubs_rel hrel args x with ⟨hnone, -⟩ | ⟨number', -, p, hnumber, hp, hof⟩
  · exact absurd hnone (by simp [hx])
  · obtain rfl := Option.some.inj (hx.symm.trans hnumber)
    exact ⟨p, hp, hof⟩

/-- Members with concrete types for all fields. -/
theorem exists_members {concrete : TypeSpec → Option ConcreteType}
    {members : List (String × TypeSpec)} (h : ∀ m ∈ members, ∃ c, concrete m.2 = some c) :
    ∃ cs : List (String × ConcreteType),
      List.Forall₂ (fun m c => m.1 = c.1 ∧ concrete m.2 = some c.2) members cs := by
  induction members with
  | nil => exact ⟨[], .nil⟩
  | cons m members ih =>
      rw [List.forall_mem_cons] at h
      obtain ⟨c, hc⟩ := h.1
      obtain ⟨cs, hcs⟩ := ih h.2
      exact ⟨(m.1, c) :: cs, .cons ⟨rfl, hc⟩ hcs⟩

/-- The concretisation of a declaration returns, if the concretisation of its fields does. -/
theorem exists_decl_concrete (types : TypeList) {depth : ℕ}
    (hspec : ∀ {kinds bound e number subs}, bound ≤ depth →
      HasKind types.decls types.level kinds bound e number → SubsOfKind kinds subs → ∀ invert,
      ∃ c, typeExprToConcrete types.decls depth subs invert e = some c ∧ OfKind number c)
    {name : NameID} {decl : TypeDeclaration} (hdecl : types.decls name = some decl)
    (hlevel : types.level name ≤ depth) {ps : List ConcreteType}
    (hps : List.Forall₂ (fun arg p => OfKind arg.metaType.isNumber p) decl.genericArgs ps)
    (invert : Bool) :
    ∃ c, typeDeclToConcrete types.decls (depth + 1) decl ps invert = some c ∧ OfKind false c := by
  have hfield : ∀ field ∈ decl.fields, ∀ invert, ∃ c, typeSpecToConcrete types.decls depth
      (genericSubs decl.genericArgs ps) invert field = some c := fun field hfield invert =>
    (hspec hlevel (types.wellKinded name decl hdecl field hfield) (subsOfKind_genericSubs hps)
      invert).imp fun c hc => hc.1
  have hexists : ∃ c, typeDeclToConcrete types.decls (depth + 1) decl ps invert = some c := by
    simp only [typeDeclToConcrete_succ, hps.length_eq, true_and]
    rcases hkind : decl.kind with options | base | members <;> simp only
    · obtain ⟨css, hcss⟩ := exists_mapM_eq_some fun o ho => exists_mapM_eq_some fun s hs =>
        hfield s (by rw [fields_enum hkind]; exact List.mem_flatten_of_mem ho hs) false
      exact ⟨.enum css, css, (mapM_eq_some_iff.mp hcss).imp fun o cs h => mapM_eq_some_iff.mp h, rfl⟩
    · exact ⟨_, rfl⟩
    · obtain ⟨cs, hcs⟩ := exists_members fun m hm =>
        hfield m.2 (by rw [fields_struct hkind]; exact List.mem_map_of_mem hm) invert
      exact ⟨.struct cs, cs, hcs, rfl⟩
  obtain ⟨c, hc⟩ := hexists
  exact ⟨c, hc, fun h => absurd h (by simp)⟩

/-- The concretisation of a well-kinded type returns. -/
theorem HasKind.exists_concrete (types : TypeList) {kinds : NameID → Option Bool} {bound depth : ℕ}
    {e : TypeExpression} {number : Bool}
    (h : HasKind types.decls types.level kinds bound e number) (hdepth : bound ≤ depth)
    {subs : NameID → Option ConcreteType} (hsubs : SubsOfKind kinds subs) (invert : Bool) :
    ∃ c, typeExprToConcrete types.decls depth subs invert e = some c ∧ OfKind number c := by
  induction depth using Nat.strong_induction_on generalizing kinds bound e number subs invert with
  | _ depth ihdepth =>
    induction h generalizing invert with
    | integer val => exact ⟨.integer val, rfl, fun _ => ⟨val, rfl⟩⟩
    | generic h => exact hsubs _ _ h
    | @declared name params decl hdecl hlevel hlen hparams ih =>
        obtain ⟨d, rfl⟩ : ∃ d, depth = d + 1 := ⟨depth - 1, by omega⟩
        obtain ⟨ps, hps, hkinds⟩ := exists_forall₂_of_getElem? hlen fun i e arg he harg =>
          ih i e arg he harg invert
        obtain ⟨c, hc, hof⟩ := exists_decl_concrete types
          (fun hle h hsubs invert => ihdepth d (Nat.lt_succ_self d) h hle hsubs invert)
          hdecl (by omega) hkinds invert
        exact ⟨c, typeSpecToConcrete_declared.mpr ⟨decl, ps, hdecl, hps, hc⟩, hof⟩
    | tuple h ih =>
        obtain ⟨cs, hcs⟩ := exists_mapM_eq_some fun s hs =>
          (ih s hs invert).imp fun c hc => hc.1
        refine ⟨.tuple cs, ?_, fun h => absurd h (by simp)⟩
        exact typeSpecToConcrete_tuple.mpr ⟨cs, mapM_eq_some_iff.mp hcs, rfl⟩
    | array h hsize ih ihsize =>
        obtain ⟨x, hx, -⟩ := ih invert
        obtain ⟨c, hc, hof⟩ := ihsize invert
        obtain ⟨n, rfl⟩ := hof rfl
        exact ⟨.array x n, typeSpecToConcrete_array.mpr ⟨x, n, hc, hx, rfl⟩,
          fun h => absurd h (by simp)⟩
    | backward h ih =>
        obtain ⟨x, hx, -⟩ := ih invert
        exact ⟨_, typeSpecToConcrete_backward.mpr ⟨x, hx, rfl⟩, fun h => absurd h (by simp)⟩
    | inverted h ih =>
        obtain ⟨x, hx, -⟩ := ih (!invert)
        exact ⟨x, hx, fun h => absurd h (by simp)⟩
    | wire h ih =>
        obtain ⟨x, hx, -⟩ := ih invert
        exact ⟨_, typeSpecToConcrete_wire.mpr ⟨x, hx, rfl⟩, fun h => absurd h (by simp)⟩

/-- A closed expression that fits where a type is expected is a specification. -/
theorem HasKind.substSpec {types : NameID → Option TypeDeclaration} {level : NameID → ℕ}
    {kinds : NameID → Option Bool} {bound : ℕ} {args : NameID → Option TypeExpression}
    {s : TypeSpec}
    (h : HasKind types level kinds bound (substExpr args (.typeSpec s)) false) :
    HasKind types level kinds bound (.typeSpec (substSpec args s)) false := by
  cases s with
  | generic x =>
      rw [Typeinference.substExpr, argumentExpr] at h
      rw [Typeinference.substSpec]
      rcases hx : args x with _ | _ | s | g <;> rw [hx] at h
      · exact h
      · cases h
      · exact h
      · cases h
  | _ => exact h

theorem HasKind.subst {types : NameID → Option TypeDeclaration} {level : NameID → ℕ}
    {kinds : NameID → Option Bool} {bound bound' : ℕ} {args : NameID → Option TypeExpression}
    {e : TypeExpression} {number : Bool} (h : HasKind types level kinds bound e number)
    (hargs : ∀ x m, kinds x = some m → ∃ e', args x = some e' ∧
      HasKind types level (fun _ => none) bound' e' m) (hle : bound ≤ bound') :
    HasKind types level (fun _ => none) bound' (substExpr args e) number := by
  induction h with
  | integer val => exact .integer val
  | generic h =>
      obtain ⟨e', he', hkind⟩ := hargs _ _ h
      rw [substExpr, argumentExpr, he']
      exact hkind
  | @declared name params decl hdecl hlevel hlen hparams ih =>
      refine .declared hdecl (hlevel.trans_le hle) (by rw [substExprs_eq, List.length_map, hlen]) ?_
      intro i e arg he harg
      rw [substExprs_eq, List.getElem?_map] at he
      obtain ⟨e, hparam, rfl⟩ := Option.map_eq_some_iff.mp he
      exact ih i e arg hparam harg
  | tuple h ih =>
      refine .tuple fun s hs => ?_
      rw [substSpecs_eq] at hs
      obtain ⟨s, hmem, rfl⟩ := List.mem_map.mp hs
      exact (ih s hmem).substSpec
  | array h hsize ih ihsize => exact .array ih.substSpec ihsize
  | backward h ih => exact .backward ih.substSpec
  | inverted h ih => exact .inverted ih.substSpec
  | wire h ih => exact .wire ih.substSpec

/-! ### Substituted and concretised arguments -/

theorem Shows.shift {types : NameID → Option TypeDeclaration} {i i' : Bool} {spec : TypeSpec}
    {x : NameID} (h : Shows types i spec x i') (b : Bool) :
    Shows types (i != b) spec x (i' != b) := by
  induction h with
  | generic => exact .generic _ _
  | field hdecl hfield hshows hparam _ _ ih => exact .field hdecl hfield hshows hparam ih
  | primitive hdecl hkind hparam _ ih => exact .primitive hdecl hkind hparam ih
  | tuple hs _ ih => exact .tuple hs ih
  | array _ ih => exact .array ih
  | size _ ih => exact .size ih
  | backward _ ih => exact .backward ih
  | wire _ ih => exact .wire ih
  | @inverted i i' x inner _ ih =>
      have hflag : ((!i) != b) = !(i != b) := by cases i <;> cases b <;> rfl
      rw [hflag] at ih
      exact .inverted ih

section arguments

variable {types : NameID → Option TypeDeclaration} {depth : ℕ}
  {args : NameID → Option TypeExpression} {subs : NameID → Option ConcreteType} {invert₀ : Bool}

/-- What stands for the generic arguments are the concrete types of the arguments. -/
def ConcreteArguments (types : NameID → Option TypeDeclaration) (depth : ℕ)
    (args : NameID → Option TypeExpression) (subs : NameID → Option ConcreteType)
    (invert₀ : Bool) : Prop :=
  ∀ x e, args x = some e → ∃ p, subs x = some p ∧
    typeExprToConcrete types depth (fun _ => none) invert₀ e = some p

theorem concreteArguments_genericSubs {es : List TypeExpression} {ps : List ConcreteType}
    (hps : List.Forall₂ (fun e p => typeExprToConcrete types depth (fun _ => none) invert₀ e = some p)
      es ps) (params : List TypeParam) :
    ConcreteArguments types depth (genericSubs params es) (genericSubs params ps) invert₀ := by
  intro x e he
  rcases genericSubs_rel hps params x with ⟨hnone, -⟩ | ⟨e', -, p, he', hp, hep⟩
  · exact absurd he (by simp [hnone])
  · obtain rfl := Option.some.inj (he.symm.trans he')
    exact ⟨p, hp, hep⟩

/-- A generic argument that is instantiated with a number, or a specification. -/
theorem concrete_argumentExpr {invert : Bool} {s : TypeSpec} {p : ConcreteType}
    (h : typeExprToConcrete types depth (fun _ => none) invert (substExpr args (.typeSpec s)) =
      some p) :
    typeSpecToConcrete types depth (fun _ => none) invert (substSpec args s) = some p ∨
      ∃ x v, s = .generic x ∧ args x = some (.integer v) ∧ p = .integer v := by
  cases s with
  | generic x =>
      rw [substExpr, argumentExpr] at h
      rw [substSpec]
      rcases hx : args x with _ | v | s | g <;> rw [hx] at h
      · exact .inl h
      · exact .inr ⟨x, v, rfl, hx, (Option.some.inj h).symm⟩
      · exact .inl h
      · exact absurd h (by simp [typeExprToConcrete, typeExprWith])
  | _ => exact .inl h

/-- Substitution gives the same concrete type, if the arguments below an odd number of inversions
have no ports. -/
theorem concrete_substSpec (henums : EnumsPortless types)
    (hargs : ConcreteArguments types depth args subs invert₀) {spec : TypeSpec} {invert : Bool}
    {c c' : ConcreteType} (hc : typeSpecToConcrete types depth subs invert spec = some c)
    (hc' : typeSpecToConcrete types depth (fun _ => none) invert (substSpec args spec) = some c')
    (hport : ∀ x i', Shows types invert spec x i' → i' ≠ invert₀ →
      ∀ s, args x = some (.typeSpec s) → ¬ HasPort types s) : c' = c := by
  induction spec using TypeSpec.specInduction generalizing invert c c' with
  | declared name params ih =>
      obtain ⟨decl, ps, hdecl, hps, hc⟩ := typeSpecToConcrete_declared.mp hc
      obtain ⟨decl', ps', hdecl', hps', hc'⟩ := typeSpecToConcrete_declared.mp hc'
      obtain rfl := Option.some.inj (hdecl.symm.trans hdecl')
      rw [substExprs_eq, List.forall₂_map_left_iff] at hps'
      have hparam : ∀ e ∈ params, ∀ p p', typeExprToConcrete types depth subs invert e = some p →
          typeExprToConcrete types depth (fun _ => none) invert (substExpr args e) = some p' →
          (∀ s, e = .typeSpec s → ∀ x i', Shows types invert s x i' →
            Shows types invert (.declared name params) x i') → p' = p := by
        intro e he p p' hp hp' hshows
        cases e with
        | integer v => exact (Option.some.inj hp').symm.trans (Option.some.inj hp)
        | typeSpec s =>
            rcases concrete_argumentExpr hp' with hp' | ⟨x, v, rfl, hx, rfl⟩
            · exact ih s he hp hp' fun x i' h => hport x i' (hshows s rfl x i' h)
            · obtain ⟨p', hsubs, hp'⟩ := hargs x _ hx
              obtain rfl := Option.some.inj (hp.symm.trans hsubs)
              exact Option.some.inj hp'
        | constGeneric g => exact absurd hp (by simp [typeExprToConcrete, typeExprWith])
      have hflip := typeDeclToConcrete_flip (b := false) henums
        (fun d _ spec => flipsAt henums false d spec) hdecl hc hc' ?_ ?_ (.inl (by simp))
      · rw [hflip, ConcreteType.flip_false]
      · intro field hfield x i i' hshows
        rcases genericSubs_rel hps decl.genericArgs x with ⟨he, hp⟩ | ⟨e, hmem, p, he, hp, hep⟩ <;>
          rcases genericSubs_rel hps' decl.genericArgs x with
            ⟨he', hp'⟩ | ⟨e', -, p', he', hp', hep'⟩
        · rw [hp, hp']
          rfl
        · exact absurd he' (by simp [he])
        · exact absurd he' (by simp [he])
        · obtain rfl := Option.some.inj (he.symm.trans he')
          rw [hp, hp', Option.map_some, ConcreteType.flip_false, hparam e hmem p p' hep hep']
          rintro s rfl y j' h
          exact .field hdecl hfield hshows he h
      · intro base hkind
        refine (forall₂_eq_map hps hps' fun e he p p' hp hp' => ?_)
        rw [ConcreteType.flip_false]
        refine hparam e he p p' hp hp' ?_
        rintro s rfl y j' h
        exact .primitive hdecl hkind he h
  | generic x =>
      rw [substSpec] at hc'
      rw [typeSpecToConcrete_generic] at hc
      rcases hx : args x with _ | v | s | g <;> rw [hx] at hc'
      · exact absurd hc' (by simp)
      · exact absurd hc' (by simp)
      · obtain ⟨p, hp, hs⟩ := hargs x _ hx
        obtain rfl := Option.some.inj (hc.symm.trans hp)
        have hflip := @flipsAt types henums false depth s _ _ invert₀ invert _ _ hs hc'
          (fun y i i' _ => rfl) (by
            by_cases heq : invert = invert₀
            · exact .inl (by simp [heq])
            · exact .inr (hport x invert (.generic invert x) heq s hx))
        rw [hflip, ConcreteType.flip_false]
      · exact absurd hc' (by simp)
  | tuple inner ih =>
      obtain ⟨cs, hcs, rfl⟩ := typeSpecToConcrete_tuple.mp hc
      obtain ⟨cs', hcs', rfl⟩ := typeSpecToConcrete_tuple.mp hc'
      rw [substSpecs_eq, List.forall₂_map_left_iff] at hcs'
      have hmap := @forall₂_eq_map _ _ _ _ (fun c => c) _ _ _ hcs hcs' fun s hs a a' ha ha' =>
        ih s hs ha ha' fun x i' h => hport x i' (.tuple hs h)
      rw [hmap, List.map_id']
  | array inner size ih ihsize =>
      obtain ⟨y, n, hn, hy, rfl⟩ := typeSpecToConcrete_array.mp hc
      obtain ⟨y', n', hn', hy', rfl⟩ := typeSpecToConcrete_array.mp hc'
      have hsize : ConcreteType.integer n' = .integer n := by
        cases size with
        | integer v => exact (Option.some.inj hn').symm.trans (Option.some.inj hn)
        | typeSpec s =>
            rcases concrete_argumentExpr hn' with hn' | ⟨x, v, rfl, hx, hv⟩
            · exact ihsize s rfl hn hn' fun x i' h => hport x i' (.size h)
            · obtain ⟨p, hsubs, hp⟩ := hargs x _ hx
              obtain rfl := Option.some.inj (hn.symm.trans hsubs)
              rw [hv]
              exact Option.some.inj hp
        | constGeneric g => exact absurd hn (by simp [typeExprToConcrete, typeExprWith])
      rw [ih hy hy' fun x i' h => hport x i' (.array h), ConcreteType.integer.inj hsize]
  | unit => exact absurd hc (by simp [typeSpecToConcrete, typeSpecWith])
  | backward inner ih =>
      obtain ⟨y, hy, rfl⟩ := typeSpecToConcrete_backward.mp hc
      obtain ⟨y', hy', rfl⟩ := typeSpecToConcrete_backward.mp hc'
      rw [ih hy hy' fun x i' h => hport x i' (.backward h)]
  | inverted inner ih => exact ih hc hc' fun x i' h => hport x i' (.inverted h)
  | wire inner ih =>
      obtain ⟨y, hy, rfl⟩ := typeSpecToConcrete_wire.mp hc
      obtain ⟨y', hy', rfl⟩ := typeSpecToConcrete_wire.mp hc'
      rw [ih hy hy' fun x i' h => hport x i' (.wire h)]
  | traitSelf => exact absurd hc (by simp [typeSpecToConcrete, typeSpecWith])
  | wildcard => exact absurd hc (by simp [typeSpecToConcrete, typeSpecWith])

end arguments

end Spade.Typeinference

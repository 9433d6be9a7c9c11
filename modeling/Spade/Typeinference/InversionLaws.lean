import Spade.Typeinference.Instantiation

/-!
# The laws of inversion

Inversion of ports over non-recursive declarations.

* **Instantiation** (`concrete_instantiate_iff`): concretising a generic struct at arguments agrees
  with concretising its declaration with the arguments substituted exactly when no argument with a
  port stands under an odd number of inversions in a field.
* **Inferred types** (`innerUngenerifyType_eq`): both ways to make a type concrete agree.
* **Laws** (`inversion_laws`): these, with the involution and the exchange of sizes.
-/

namespace Spade.Typeinference

open Hir Mir

/-! ### Instantiation -/

/-- Where a specification is shown, the substituted argument is one. -/
theorem concrete_of_shows {types : NameID → Option TypeDeclaration} {depth : ℕ}
    {args : NameID → Option TypeExpression} {i i' invert : Bool} {s s' : TypeSpec} {x : NameID}
    {p : ConcreteType} (hs : args x = some (.typeSpec s)) (h : Shows types i s' x i')
    (hp : typeExprToConcrete types depth (fun _ => none) invert (substExpr args (.typeSpec s')) =
      some p) :
    typeSpecToConcrete types depth (fun _ => none) invert (substSpec args s') = some p := by
  rcases concrete_argumentExpr hp with hp | ⟨y, v, rfl, hy, -⟩
  · exact hp
  · cases h
    exact absurd hs (by simp [hy])

/-- The arguments of a declared type, and of its instance, with the same concrete type. -/
theorem exists_declared_substSpec {types : NameID → Option TypeDeclaration} {depth : ℕ}
    {args : NameID → Option TypeExpression} {subs : NameID → Option ConcreteType} {i i' : Bool}
    {c : ConcreteType} {name : NameID} {params : List TypeExpression} {decl : TypeDeclaration}
    (hdecl : types name = some decl)
    (hc : typeSpecToConcrete types depth subs i (.declared name params) = some c)
    (hc' : typeSpecToConcrete types depth (fun _ => none) i' (substSpec args (.declared name params)) =
      some c) :
    ∃ d ps ps', depth = d + 1 ∧
      List.Forall₂ (fun e p => typeExprToConcrete types depth subs i e = some p) params ps ∧
      List.Forall₂ (fun e p => typeExprToConcrete types depth (fun _ => none) i' (substExpr args e) =
        some p) params ps' ∧
      typeDeclToConcrete types depth decl ps i = some c ∧
      typeDeclToConcrete types depth decl ps' i' = some c := by
  obtain ⟨decl₁, ps, hdecl₁, hps, hc⟩ := typeSpecToConcrete_declared.mp hc
  obtain ⟨decl₂, ps', hdecl₂, hps', hc'⟩ := typeSpecToConcrete_declared.mp hc'
  obtain rfl := Option.some.inj (hdecl.symm.trans hdecl₁)
  obtain rfl := Option.some.inj (hdecl.symm.trans hdecl₂)
  rw [substExprs_eq, List.forall₂_map_left_iff] at hps'
  cases depth with
  | zero => exact absurd hc (by simp [typeDeclToConcrete])
  | succ d => exact ⟨d, ps, ps', rfl, hps, hps', hc, hc'⟩

/-- An argument with a port below an odd number of inversions makes a difference. -/
theorem concrete_substSpec_ne {types : NameID → Option TypeDeclaration} {depth : ℕ}
    {args : NameID → Option TypeExpression} {subs : NameID → Option ConcreteType} {invert₀ i i' : Bool}
    (hargs : ConcreteArguments types depth args subs invert₀) {spec : TypeSpec} {x : NameID}
    (h : Shows types i spec x i') (hne : i' ≠ invert₀) {s : TypeSpec}
    (hs : args x = some (.typeSpec s)) (hport : HasPort types s) {c : ConcreteType}
    (hc : typeSpecToConcrete types depth subs i spec = some c)
    (hc' : typeSpecToConcrete types depth (fun _ => none) i (substSpec args spec) = some c) :
    False := by
  induction h generalizing c with
  | generic invert x =>
      obtain ⟨p, hp, hsp⟩ := hargs x _ hs
      rw [typeSpecToConcrete_generic] at hc
      obtain rfl := Option.some.inj (hc.symm.trans hp)
      have hflag : invert = !invert₀ := by
        cases invert <;> cases invert₀ <;> simp_all
      rw [substSpec, hs, hflag] at hc'
      exact hport.ne hsp hc'
  | field hdecl hfield hshows hparam h _ ih =>
      obtain ⟨d, ps, ps', rfl, hps, hps', hc, hc'⟩ := exists_declared_substSpec hdecl hc hc'
      obtain ⟨k, k', y, hy, hy'⟩ := exists_field_concrete hc hc' hfield
      obtain ⟨p, hp, hp'⟩ := genericSubs_common hps hps' hparam (hshows.subs_eq hy hy')
      exact ih hne hs hp (concrete_of_shows hs h hp')
  | primitive hdecl hkind hparam h ih =>
      obtain ⟨d, ps, ps', rfl, hps, hps', hc, hc'⟩ := exists_declared_substSpec hdecl hc hc'
      simp only [typeDeclToConcrete_succ, hkind] at hc hc'
      obtain rfl := (ConcreteType.single.inj (hc.2.symm.trans hc'.2)).2
      obtain ⟨p, hp, hp'⟩ := exists_common_of_mem hps hps' hparam
      exact ih hne hs hp (concrete_of_shows hs h hp')
  | tuple hmem _ ih =>
      obtain ⟨cs, hcs, rfl⟩ := typeSpecToConcrete_tuple.mp hc
      obtain ⟨cs', hcs', heq⟩ := typeSpecToConcrete_tuple.mp hc'
      rw [← ConcreteType.tuple.inj heq, substSpecs_eq, List.forall₂_map_left_iff] at hcs'
      obtain ⟨p, hp, hp'⟩ := exists_common_of_mem hcs hcs' hmem
      exact ih hne hs hp hp'
  | array _ ih =>
      obtain ⟨y, n, -, hy, rfl⟩ := typeSpecToConcrete_array.mp hc
      obtain ⟨y', n', -, hy', heq⟩ := typeSpecToConcrete_array.mp hc'
      rw [← (ConcreteType.array.inj heq).1] at hy'
      exact ih hne hs hy hy'
  | size h ih =>
      obtain ⟨y, n, hn, -, rfl⟩ := typeSpecToConcrete_array.mp hc
      obtain ⟨y', n', hn', -, heq⟩ := typeSpecToConcrete_array.mp hc'
      rw [← (ConcreteType.array.inj heq).2] at hn'
      exact ih hne hs hn (concrete_of_shows hs h hn')
  | backward _ ih =>
      obtain ⟨y, hy, rfl⟩ := typeSpecToConcrete_backward.mp hc
      obtain ⟨y', hy', heq⟩ := typeSpecToConcrete_backward.mp hc'
      have hyy : y = y' := by
        split_ifs at heq <;> simpa using heq
      exact ih hne hs hy (hyy ▸ hy')
  | wire _ ih =>
      obtain ⟨y, hy, rfl⟩ := typeSpecToConcrete_wire.mp hc
      obtain ⟨y', hy', heq⟩ := typeSpecToConcrete_wire.mp hc'
      have hyy : y = y' := by
        split_ifs at heq <;> simpa using heq
      exact ih hne hs hy (hyy ▸ hy')
  | inverted _ ih => exact ih hne hs hc hc'

/-- No argument with a port stands under an odd number of inversions in a field. -/
def NoInvertedPort (types : NameID → Option TypeDeclaration) (decl : TypeDeclaration)
    (args : List TypeExpression) : Prop :=
  ∀ field ∈ decl.fields, ∀ x, Shows types false field x true →
    ∀ s, genericSubs decl.genericArgs args x = some (.typeSpec s) → ¬ HasPort types s

/-- Concretising a generic struct at arguments, and concretising its instance. -/
theorem concrete_instantiate_iff (types : TypeList) {name : NameID} {decl : TypeDeclaration}
    {members : List (String × TypeSpec)} (hdecl : types.decls name = some decl)
    (hkind : decl.kind = .struct members) {args : List TypeExpression} {depth depth' : ℕ}
    {invert : Bool} {c c' : ConcreteType}
    (hc : typeSpecToConcrete types.decls depth (fun _ => none) invert (.declared name args) = some c)
    (hc' : typeDeclToConcrete types.decls depth' (instantiate decl args) [] invert = some c') :
    c = c' ↔ NoInvertedPort types.decls decl args := by
  -- both are taken to a common depth
  have hc := typeSpecToConcrete_mono (typeDeclToConcrete_mono (le_max_left depth depth')) hc
  obtain ⟨decl', ps, hdecl', hps, hc⟩ := typeSpecToConcrete_declared.mp hc
  obtain rfl := Option.some.inj (hdecl.symm.trans hdecl')
  have hc := typeDeclToConcrete_mono (Nat.le_succ _) hc
  have hc' := typeDeclToConcrete_mono (show depth' ≤ max depth depth' + 1 by omega) hc'
  have hargs := concreteArguments_genericSubs hps decl.genericArgs
  have hempty : genericSubs (instantiate decl args).genericArgs ([] : List ConcreteType) =
      fun _ => none := rfl
  have hstruct : (instantiate decl args).kind =
      .struct (members.map fun m => (m.1, substSpec (genericSubs decl.genericArgs args) m.2)) := by
    simp only [instantiate, hkind]
  simp only [typeDeclToConcrete_succ, hkind, hstruct, hempty, List.forall₂_map_left_iff] at hc hc'
  obtain ⟨-, cs, hcs, rfl⟩ := hc
  obtain ⟨-, cs', hcs', rfl⟩ := hc'
  rw [NoInvertedPort, fields_struct hkind]
  constructor
  · intro heq field hfield x hshows s hs hport
    obtain ⟨m, hm, rfl⟩ := List.mem_map.mp hfield
    rw [← ConcreteType.struct.inj heq] at hcs'
    obtain ⟨y, hy, hy'⟩ := exists_common_of_mem hcs hcs' hm
    have hshows := hshows.shift invert
    rw [Bool.false_bne] at hshows
    exact concrete_substSpec_ne hargs hshows (by cases invert <;> simp) hs hport hy.2 hy'.2
  · intro hnot
    have hmap := @forall₂_eq_map _ _ _ _ (fun c => c) _ _ _ hcs hcs' fun m hm a a' ha ha' => by
      refine Prod.ext (ha'.1.symm.trans ha.1) ?_
      refine concrete_substSpec types.enumsPortless hargs ha.2 ha'.2 fun x i' h hne s hs => ?_
      have hshows := h.shift invert
      have hflag : (i' != invert) = true := by simpa using hne
      rw [bne_self_eq_false, hflag] at hshows
      exact hnot m.2 (List.mem_map_of_mem hm) x hshows s hs
    rw [hmap, List.map_id']

/-! ### Inferred types -/

theorem innerUngenerifyTypes_eq {types : NameID → Option TypeDeclaration} {depth : ℕ}
    {invert : Bool} (vars : List TypeVar) : innerUngenerifyTypes types depth invert vars =
      vars.mapM (innerUngenerifyType types depth invert) := by
  induction vars with
  | nil => rfl
  | cons var vars ih => rw [innerUngenerifyTypes, ih, List.mapM_cons]; rfl

theorem typeVarsFromHir_eq (specs : List TypeSpec) :
    typeVarsFromHir specs = specs.mapM typeVarFromHir := by
  induction specs with
  | nil => rfl
  | cons spec specs ih => rw [typeVarsFromHir, ih, List.mapM_cons]; rfl

theorem hirTypeExprsToVars_eq (es : List TypeExpression) :
    hirTypeExprsToVars es = es.mapM hirTypeExprToVar := by
  induction es with
  | nil => rfl
  | cons e es ih => rw [hirTypeExprsToVars, ih, List.mapM_cons]; rfl

/-- A specification without generic arguments is not concretised to a number. -/
theorem typeSpecToConcrete_ne_integer {types : NameID → Option TypeDeclaration} {depth : ℕ}
    {invert : Bool} {spec : TypeSpec} {n : ℤ} :
    typeSpecToConcrete types depth (fun _ => none) invert spec ≠ some (.integer n) := by
  intro h
  induction spec using TypeSpec.specInduction generalizing invert with
  | declared name params _ =>
      obtain ⟨decl, ps, -, -, hc⟩ := typeSpecToConcrete_declared.mp h
      cases depth with
      | zero => exact absurd hc (by simp [typeDeclToConcrete])
      | succ depth =>
          rw [typeDeclToConcrete_succ] at hc
          rcases hkind : decl.kind with options | base | members <;> simp [hkind] at hc
  | generic name => exact absurd h (by simp)
  | tuple inner _ =>
      obtain ⟨cs, -, hc⟩ := typeSpecToConcrete_tuple.mp h
      cases hc
  | array inner size _ _ =>
      obtain ⟨x, m, -, -, hc⟩ := typeSpecToConcrete_array.mp h
      cases hc
  | backward inner _ =>
      obtain ⟨x, -, hc⟩ := typeSpecToConcrete_backward.mp h
      split_ifs at hc
  | inverted inner ih => exact ih h
  | wire inner _ =>
      obtain ⟨x, -, hc⟩ := typeSpecToConcrete_wire.mp h
      split_ifs at hc
  | unit => exact absurd h (by simp [typeSpecToConcrete, typeSpecWith])
  | traitSelf => exact absurd h (by simp [typeSpecToConcrete, typeSpecWith])
  | wildcard => exact absurd h (by simp [typeSpecToConcrete, typeSpecWith])

theorem innerUngenerifyType_eq_some_iff {types : NameID → Option TypeDeclaration} {depth : ℕ}
    {spec : TypeSpec} {var : TypeVar} (h : typeVarFromHir spec = some var) {invert : Bool}
    {c : ConcreteType} :
    innerUngenerifyType types depth invert var = some c ↔
      typeSpecToConcrete types depth (fun _ => none) invert spec = some c := by
  induction spec using TypeSpec.specInduction generalizing var invert c with
  | declared base params ih =>
      simp only [typeVarFromHir, hirTypeExprsToVars_eq, Option.bind_eq_bind, Option.bind_eq_some_iff,
        mapM_eq_some_iff, Option.some.injEq] at h
      obtain ⟨vars, hvars, rfl⟩ := h
      have hparams : ∀ ps, List.Forall₂ (fun v p => innerUngenerifyType types depth invert v = some p)
          vars ps ↔ List.Forall₂ (fun e p =>
            typeExprToConcrete types depth (fun _ => none) invert e = some p) params ps := by
        intro ps
        refine forall₂_comp_iff hvars fun e he v hv p => ?_
        cases e with
        | integer n =>
            obtain rfl := Option.some.inj hv
            rfl
        | typeSpec s => exact ih s he hv
        | constGeneric g => exact absurd hv (by simp [hirTypeExprToVar])
      simp only [innerUngenerifyType, innerUngenerifyTypes_eq, Option.bind_eq_bind,
        Option.bind_eq_some_iff, mapM_eq_some_iff, hparams, typeSpecToConcrete_declared]
      constructor
      · rintro ⟨ps, hps, decl, hdecl, hc⟩
        exact ⟨decl, ps, hdecl, hps, hc⟩
      · rintro ⟨decl, ps, hdecl, hps, hc⟩
        exact ⟨ps, hps, decl, hdecl, hc⟩
  | generic name => exact absurd h (by simp [typeVarFromHir])
  | tuple inner ih =>
      simp only [typeVarFromHir, typeVarsFromHir_eq, Option.bind_eq_bind, Option.bind_eq_some_iff,
        mapM_eq_some_iff, Option.some.injEq] at h
      obtain ⟨vars, hvars, rfl⟩ := h
      have hinner : ∀ cs, List.Forall₂ (fun v c => innerUngenerifyType types depth invert v = some c)
          vars cs ↔ List.Forall₂ (fun s c =>
            typeSpecToConcrete types depth (fun _ => none) invert s = some c) inner cs := by
        intro cs
        refine forall₂_comp_iff hvars fun s hs v hv c => ?_
        exact ih s hs hv
      simp only [innerUngenerifyType, innerUngenerifyTypes_eq, Option.bind_eq_bind,
        Option.bind_eq_some_iff, mapM_eq_some_iff, hinner, typeSpecToConcrete_tuple,
        Option.some.injEq, @eq_comm _ c]
  | array inner size ih ihsize =>
      simp only [typeVarFromHir, Option.bind_eq_bind, Option.bind_eq_some_iff,
        Option.some.injEq] at h
      obtain ⟨v, hv, w, hw, rfl⟩ := h
      -- only a number is an array size
      have hsize : ∀ i n, innerUngenerifyType types depth i w = some (.integer n) ↔
          size = .integer n := by
        intro i n
        cases size with
        | integer m =>
            obtain rfl := Option.some.inj hw
            simp [innerUngenerifyType]
        | typeSpec s =>
            rw [ihsize s rfl hw]
            simp [typeSpecToConcrete_ne_integer]
        | constGeneric g => exact absurd hw (by simp [hirTypeExprToVar])
      have hsize' : ∀ n, typeExprToConcrete types depth (fun _ => none) invert size =
          some (.integer n) ↔ size = .integer n := by
        intro n
        cases size with
        | integer m => simp
        | typeSpec s => simp [typeSpecToConcrete_ne_integer]
        | constGeneric g => simp [typeExprToConcrete, typeExprWith]
      rw [typeSpecToConcrete_array]
      simp only [innerUngenerifyType, Option.bind_eq_bind, Option.bind_eq_some_iff, ih hv, hsize']
      constructor
      · rintro ⟨x, hx, y, hy, hc⟩
        cases y with
        | integer n => exact ⟨x, n, (hsize false n).mp hy, hx, (Option.some.inj hc).symm⟩
        | _ => exact absurd hc (by simp)
      · rintro ⟨x, n, hn, hx, rfl⟩
        exact ⟨x, hx, .integer n, (hsize false n).mpr hn, rfl⟩
  | backward inner ih =>
      simp only [typeVarFromHir, Option.bind_eq_bind, Option.bind_eq_some_iff,
        Option.some.injEq] at h
      obtain ⟨v, hv, rfl⟩ := h
      simp only [innerUngenerifyType, Option.bind_eq_bind, Option.bind_eq_some_iff, ih hv,
        typeSpecToConcrete_backward, Option.some.injEq, @eq_comm _ c]
  | inverted inner ih =>
      simp only [typeVarFromHir, Option.bind_eq_bind, Option.bind_eq_some_iff,
        Option.some.injEq] at h
      obtain ⟨v, hv, rfl⟩ := h
      exact ih hv
  | wire inner ih =>
      simp only [typeVarFromHir, Option.bind_eq_bind, Option.bind_eq_some_iff,
        Option.some.injEq] at h
      obtain ⟨v, hv, rfl⟩ := h
      simp only [innerUngenerifyType, Option.bind_eq_bind, Option.bind_eq_some_iff, ih hv,
        typeSpecToConcrete_wire, Option.some.injEq, @eq_comm _ c]
  | unit => exact absurd h (by simp [typeVarFromHir])
  | traitSelf => exact absurd h (by simp [typeVarFromHir])
  | wildcard => exact absurd h (by simp [typeVarFromHir])

/-- Both ways to make a type without generic arguments concrete agree. -/
theorem innerUngenerifyType_eq {types : NameID → Option TypeDeclaration} {spec : TypeSpec}
    {var : TypeVar} (h : typeVarFromHir spec = some var) (depth : ℕ) (invert : Bool) :
    innerUngenerifyType types depth invert var =
      typeSpecToConcrete types depth (fun _ => none) invert spec :=
  Option.ext fun _ => innerUngenerifyType_eq_some_iff h

/-! ### The laws -/

/-- The concretisation of a type without generic arguments returns the concrete type. -/
def Concretizes (types : NameID → Option TypeDeclaration) (invert : Bool) (spec : TypeSpec)
    (c : ConcreteType) : Prop :=
  ∃ depth, typeSpecToConcrete types depth (fun _ => none) invert spec = some c

/-- The concretisation of a declaration without generic arguments returns the concrete type. -/
def DeclConcretizes (types : NameID → Option TypeDeclaration) (invert : Bool)
    (decl : TypeDeclaration) (c : ConcreteType) : Prop :=
  ∃ depth, typeDeclToConcrete types depth decl [] invert = some c

/-- The expression is a type, or a number, without generic arguments. -/
def Closed (types : TypeList) (e : TypeExpression) (number : Bool) : Prop :=
  ∃ bound, HasKind types.decls types.level (fun _ => none) bound e number

theorem Closed.exists_concretizes {types : TypeList} {spec : TypeSpec}
    (h : Closed types (.typeSpec spec) false) (invert : Bool) :
    ∃ c, Concretizes types.decls invert spec c := by
  obtain ⟨bound, h⟩ := h
  obtain ⟨c, hc, -⟩ := h.exists_concrete types le_rfl (fun x number hx => by cases hx) invert
  exact ⟨c, bound, hc⟩

theorem Concretizes.unique {types : NameID → Option TypeDeclaration} {invert : Bool}
    {spec : TypeSpec} {c c' : ConcreteType} (h : Concretizes types invert spec c)
    (h' : Concretizes types invert spec c') : c = c' := by
  obtain ⟨d, hd⟩ := h
  obtain ⟨d', hd'⟩ := h'
  have hmax := typeSpecToConcrete_mono (typeDeclToConcrete_mono (le_max_left d d')) hd
  have hmax' := typeSpecToConcrete_mono (typeDeclToConcrete_mono (le_max_right d d')) hd'
  exact Option.some.inj (hmax.symm.trans hmax')

/-- Inversions outside a type flip the flag. -/
theorem concretizes_inversions {types : NameID → Option TypeDeclaration} {invert : Bool}
    {spec : TypeSpec} {c : ConcreteType} (k : ℕ) :
    Concretizes types invert (TypeSpec.inverted^[k] spec) c ↔
      Concretizes types (invert != decide (k % 2 = 1)) spec c := by
  induction k generalizing invert with
  | zero => simp
  | succ k ih =>
      have hflag : ((!invert) != decide (k % 2 = 1)) = (invert != decide ((k + 1) % 2 = 1)) := by
        rcases Nat.mod_two_eq_zero_or_one k with h | h <;> cases invert <;> simp [h, Nat.add_mod]
      rw [Function.iterate_succ_apply', ← hflag, ← ih]
      rfl

/-- An inversion exchanges wires and mutable wires. -/
theorem Concretizes.inverted {types : TypeList} {invert : Bool} {spec : TypeSpec}
    {c c' : ConcreteType} (h : Concretizes types.decls invert spec c)
    (h' : Concretizes types.decls (!invert) spec c') : c' = c.flip true := by
  obtain ⟨d, hd⟩ := h
  obtain ⟨d', hd'⟩ := h'
  have hmax := typeSpecToConcrete_mono (typeDeclToConcrete_mono (le_max_left d d')) hd
  have hmax' := typeSpecToConcrete_mono (typeDeclToConcrete_mono (le_max_right d d')) hd'
  exact flipsAt types.enumsPortless true _ spec hmax hmax' (fun _ _ _ _ => rfl) (.inl (by simp))

theorem HasKind.mono {types : NameID → Option TypeDeclaration} {level : NameID → ℕ}
    {kinds : NameID → Option Bool} {bound bound' : ℕ} {e : TypeExpression} {number : Bool}
    (h : HasKind types level kinds bound e number) (hle : bound ≤ bound') :
    HasKind types level kinds bound' e number := by
  induction h with
  | integer val => exact .integer val
  | generic h => exact .generic h
  | declared hdecl hlevel hlen _ ih => exact .declared hdecl (hlevel.trans_le hle) hlen ih
  | tuple _ ih => exact .tuple ih
  | array _ _ ih ihsize => exact .array ih ihsize
  | backward _ ih => exact .backward ih
  | inverted _ ih => exact .inverted ih
  | wire _ ih => exact .wire ih

/-- Closed arguments have a common bound. -/
theorem exists_bound {types : TypeList} {params : List TypeParam} {args : List TypeExpression}
    (h : List.Forall₂ (fun arg e => Closed types e arg.metaType.isNumber) params args) :
    ∃ bound, List.Forall₂ (fun arg e =>
      HasKind types.decls types.level (fun _ => none) bound e arg.metaType.isNumber) params args := by
  induction h with
  | nil => exact ⟨0, .nil⟩
  | cons he _ ih =>
      obtain ⟨b, hb⟩ := he
      obtain ⟨b', hb'⟩ := ih
      exact ⟨max b b', .cons (hb.mono (le_max_left _ _))
        (hb'.imp fun arg e h => h.mono (le_max_right _ _))⟩

theorem exists_bound_above {types : TypeList} {params : List TypeParam} {args : List TypeExpression}
    (h : List.Forall₂ (fun arg e => Closed types e arg.metaType.isNumber) params args) (level : ℕ) :
    ∃ bound, level < bound ∧ List.Forall₂ (fun arg e =>
      HasKind types.decls types.level (fun _ => none) bound e arg.metaType.isNumber) params args := by
  obtain ⟨bound, hbound⟩ := exists_bound h
  exact ⟨max (level + 1) bound, by omega, hbound.imp fun arg e h => h.mono (le_max_right _ _)⟩

/-- A struct at closed arguments, and its instance, have concrete types. -/
theorem exists_concretizes_struct (types : TypeList) {name : NameID} {decl : TypeDeclaration}
    {members : List (String × TypeSpec)} (hdecl : types.decls name = some decl)
    (hkind : decl.kind = .struct members) {args : List TypeExpression}
    (hargs : List.Forall₂ (fun arg e => Closed types e arg.metaType.isNumber)
      decl.genericArgs args) (invert : Bool) :
    (∃ c, Concretizes types.decls invert (.declared name args) c) ∧
      ∃ c, DeclConcretizes types.decls invert (instantiate decl args) c := by
  obtain ⟨bound, hlevel, hbound⟩ := exists_bound_above hargs (types.level name)
  constructor
  · exact Closed.exists_concretizes ⟨bound, .declared_of_forall₂ hdecl hlevel hbound⟩ invert
  · have hfield : ∀ m ∈ members, ∃ c, typeSpecToConcrete types.decls bound (fun _ => none) invert
        (substSpec (genericSubs decl.genericArgs args) m.2) = some c := by
      intro m hm
      have hspec := types.wellKinded name decl hdecl m.2
        (by rw [fields_struct hkind]; exact List.mem_map_of_mem hm)
      have hsubst := (hspec.subst (fun x number hx => exists_genericSubs_hasKind hbound hx)
        hlevel.le).substSpec
      obtain ⟨c, hc, -⟩ := @HasKind.exists_concrete types _ _ _ _ _ hsubst le_rfl (fun _ => none)
        (fun x number hx => by cases hx) invert
      exact ⟨c, hc⟩
    have hstruct : (instantiate decl args).kind =
        .struct (members.map fun m => (m.1, substSpec (genericSubs decl.genericArgs args) m.2)) := by
      simp only [instantiate, hkind]
    obtain ⟨cs, hcs⟩ := @exists_members (typeSpecToConcrete types.decls bound (fun _ => none) invert)
      (members.map fun m => (m.1, substSpec (genericSubs decl.genericArgs args) m.2)) fun m hm => by
        obtain ⟨m, hmem, rfl⟩ := List.mem_map.mp hm
        exact hfield m hmem
    refine ⟨.struct cs, bound + 1, typeDeclToConcrete_succ.mpr ⟨rfl, ?_⟩⟩
    rw [hstruct]
    exact ⟨cs, hcs, rfl⟩

/-- **Laws of inversion** over non-recursive declarations. -/
theorem inversion_laws (types : TypeList) :
    (∀ name decl members args, types.decls name = some decl → decl.kind = .struct members →
      List.Forall₂ (fun arg e => Closed types e arg.metaType.isNumber) decl.genericArgs args →
      ∀ (k : ℕ) (invert : Bool), ∃ c c',
        Concretizes types.decls invert (TypeSpec.inverted^[k] (.declared name args)) c ∧
        DeclConcretizes types.decls (invert != decide (k % 2 = 1)) (instantiate decl args) c' ∧
        (c = c' ↔ NoInvertedPort types.decls decl args)) ∧
    (∀ spec var, typeVarFromHir spec = some var → ∀ depth invert,
      innerUngenerifyType types.decls depth invert var =
        typeSpecToConcrete types.decls depth (fun _ => none) invert spec) ∧
    (∀ spec invert c, Concretizes types.decls invert (.inverted (.inverted spec)) c ↔
      Concretizes types.decls invert spec c) ∧
    ∀ spec, Closed types (.typeSpec spec) false → ∀ invert, ∃ c c',
      Concretizes types.decls invert spec c ∧ Concretizes types.decls invert (.inverted spec) c' ∧
      (c.WireLeaves → ∀ t, c.toMirType = some t → ∃ t', c'.toMirType = some t' ∧
        t'.size = t.backwardSize ∧ t'.backwardSize = t.size) := by
  refine ⟨?_, fun spec var h depth invert => innerUngenerifyType_eq h depth invert, ?_, ?_⟩
  · intro name decl members args hdecl hkind hargs k invert
    obtain ⟨⟨c, hc⟩, c', hc'⟩ := exists_concretizes_struct types hdecl hkind hargs
      (invert != decide (k % 2 = 1))
    refine ⟨c, c', (concretizes_inversions k).mpr hc, hc', ?_⟩
    obtain ⟨d, hd⟩ := hc
    obtain ⟨d', hd'⟩ := hc'
    exact concrete_instantiate_iff types hdecl hkind hd hd'
  · intro spec invert c
    have htwo := @concretizes_inversions types.decls invert spec c 2
    simpa using htwo
  · intro spec hspec invert
    obtain ⟨c, hc⟩ := hspec.exists_concretizes invert
    obtain ⟨c', hc'⟩ := hspec.exists_concretizes (!invert)
    refine ⟨c, c', hc, hc', fun hleaves t ht => ?_⟩
    rw [hc.inverted hc']
    exact hleaves.flip_sizes ht

/-- `struct S<T> { a: inv T }` over `bool`. -/
def invertedStruct : TypeDeclaration where
  kind := .struct [("a", .inverted (.generic ⟨2, "T"⟩))]
  genericArgs := [⟨⟨2, "T"⟩, .type⟩]

/-- The type list of the struct. -/
def invertedTypes : TypeList where
  decls name :=
    if name.id = 0 then some ⟨.primitive .bool, []⟩
    else if name.id = 1 then some invertedStruct
    else none
  level name := name.id
  wellKinded := by
    intro name decl hdecl field hfield
    split_ifs at hdecl with h0 h1
    · obtain rfl := Option.some.inj hdecl
      exact absurd hfield List.not_mem_nil
    · obtain rfl := Option.some.inj hdecl
      obtain rfl : field = .inverted (.generic ⟨2, "T"⟩) := by
        simpa [TypeDeclaration.fields, invertedStruct] using hfield
      exact .inverted (.generic rfl)
  enumsPortless := by
    intro name decl options hdecl hkind
    dsimp only at hdecl
    split_ifs at hdecl
    · obtain rfl := Option.some.inj hdecl
      cases hkind
    · obtain rfl := Option.some.inj hdecl
      cases hkind

/-- An argument without ports may stand below an inversion. -/
theorem inversion_laws_bool : ∃ c,
    Concretizes invertedTypes.decls true
        (.inverted (.declared ⟨1, "S"⟩ [.typeSpec (.declared ⟨0, "bool"⟩ [])])) c ∧
      DeclConcretizes invertedTypes.decls false
        (instantiate invertedStruct [.typeSpec (.declared ⟨0, "bool"⟩ [])]) c := by
  have hbool : Closed invertedTypes (.typeSpec (.declared ⟨0, "bool"⟩ [])) false :=
    ⟨1, .declared rfl (by decide) rfl (by simp)⟩
  obtain ⟨c, c', hc, hc', hiff⟩ := (inversion_laws invertedTypes).1 ⟨1, "S"⟩ invertedStruct _
    [.typeSpec (.declared ⟨0, "bool"⟩ [])] rfl rfl (.cons hbool .nil) 1 true
  have heq : c = c' := by
    refine hiff.mpr fun field hfield x hshows s hs hport => ?_
    obtain rfl : field = .inverted (.generic ⟨2, "T"⟩) := by
      simpa [TypeDeclaration.fields, invertedStruct] using hfield
    rcases hshows with _ | _ | _ | _ | _ | _ | _ | _ | h
    cases h
    obtain rfl : TypeSpec.declared ⟨0, "bool"⟩ [] = s := by
      simpa [genericSubs, invertedStruct] using hs
    cases hport with
    | member hdecl hkind =>
        obtain rfl := Option.some.inj hdecl
        cases hkind
    | param hdecl hfield =>
        obtain rfl := Option.some.inj hdecl
        exact absurd hfield List.not_mem_nil
    | primitive hdecl hkind hparam => exact absurd hparam List.not_mem_nil
  exact ⟨c, hc, heq ▸ hc'⟩

/-- **Generic arguments below an inversion**: the argument `&bool` of the struct stays a wire, while
the instance of the declaration has a mutable wire. -/
theorem not_inversion_laws : ∃ c c',
    Concretizes invertedTypes.decls false
        (.declared ⟨1, "S"⟩ [.typeSpec (.wire (.declared ⟨0, "bool"⟩ []))]) c ∧
      DeclConcretizes invertedTypes.decls false
        (instantiate invertedStruct [.typeSpec (.wire (.declared ⟨0, "bool"⟩ []))]) c' ∧
      c ≠ c' := by
  refine ⟨.struct [("a", .wire (.single .bool []))], .struct [("a", .backward (.single .bool []))],
    ⟨3, rfl⟩, ⟨3, rfl⟩, ?_⟩
  intro h
  cases h

end Spade.Typeinference

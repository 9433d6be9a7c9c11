import Spade.Typeinference.InversionLaws

/-!
# Field access through inversion

The embedding of the `HasField` requirement of `spade-typeinference/src/requirements.rs`: the type of
`a.b` where the type of `a` is a struct below any number of inversions.

* **Agreement** (`fieldAccess_iff`): when the type that the requirement gives to a field is the type
  of the member in the concrete type of the struct.
-/

namespace Spade.Typeinference

open Hir

/-! ### Types of fields -/

/-- What `expect_named_or_inverted` finds, or the panic for an inversion of several types. -/
inductive NamedOrInverted where
  | named (inverted : Bool) (name : NameID) (params : List TypeVar)
  | unknown
  | other
  | panic

/-- `expect_named_or_inverted`. -/
def expectNamedOrInverted (invertedNow : Bool) : TypeVar → NamedOrInverted
  | .unknown _ _ _ => .unknown
  | .known .inverted [param] => expectNamedOrInverted (!invertedNow) param
  | .known .inverted _ => .panic
  | .known (.named name) params => .named invertedNow name params
  | .known _ _ => .other

/- `type_var_from_hir` and `hir_type_expr_to_var` with a generic list, for the specifications that
fields can have. -/
mutual

def typeVarWith (genericList : NameID → Option TypeVar) : TypeSpec → Option TypeVar
  | .declared base params => do some (.known (.named base) (← typeExprVarsWith genericList params))
  | .generic name => genericList name
  | .tuple inner => do some (.known .tuple (← typeVarsWith genericList inner))
  | .array inner size => do
      some (.known .array [← typeVarWith genericList inner, ← typeExprVarWith genericList size])
  | .unit => none
  | .backward inner => do some (.known .backward [← typeVarWith genericList inner])
  | .wire inner => do some (.known .wire [← typeVarWith genericList inner])
  | .inverted inner => do some (.known .inverted [← typeVarWith genericList inner])
  | .wildcard => none
  | .traitSelf => none

def typeExprVarWith (genericList : NameID → Option TypeVar) : TypeExpression → Option TypeVar
  | .integer i => some (.known (.integer i) [])
  | .typeSpec spec => typeVarWith genericList spec
  | .constGeneric _ => none

def typeVarsWith (genericList : NameID → Option TypeVar) : List TypeSpec → Option (List TypeVar)
  | [] => some []
  | spec :: specs => do
      some ((← typeVarWith genericList spec) :: (← typeVarsWith genericList specs))

def typeExprVarsWith (genericList : NameID → Option TypeVar) :
    List TypeExpression → Option (List TypeVar)
  | [] => some []
  | e :: es => do some ((← typeExprVarWith genericList e) :: (← typeExprVarsWith genericList es))

end

/-- The errors of the requirement. -/
inductive FieldError where
  | enumType
  | primitiveType
  | genericType
  | noField
  | notAStruct

/-- The result of the requirement: the type of the field, or nothing as long as the type of the
struct is unknown. -/
inductive FieldResult where
  | noChange
  | satisfied (fieldType : TypeVar)
  | error (e : FieldError)
  | panic

/-- The type of a field in an inverted struct: wires are exchanged, and other types are inverted
unless they are inverted already. -/
def invertFieldType : TypeVar → Option TypeVar
  | .known .backward (inner :: _) => some (.known .wire [inner])
  | .known .backward [] => none
  | .known .wire (inner :: _) => some (.known .backward [inner])
  | .known .wire [] => none
  | .known .inverted params => some (.known .inverted params)
  | other => some (.known .inverted [other])

/-- `Requirement::check` for `HasField`. -/
def checkHasField (types : NameID → Option TypeDeclaration) (targetType : TypeVar)
    (field : String) : FieldResult :=
  match expectNamedOrInverted false targetType with
  | .unknown => .noChange
  | .other => .error .notAStruct
  | .panic => .panic
  | .named inverted typeName params =>
      match types typeName with
      | none => .error .genericType
      | some decl =>
          match decl.kind with
          | .enum _ => .error .enumType
          | .primitive _ => .error .primitiveType
          | .struct members =>
              match members.find? fun m => m.1 = field with
              | none => .error .noField
              | some (_, fieldSpec) =>
                  let rawFieldType := typeVarWith (genericSubs decl.genericArgs params) fieldSpec
                  match if inverted then rawFieldType >>= invertFieldType else rawFieldType with
                  | none => .panic
                  | some fieldType => .satisfied fieldType

/-! ### Fields as closed specifications -/

theorem typeVarsWith_eq (genericList : NameID → Option TypeVar) (specs : List TypeSpec) :
    typeVarsWith genericList specs = specs.mapM (typeVarWith genericList) := by
  induction specs with
  | nil => rfl
  | cons spec specs ih => rw [typeVarsWith, ih, List.mapM_cons]; rfl

theorem typeExprVarsWith_eq (genericList : NameID → Option TypeVar) (es : List TypeExpression) :
    typeExprVarsWith genericList es = es.mapM (typeExprVarWith genericList) := by
  induction es with
  | nil => rfl
  | cons e es ih => rw [typeExprVarsWith, ih, List.mapM_cons]; rfl

section substitution

variable {types : NameID → Option TypeDeclaration} {level : NameID → ℕ}
  {kinds : NameID → Option Bool} {bound bound' : ℕ} {args : NameID → Option TypeExpression}
  {genericList : NameID → Option TypeVar}

/-- The generic list has the types of closed arguments of the right kinds. -/
def ListsArguments (types : NameID → Option TypeDeclaration) (level : NameID → ℕ)
    (kinds : NameID → Option Bool) (bound : ℕ) (args : NameID → Option TypeExpression)
    (genericList : NameID → Option TypeVar) : Prop :=
  ∀ x m, kinds x = some m → ∃ e v, args x = some e ∧ genericList x = some v ∧
    hirTypeExprToVar e = some v ∧ HasKind types level (fun _ => none) bound e m

/-- Where a type is expected, the substituted expression is the substituted specification. -/
theorem HasKind.substExpr_eq {s : TypeSpec}
    (h : HasKind types level kinds bound (.typeSpec s) false)
    (hargs : ListsArguments types level kinds bound' args genericList) :
    substExpr args (.typeSpec s) = .typeSpec (Typeinference.substSpec args s) := by
  cases h with
  | @generic x _ hkind =>
      obtain ⟨e, v, he, -, -, hclosed⟩ := hargs x false hkind
      rw [substExpr, argumentExpr, Typeinference.substSpec, he]
      cases e with
      | integer val => cases hclosed
      | typeSpec s => rfl
      | constGeneric g => cases hclosed
  | _ => rfl

/-- The type of a field is the type of its specification with the arguments substituted. -/
theorem HasKind.exists_typeVar {e : TypeExpression} {number : Bool}
    (h : HasKind types level kinds bound e number)
    (hargs : ListsArguments types level kinds bound' args genericList) :
    ∃ v, typeExprVarWith genericList e = some v ∧ hirTypeExprToVar (substExpr args e) = some v := by
  induction h with
  | integer val => exact ⟨_, rfl, rfl⟩
  | @generic x m hkind =>
      obtain ⟨e, v, he, hv, hev, -⟩ := hargs x m hkind
      refine ⟨v, hv, ?_⟩
      rw [substExpr, argumentExpr, he]
      exact hev
  | @declared name params decl hdecl hlevel hlen hparams ih =>
      have hcommon : ∀ (i : ℕ) e arg, params[i]? = some e → decl.genericArgs[i]? = some arg →
          ∃ v, (typeExprVarWith genericList e = some v ∧
            hirTypeExprToVar (substExpr args e) = some v) ∧ True := fun i e arg he harg =>
        (ih i e arg he harg).imp fun v hv => ⟨hv, trivial⟩
      obtain ⟨vs, hvs, -⟩ := exists_forall₂_of_getElem? hlen hcommon
      have hvars := mapM_eq_some_iff.mpr (hvs.imp fun e v hv => hv.1)
      have hvars' := mapM_eq_some_iff.mpr
        (List.forall₂_map_left_iff.mpr (hvs.imp fun e v hv => hv.2))
      refine ⟨.known (.named name) vs, ?_, ?_⟩
      · rw [Typeinference.typeExprVarWith, typeVarWith, typeExprVarsWith_eq, hvars]
        rfl
      · change typeVarFromHir (.declared name (substExprs args params)) = _
        rw [typeVarFromHir, substExprs_eq, hirTypeExprsToVars_eq, hvars']
        rfl
  | @tuple inner h ih =>
      have hcommon : ∀ s ∈ inner, ∃ v, typeVarWith genericList s = some v ∧
          typeVarFromHir (Typeinference.substSpec args s) = some v := by
        intro s hs
        obtain ⟨v, hv, hv'⟩ := ih s hs
        rw [(h s hs).substExpr_eq hargs] at hv'
        exact ⟨v, hv, hv'⟩
      obtain ⟨vs, hvs⟩ := exists_mapM_eq_some fun s hs => (hcommon s hs).imp fun v hv => hv.1
      have hvars' := mapM_eq_some_iff.mpr (List.forall₂_map_left_iff.mpr
        (forall₂_imp_of_mem (mapM_eq_some_iff.mp hvs) fun s hs v hv => by
          obtain ⟨w, hw, hw'⟩ := hcommon s hs
          rw [Option.some.inj (hv.symm.trans hw)]
          exact hw'))
      refine ⟨.known .tuple vs, ?_, ?_⟩
      · rw [Typeinference.typeExprVarWith, typeVarWith, typeVarsWith_eq, hvs]
        rfl
      · change typeVarFromHir (.tuple (substSpecs args inner)) = _
        rw [typeVarFromHir, substSpecs_eq, typeVarsFromHir_eq, hvars']
        rfl
  | @array inner size h hsize ih ihsize =>
      obtain ⟨v, hv, hv'⟩ := ih
      obtain ⟨w, hw, hw'⟩ := ihsize
      rw [h.substExpr_eq hargs, hirTypeExprToVar] at hv'
      rw [Typeinference.typeExprVarWith] at hv ⊢
      refine ⟨.known .array [v, w], ?_, ?_⟩
      · rw [typeVarWith, hv, hw]
        rfl
      · change typeVarFromHir (.array (Typeinference.substSpec args inner) (substExpr args size)) = _
        rw [typeVarFromHir, hv', hw']
        rfl
  | @backward inner h ih =>
      obtain ⟨v, hv, hv'⟩ := ih
      rw [h.substExpr_eq hargs, hirTypeExprToVar] at hv'
      rw [Typeinference.typeExprVarWith] at hv ⊢
      refine ⟨.known .backward [v], ?_, ?_⟩
      · rw [typeVarWith, hv]
        rfl
      · change typeVarFromHir (.backward (Typeinference.substSpec args inner)) = _
        rw [typeVarFromHir, hv']
        rfl
  | @inverted inner h ih =>
      obtain ⟨v, hv, hv'⟩ := ih
      rw [h.substExpr_eq hargs, hirTypeExprToVar] at hv'
      rw [Typeinference.typeExprVarWith] at hv ⊢
      refine ⟨.known .inverted [v], ?_, ?_⟩
      · rw [typeVarWith, hv]
        rfl
      · change typeVarFromHir (.inverted (Typeinference.substSpec args inner)) = _
        rw [typeVarFromHir, hv']
        rfl
  | @wire inner h ih =>
      obtain ⟨v, hv, hv'⟩ := ih
      rw [h.substExpr_eq hargs, hirTypeExprToVar] at hv'
      rw [Typeinference.typeExprVarWith] at hv ⊢
      refine ⟨.known .wire [v], ?_, ?_⟩
      · rw [typeVarWith, hv]
        rfl
      · change typeVarFromHir (.wire (Typeinference.substSpec args inner)) = _
        rw [typeVarFromHir, hv']
        rfl

end substitution

/-! ### Inverted fields -/

/-- What a field is in an inverted struct, as a specification. -/
def invertedField : TypeSpec → TypeSpec
  | .backward inner => .wire inner
  | .wire inner => .backward inner
  | .inverted inner => .inverted inner
  | other => .inverted other

/-- The type of a field in an inverted struct is the type of a specification. -/
theorem invertFieldType_eq {s : TypeSpec} {v : TypeVar} (h : typeVarFromHir s = some v) :
    ∃ w, invertFieldType v = some w ∧ typeVarFromHir (invertedField s) = some w := by
  have hother : ∀ s' v', typeVarFromHir s' = some v' →
      typeVarFromHir (.inverted s') = some (.known .inverted [v']) := by
    intro s' v' h'
    rw [typeVarFromHir, h']
    rfl
  cases s with
  | declared base params =>
      have hinv := hother _ _ h
      obtain ⟨vs, -, hv⟩ := Option.bind_eq_some_iff.mp h
      obtain rfl := Option.some.inj hv
      exact ⟨_, rfl, hinv⟩
  | tuple inner =>
      have hinv := hother _ _ h
      obtain ⟨vs, -, hv⟩ := Option.bind_eq_some_iff.mp h
      obtain rfl := Option.some.inj hv
      exact ⟨_, rfl, hinv⟩
  | array inner size =>
      have hinv := hother _ _ h
      obtain ⟨v₁, -, hv⟩ := Option.bind_eq_some_iff.mp h
      obtain ⟨v₂, -, hv⟩ := Option.bind_eq_some_iff.mp hv
      obtain rfl := Option.some.inj hv
      exact ⟨_, rfl, hinv⟩
  | backward inner =>
      obtain ⟨v', hv', hv⟩ := Option.bind_eq_some_iff.mp h
      obtain rfl := Option.some.inj hv
      refine ⟨.known .wire [v'], rfl, ?_⟩
      rw [invertedField, typeVarFromHir, hv']
      rfl
  | wire inner =>
      obtain ⟨v', hv', hv⟩ := Option.bind_eq_some_iff.mp h
      obtain rfl := Option.some.inj hv
      refine ⟨.known .backward [v'], rfl, ?_⟩
      rw [invertedField, typeVarFromHir, hv']
      rfl
  | inverted inner =>
      have hinv := h
      obtain ⟨v', -, hv⟩ := Option.bind_eq_some_iff.mp h
      obtain rfl := Option.some.inj hv
      exact ⟨_, rfl, hinv⟩
  | generic x => exact absurd h (by simp [typeVarFromHir])
  | unit => exact absurd h (by simp [typeVarFromHir])
  | traitSelf => exact absurd h (by simp [typeVarFromHir])
  | wildcard => exact absurd h (by simp [typeVarFromHir])

theorem HasKind.invertedField {types : NameID → Option TypeDeclaration} {level : NameID → ℕ}
    {kinds : NameID → Option Bool} {bound : ℕ} {s : TypeSpec}
    (h : HasKind types level kinds bound (.typeSpec s) false) :
    HasKind types level kinds bound (.typeSpec (Typeinference.invertedField s)) false := by
  cases s with
  | backward inner =>
      cases h with
      | backward h => exact .wire h
  | wire inner =>
      cases h with
      | wire h => exact .backward h
  | inverted inner => exact h
  | _ => exact .inverted h

section flags

variable {types : NameID → Option TypeDeclaration} {depth : ℕ} {i b : Bool} {c c' : ConcreteType}
  {args : NameID → Option TypeExpression} {subs : NameID → Option ConcreteType}

/-- The arguments that the specification shows at a flag have no ports. -/
def PortlessAt (types : NameID → Option TypeDeclaration) (args : NameID → Option TypeExpression)
    (i : Bool) (spec : TypeSpec) (i' : Bool) : Prop :=
  ∀ x, Shows types i spec x i' → ∀ s, args x = some (.typeSpec s) → ¬ HasPort types s

/-- The substituted specification has the same concrete type exactly when the arguments that are
shown at the other flag have no ports. -/
theorem concrete_substSpec_iff (henums : EnumsPortless types)
    (hargs : ConcreteArguments types depth args subs b) {spec : TypeSpec}
    (hc : typeSpecToConcrete types depth subs i spec = some c)
    (hc' : typeSpecToConcrete types depth (fun _ => none) i (substSpec args spec) = some c') :
    c' = c ↔ PortlessAt types args i spec (!b) := by
  constructor
  · rintro rfl x hshows s hs hport
    exact concrete_substSpec_ne hargs hshows (by simp) hs hport hc hc'
  · intro hnot
    refine concrete_substSpec henums hargs hc hc' fun x i' hshows hne s hs => ?_
    obtain rfl := Bool.eq_not.mpr hne
    exact hnot x hshows s hs

/-- The concrete type does not depend on the flag exactly when there are no ports. -/
theorem concrete_flag_iff (henums : EnumsPortless types) {spec : TypeSpec}
    (hc : typeSpecToConcrete types depth subs i spec = some c)
    (hc' : typeSpecToConcrete types depth subs (!i) spec = some c') :
    c' = c ↔ ¬ HasPort types spec := by
  constructor
  · rintro rfl hport
    exact hport.ne hc hc'
  · intro hport
    have hflip := flipsAt henums false depth spec hc hc'
      (fun x i i' _ => by simp) (.inr hport)
    rw [hflip, ConcreteType.flip_false]

/-- A type with a port is not the inversion of an instance of it. -/
theorem HasPort.ne_substSpec {spec : TypeSpec} (h : HasPort types spec)
    (hc : typeSpecToConcrete types depth subs i spec = some c)
    (hc' : typeSpecToConcrete types depth (fun _ => none) (!i) (substSpec args spec) = some c) :
    False := by
  induction h generalizing i c with
  | wire =>
      obtain ⟨y, -, rfl⟩ := typeSpecToConcrete_wire.mp hc
      obtain ⟨y', -, heq⟩ := typeSpecToConcrete_wire.mp hc'
      cases i <;> simp at heq
  | backward =>
      obtain ⟨y, -, rfl⟩ := typeSpecToConcrete_backward.mp hc
      obtain ⟨y', -, heq⟩ := typeSpecToConcrete_backward.mp hc'
      cases i <;> simp at heq
  | inverted _ ih => exact ih hc hc'
  | tuple hs _ ih =>
      obtain ⟨cs, hcs, rfl⟩ := typeSpecToConcrete_tuple.mp hc
      obtain ⟨cs', hcs', heq⟩ := typeSpecToConcrete_tuple.mp hc'
      rw [← ConcreteType.tuple.inj heq, substSpecs_eq, List.forall₂_map_left_iff] at hcs'
      obtain ⟨z, hz, hz'⟩ := exists_common_of_mem hcs hcs' hs
      exact ih hz hz'
  | array _ ih =>
      obtain ⟨y, n, -, hy, rfl⟩ := typeSpecToConcrete_array.mp hc
      obtain ⟨y', n', -, hy', heq⟩ := typeSpecToConcrete_array.mp hc'
      rw [← (ConcreteType.array.inj heq).1] at hy'
      exact ih hy hy'
  | size hport ih =>
      obtain ⟨y, n, hn, -, rfl⟩ := typeSpecToConcrete_array.mp hc
      obtain ⟨y', n', hn', -, heq⟩ := typeSpecToConcrete_array.mp hc'
      rw [← (ConcreteType.array.inj heq).2] at hn'
      rcases concrete_argumentExpr hn' with hn' | ⟨x, v, rfl, -⟩
      · exact ih hn hn'
      · cases hport
  | member hdecl hkind hm hport _ =>
      obtain ⟨d, ps, ps', rfl, -, -, hc, hc'⟩ := exists_declared_substSpec hdecl hc hc'
      simp only [typeDeclToConcrete_succ, hkind] at hc hc'
      obtain ⟨-, cs, hcs, rfl⟩ := hc
      obtain ⟨-, cs', hcs', heq⟩ := hc'
      rw [← ConcreteType.struct.inj heq] at hcs'
      obtain ⟨z, hz, hz'⟩ := exists_common_of_mem hcs hcs' hm
      exact hport.ne hz.2 hz'.2
  | param hdecl hfield hshows hparam hport ih =>
      obtain ⟨d, ps, ps', rfl, hps, hps', hc, hc'⟩ := exists_declared_substSpec hdecl hc hc'
      obtain ⟨j, j', y, hy, hy'⟩ := exists_field_concrete hc hc' hfield
      obtain ⟨z, hz, hz'⟩ := genericSubs_common hps hps' hparam (hshows.subs_eq hy hy')
      rcases concrete_argumentExpr hz' with hz' | ⟨x, v, rfl, -⟩
      · exact ih hz hz'
      · cases hport
  | primitive hdecl hkind hparam hport ih =>
      obtain ⟨d, ps, ps', rfl, hps, hps', hc, hc'⟩ := exists_declared_substSpec hdecl hc hc'
      simp only [typeDeclToConcrete_succ, hkind] at hc hc'
      obtain rfl := (ConcreteType.single.inj (hc.2.symm.trans hc'.2)).2
      obtain ⟨z, hz, hz'⟩ := exists_common_of_mem hps hps' hparam
      rcases concrete_argumentExpr hz' with hz' | ⟨x, v, rfl, -⟩
      · exact ih hz hz'
      · cases hport

/-- The inversion of an instance has the concrete type of the type itself exactly when there are no
ports, neither in the type nor in the arguments that are shown with the flag of the arguments. -/
theorem concrete_other_flag_iff (henums : EnumsPortless types)
    (hargs : ConcreteArguments types depth args subs b) {spec : TypeSpec}
    (hc : typeSpecToConcrete types depth subs i spec = some c)
    (hc' : typeSpecToConcrete types depth (fun _ => none) (!i) (substSpec args spec) = some c')
    {c₁ : ConcreteType} (hc₁ : typeSpecToConcrete types depth subs (!i) spec = some c₁) :
    c' = c ↔ ¬ HasPort types spec ∧ PortlessAt types args i spec b := by
  have hsubst := concrete_substSpec_iff henums hargs hc₁ hc'
  have hflag := concrete_flag_iff henums hc hc₁
  have hshift : PortlessAt types args (!i) spec (!b) ↔ PortlessAt types args i spec b := by
    constructor <;> intro h x hshows
    · exact h x (by simpa using hshows.shift true)
    · exact h x (by simpa using hshows.shift true)
  constructor
  · rintro rfl
    have hport : ¬ HasPort types spec := fun hport => hport.ne_substSpec hc hc'
    exact ⟨hport, hshift.mp (hsubst.mp (hflag.mpr hport).symm)⟩
  · rintro ⟨hport, hshows⟩
    exact (hsubst.mpr (hshift.mpr hshows)).trans (hflag.mpr hport)

/-- The specification is a wire, or an inversion, of a type with ports. -/
def InvertsPort (types : NameID → Option TypeDeclaration) : TypeSpec → Prop
  | .backward inner => HasPort types inner
  | .wire inner => HasPort types inner
  | .inverted inner => HasPort types inner
  | _ => False

/-- The condition for a field of an inverted struct. -/
def InvertedFieldAgrees (types : NameID → Option TypeDeclaration)
    (args : NameID → Option TypeExpression) : TypeSpec → Prop
  | .generic x => ∀ s, args x = some (.typeSpec s) → ¬ InvertsPort types s
  | .backward inner => ¬ HasPort types inner ∧ PortlessAt types args true inner true
  | .wire inner => ¬ HasPort types inner ∧ PortlessAt types args true inner true
  | .inverted inner => ¬ HasPort types inner ∧ PortlessAt types args false inner true
  | spec => PortlessAt types args true spec false

/-- An argument that is the type of a field of an inverted struct. -/
theorem concrete_argument_iff (henums : EnumsPortless types) {s : TypeSpec}
    (hc : typeSpecToConcrete types depth (fun _ => none) true s = some c)
    (hc' : typeSpecToConcrete types depth (fun _ => none) false (invertedField s) = some c') :
    c' = c ↔ ¬ InvertsPort types s := by
  have hsame : typeSpecToConcrete types depth (fun _ => none) false (.inverted s) = some c' →
      (c' = c ↔ ¬ False) := fun h => by
    simpa using Option.some.inj (h.symm.trans hc)
  cases s with
  | backward inner =>
      obtain ⟨y, hy, rfl⟩ := typeSpecToConcrete_backward.mp hc
      obtain ⟨y', hy', rfl⟩ := typeSpecToConcrete_wire.mp hc'
      simpa [InvertsPort] using concrete_flag_iff henums hy hy'
  | wire inner =>
      obtain ⟨y, hy, rfl⟩ := typeSpecToConcrete_wire.mp hc
      obtain ⟨y', hy', rfl⟩ := typeSpecToConcrete_backward.mp hc'
      simpa [InvertsPort] using concrete_flag_iff henums hy hy'
  | inverted inner => exact concrete_flag_iff henums hc hc'
  | _ => exact hsame hc'

/-- The field of an inverted struct, and its member. -/
theorem concrete_invertedField_iff (henums : EnumsPortless types)
    (hargs : ConcreteArguments types depth args subs true) {spec : TypeSpec}
    (hc : typeSpecToConcrete types depth subs true spec = some c)
    (hc' : typeSpecToConcrete types depth (fun _ => none) false
      (invertedField (substSpec args spec)) = some c')
    {c₁ : ConcreteType} (hc₁ : typeSpecToConcrete types depth subs false spec = some c₁) :
    c' = c ↔ InvertedFieldAgrees types args spec := by
  cases spec with
  | generic x =>
      rw [typeSpecToConcrete_generic] at hc
      rw [substSpec] at hc'
      rcases hx : args x with _ | v | s | g <;> rw [hx] at hc'
      · exact absurd hc' (by simp [invertedField])
      · exact absurd hc' (by simp [invertedField])
      · obtain ⟨p, hp, hs⟩ := hargs x _ hx
        obtain rfl := Option.some.inj (hc.symm.trans hp)
        rw [concrete_argument_iff henums hs hc', InvertedFieldAgrees]
        constructor
        · intro h s' hs'
          obtain rfl := TypeExpression.typeSpec.inj (Option.some.inj (hx.symm.trans hs'))
          exact h
        · exact fun h => h s hx
      · exact absurd hc' (by simp [invertedField])
  | backward inner =>
      obtain ⟨y, hy, rfl⟩ := typeSpecToConcrete_backward.mp hc
      obtain ⟨y', hy', rfl⟩ := typeSpecToConcrete_wire.mp hc'
      obtain ⟨y₁, hy₁, -⟩ := typeSpecToConcrete_backward.mp hc₁
      simpa [InvertedFieldAgrees] using concrete_other_flag_iff henums hargs hy hy' hy₁
  | wire inner =>
      obtain ⟨y, hy, rfl⟩ := typeSpecToConcrete_wire.mp hc
      obtain ⟨y', hy', rfl⟩ := typeSpecToConcrete_backward.mp hc'
      obtain ⟨y₁, hy₁, -⟩ := typeSpecToConcrete_wire.mp hc₁
      simpa [InvertedFieldAgrees] using concrete_other_flag_iff henums hargs hy hy' hy₁
  | inverted inner => exact concrete_other_flag_iff henums hargs hc hc' hc₁
  | _ => exact concrete_substSpec_iff henums hargs hc hc'

end flags

/-! ### Field access -/

/-- The type of a field agrees with the member after an even, or an odd, number of inversions. -/
def FieldAgrees (types : NameID → Option TypeDeclaration) (args : NameID → Option TypeExpression)
    (odd : Bool) (spec : TypeSpec) : Prop :=
  match odd with
  | false => PortlessAt types args false spec true
  | true => InvertedFieldAgrees types args spec

/-- The concretisation of an inferred type returns the concrete type. -/
def VarConcretizes (types : NameID → Option TypeDeclaration) (invert : Bool) (var : TypeVar)
    (c : ConcreteType) : Prop :=
  ∃ depth, innerUngenerifyType types depth invert var = some c

/-- An inversion of an inferred type. -/
def TypeVar.invertedOnce (var : TypeVar) : TypeVar := .known .inverted [var]

theorem expectNamedOrInverted_inversions (b : Bool) (name : NameID) (params : List TypeVar) (k : ℕ) :
    expectNamedOrInverted b (TypeVar.invertedOnce^[k] (.known (.named name) params)) =
      .named (b != decide (k % 2 = 1)) name params := by
  induction k generalizing b with
  | zero => simp [expectNamedOrInverted]
  | succ k ih =>
      have hflag : ((!b) != decide (k % 2 = 1)) = (b != decide ((k + 1) % 2 = 1)) := by
        rcases Nat.mod_two_eq_zero_or_one k with h | h <;> cases b <;> simp [h, Nat.add_mod]
      rw [Function.iterate_succ_apply', TypeVar.invertedOnce, expectNamedOrInverted, ih, hflag]

theorem typeVarFromHir_inversions {spec : TypeSpec} {var : TypeVar}
    (h : typeVarFromHir spec = some var) (k : ℕ) :
    typeVarFromHir (TypeSpec.inverted^[k] spec) = some (TypeVar.invertedOnce^[k] var) := by
  induction k with
  | zero => exact h
  | succ k ih =>
      rw [Function.iterate_succ_apply', Function.iterate_succ_apply', typeVarFromHir, ih]
      rfl

/-- The types of the arguments, and the arguments, by name. -/
theorem listsArguments_genericSubs {types : NameID → Option TypeDeclaration} {level : NameID → ℕ}
    {bound : ℕ} {decl : TypeDeclaration} {args : List TypeExpression} {params : List TypeVar}
    (hargs : List.Forall₂ (fun arg e =>
      HasKind types level (fun _ => none) bound e arg.metaType.isNumber) decl.genericArgs args)
    (hparams : hirTypeExprsToVars args = some params) :
    ListsArguments types level (declKinds decl) bound (genericSubs decl.genericArgs args)
      (genericSubs decl.genericArgs params) := by
  intro x m hx
  rw [hirTypeExprsToVars_eq, mapM_eq_some_iff] at hparams
  obtain ⟨e, he, hkind⟩ := exists_genericSubs_hasKind hargs hx
  rcases genericSubs_rel hparams decl.genericArgs x with ⟨hnone, -⟩ | ⟨e', -, v, he', hv, hev⟩
  · exact absurd he (by simp [hnone])
  obtain rfl := Option.some.inj (he.symm.trans he')
  exact ⟨e, v, he, hv, hev, hkind⟩

/-- The requirement gives the type of the specification of the field. -/
theorem checkHasField_satisfied {types : NameID → Option TypeDeclaration} {level : NameID → ℕ}
    {bound bound' : ℕ} {name : NameID} {decl : TypeDeclaration} {members : List (String × TypeSpec)}
    (hdecl : types name = some decl) (hkind : decl.kind = .struct members) {field : String}
    {spec : TypeSpec} (hfield : members.find? (fun m => m.1 = field) = some (field, spec))
    {args : NameID → Option TypeExpression} {params : List TypeVar}
    (hspec : HasKind types level (declKinds decl) bound (.typeSpec spec) false)
    (hargs : ListsArguments types level (declKinds decl) bound' args
      (genericSubs decl.genericArgs params)) (k : ℕ) :
    ∃ v, checkHasField types (TypeVar.invertedOnce^[k] (.known (.named name) params)) field =
        .satisfied v ∧
      typeVarFromHir (if k % 2 = 1 then invertedField (substSpec args spec) else
        substSpec args spec) = some v := by
  obtain ⟨v, hv, hv'⟩ := hspec.exists_typeVar hargs
  rw [hspec.substExpr_eq hargs, hirTypeExprToVar] at hv'
  rw [typeExprVarWith] at hv
  by_cases hk : k % 2 = 1
  · obtain ⟨w, hw, hw'⟩ := invertFieldType_eq hv'
    refine ⟨w, ?_, by rw [if_pos hk, hw']⟩
    simp [checkHasField, expectNamedOrInverted_inversions, hdecl, hkind, hfield, hv, hk, hw]
  · refine ⟨v, ?_, by rw [if_neg hk, hv']⟩
    simp [checkHasField, expectNamedOrInverted_inversions, hdecl, hkind, hfield, hv, hk]

/-- What stands for the arguments of a declaration has their kinds. -/
theorem subsOfKind_of_arguments {types : TypeList} {bound : ℕ} {decl : TypeDeclaration}
    {args : NameID → Option TypeExpression} {genericList : NameID → Option TypeVar}
    {subs : NameID → Option ConcreteType} {b : Bool}
    (hargs : ListsArguments types.decls types.level (declKinds decl) bound args genericList)
    (hsubs : ConcreteArguments types.decls bound args subs b) :
    SubsOfKind (declKinds decl) subs := by
  intro x number hx
  obtain ⟨e, -, he, -, -, hkind⟩ := hargs x number hx
  obtain ⟨p, hp, hep⟩ := hsubs x e he
  obtain ⟨c, hc, hof⟩ := hkind.exists_concrete types le_rfl (fun y m hy => by cases hy) b
  obtain rfl := Option.some.inj (hep.symm.trans hc)
  exact ⟨p, hp, hof⟩

/-- **Field access** over non-recursive declarations: the type that the requirement gives to a field
of a struct below `k` inversions, and the member in the concrete type of the inverted struct. -/
theorem fieldAccess_iff (types : TypeList) {name : NameID} {decl : TypeDeclaration}
    {members : List (String × TypeSpec)} (hdecl : types.decls name = some decl)
    (hkind : decl.kind = .struct members) {args : List TypeExpression}
    (hargs : List.Forall₂ (fun arg e => Closed types e arg.metaType.isNumber)
      decl.genericArgs args) {params : List TypeVar} (hparams : hirTypeExprsToVars args = some params)
    {field : String} {spec : TypeSpec}
    (hfield : members.find? (fun m => m.1 = field) = some (field, spec)) (k : ℕ) :
    ∃ fieldType c cs member,
      checkHasField types.decls (TypeVar.invertedOnce^[k] (.known (.named name) params)) field =
        .satisfied fieldType ∧
      VarConcretizes types.decls false fieldType c ∧
      VarConcretizes types.decls false
        (TypeVar.invertedOnce^[k] (.known (.named name) params)) (.struct cs) ∧
      cs.find? (fun m => m.1 = field) = some (field, member) ∧
      (c = member ↔
        FieldAgrees types.decls (genericSubs decl.genericArgs args) (decide (k % 2 = 1)) spec) := by
  obtain ⟨depth, hlevel, hbound⟩ := exists_bound_above hargs (types.level name)
  have hlist := listsArguments_genericSubs hbound hparams
  have hspec := types.wellKinded name decl hdecl spec
    (by rw [fields_struct hkind]; exact List.mem_map_of_mem (List.mem_of_find?_eq_some hfield))
  obtain ⟨fieldType, hcheck, hvar⟩ := checkHasField_satisfied hdecl hkind hfield hspec hlist k
  -- the struct and its members
  have hstruct := HasKind.declared_of_forall₂ hdecl hlevel hbound
  obtain ⟨cstruct, hcstruct, -⟩ := hstruct.exists_concrete types le_rfl (fun x m hx => by cases hx)
    (decide (k % 2 = 1))
  obtain ⟨decl', ps, hdecl', hps, hc⟩ := typeSpecToConcrete_declared.mp hcstruct
  obtain rfl := Option.some.inj (hdecl.symm.trans hdecl')
  have hsubs := concreteArguments_genericSubs hps decl.genericArgs
  have hc := typeDeclToConcrete_mono (Nat.le_succ depth) hc
  simp only [typeDeclToConcrete_succ, hkind] at hc
  obtain ⟨-, cs, hcs, rfl⟩ := hc
  obtain ⟨⟨-, member⟩, hmember, rfl, hcmember⟩ := exists_find?_of_forall₂ hcs
    (q := fun m => decide (m.1 = field)) (fun m c h => by rw [h.1]) hfield
  refine ⟨fieldType, ?_⟩
  have hvarstruct : VarConcretizes types.decls false
      (TypeVar.invertedOnce^[k] (.known (.named name) params)) (.struct cs) := by
    have hvars : typeVarFromHir (.declared name args) = some (.known (.named name) params) := by
      rw [typeVarFromHir, hparams]
      rfl
    have hinverted : Concretizes types.decls false (TypeSpec.inverted^[k] (.declared name args))
        (.struct cs) := (concretizes_inversions k).mpr ⟨depth, by rw [Bool.false_bne]; exact hcstruct⟩
    obtain ⟨d, hd⟩ := hinverted
    exact ⟨d, by rw [innerUngenerifyType_eq (typeVarFromHir_inversions hvars k), hd]⟩
  -- the field
  have hsubst := (hspec.subst (fun x number hx => exists_genericSubs_hasKind hbound hx)
    hlevel.le).substSpec
  by_cases hk : k % 2 = 1
  · rw [if_pos hk] at hvar
    rw [decide_eq_true hk] at hsubs hcmember ⊢
    obtain ⟨c, hc, -⟩ := hsubst.invertedField.exists_concrete types le_rfl
      (fun x m hx => by cases hx) false
    obtain ⟨c₁, hc₁, -⟩ := hspec.exists_concrete types hlevel.le
      (subsOfKind_of_arguments hlist hsubs) false
    exact ⟨c, cs, member, hcheck, ⟨depth, by rw [innerUngenerifyType_eq hvar]; exact hc⟩, hvarstruct,
      hmember, concrete_invertedField_iff types.enumsPortless hsubs hcmember hc hc₁⟩
  · rw [if_neg hk] at hvar
    rw [decide_eq_false hk] at hsubs hcmember ⊢
    obtain ⟨c, hc, -⟩ := hsubst.exists_concrete types le_rfl (fun x m hx => by cases hx) false
    exact ⟨c, cs, member, hcheck, ⟨depth, by rw [innerUngenerifyType_eq hvar]; exact hc⟩, hvarstruct,
      hmember, concrete_substSpec_iff types.enumsPortless hsubs hcmember hc⟩

/-- `struct port S { a: inv &bool, b: &bool }` over `bool`. -/
def portStruct : TypeDeclaration where
  kind := .struct [("a", .inverted (.wire (.declared ⟨0, "bool"⟩ []))),
    ("b", .wire (.declared ⟨0, "bool"⟩ []))]
  genericArgs := []

/-- The type list of the struct. -/
def portTypes : TypeList where
  decls name :=
    if name.id = 0 then some ⟨.primitive .bool, []⟩
    else if name.id = 1 then some portStruct
    else none
  level name := name.id
  wellKinded := by
    intro name decl hdecl field hfield
    split_ifs at hdecl with h0 h1
    · obtain rfl := Option.some.inj hdecl
      exact absurd hfield List.not_mem_nil
    · obtain rfl := Option.some.inj hdecl
      have hbool : ∀ types level kinds bound, types ⟨0, "bool"⟩ = some ⟨.primitive .bool, []⟩ →
          level ⟨0, "bool"⟩ < bound →
          HasKind types level kinds bound (.typeSpec (.declared ⟨0, "bool"⟩ [])) false :=
        fun _ _ _ _ hdecl hlevel => .declared hdecl hlevel rfl (by simp)
      have hcases : field = .inverted (.wire (.declared ⟨0, "bool"⟩ [])) ∨
          field = .wire (.declared ⟨0, "bool"⟩ []) := by
        simpa [TypeDeclaration.fields, portStruct] using hfield
      rcases hcases with rfl | rfl
      · exact .inverted (.wire (hbool _ _ _ _ rfl (by simp [h1])))
      · exact .wire (hbool _ _ _ _ rfl (by simp [h1]))
  enumsPortless := by
    intro name decl options hdecl hkind
    dsimp only at hdecl
    split_ifs at hdecl
    · obtain rfl := Option.some.inj hdecl
      cases hkind
    · obtain rfl := Option.some.inj hdecl
      cases hkind

/-- The wire of an inverted struct is a mutable wire. -/
theorem fieldAccess_wire : ∃ fieldType c cs,
    checkHasField portTypes.decls (.known .inverted [.known (.named ⟨1, "S"⟩) []]) "b" =
      .satisfied fieldType ∧
    VarConcretizes portTypes.decls false fieldType c ∧
    VarConcretizes portTypes.decls false (.known .inverted [.known (.named ⟨1, "S"⟩) []])
      (.struct cs) ∧
    cs.find? (fun m => m.1 = "b") = some ("b", c) := by
  obtain ⟨fieldType, c, cs, member, hcheck, hc, hcs, hmember, hiff⟩ :=
    @fieldAccess_iff portTypes ⟨1, "S"⟩ portStruct _ rfl rfl [] .nil [] rfl "b"
      (.wire (.declared ⟨0, "bool"⟩ [])) (by rfl) 1
  have hbool : ¬ HasPort portTypes.decls (.declared ⟨0, "bool"⟩ []) := by
    intro hport
    cases hport with
    | member hdecl hkind =>
        obtain rfl := Option.some.inj hdecl
        cases hkind
    | param hdecl hfield =>
        obtain rfl := Option.some.inj hdecl
        exact absurd hfield List.not_mem_nil
    | primitive hdecl hkind hparam => exact absurd hparam List.not_mem_nil
  have heq : c = member := hiff.mpr ⟨hbool, fun x hshows s hs => by
    simp [genericSubs, portStruct] at hs⟩
  exact ⟨fieldType, c, cs, hcheck, hc, hcs, heq ▸ hmember⟩

/-- **Inversions of fields**: the inverted wire of an inverted struct is accessed as a mutable wire,
while the member is a wire. -/
theorem inverted_field_not_agrees : ∃ fieldType c cs member,
    checkHasField portTypes.decls (.known .inverted [.known (.named ⟨1, "S"⟩) []]) "a" =
      .satisfied fieldType ∧
    VarConcretizes portTypes.decls false fieldType c ∧
    VarConcretizes portTypes.decls false (.known .inverted [.known (.named ⟨1, "S"⟩) []])
      (.struct cs) ∧
    cs.find? (fun m => m.1 = "a") = some ("a", member) ∧ c ≠ member := by
  refine ⟨.known .inverted [.known .wire [.known (.named ⟨0, "bool"⟩) []]],
    .backward (.single .bool []),
    [("a", .wire (.single .bool [])), ("b", .backward (.single .bool []))],
    .wire (.single .bool []), rfl, ⟨1, rfl⟩, ⟨2, rfl⟩, rfl, ?_⟩
  intro h
  cases h

end Spade.Typeinference

import Spade.Typeinference.ConcreteInversion
import Spade.Typeinference.MirTypeLowering

/-!
# Inversion and concretisation

How the inversion of ports commutes with making types concrete.

* **Flag** (`typeSpecToConcrete_flip`): concretising with the flag set gives the inversion of the
  concrete type, and a type without ports does not depend on the flag.
-/

namespace Spade.Typeinference

open Hir

variable {types : NameID → Option TypeDeclaration}

/-! ### What a concrete type shows -/

/-- The concrete type of the specification under the flag `invert` shows what the generic argument
stands for, at a place that is reached with the flag `invert'`. Arguments that a declaration does
not use are not shown. -/
inductive Shows (types : NameID → Option TypeDeclaration) :
    Bool → TypeSpec → NameID → Bool → Prop where
  | generic (invert : Bool) (name : NameID) : Shows types invert (.generic name) name invert
  | field {invert invert' i i' : Bool} {name x g : NameID} {params : List TypeExpression}
      {decl : TypeDeclaration} {field s : TypeSpec} (hdecl : types name = some decl)
      (hfield : field ∈ decl.fields) (hshows : Shows types i field g i')
      (hparam : genericSubs decl.genericArgs params g = some (.typeSpec s))
      (h : Shows types invert s x invert') : Shows types invert (.declared name params) x invert'
  | primitive {invert invert' : Bool} {name x : NameID} {params : List TypeExpression}
      {decl : TypeDeclaration} {base : PrimitiveType} {s : TypeSpec}
      (hdecl : types name = some decl) (hkind : decl.kind = .primitive base)
      (hparam : .typeSpec s ∈ params) (h : Shows types invert s x invert') :
      Shows types invert (.declared name params) x invert'
  | tuple {invert invert' : Bool} {x : NameID} {inner : List TypeSpec} {s : TypeSpec}
      (hs : s ∈ inner) (h : Shows types invert s x invert') :
      Shows types invert (.tuple inner) x invert'
  | array {invert invert' : Bool} {x : NameID} {inner : TypeSpec} {size : TypeExpression}
      (h : Shows types invert inner x invert') : Shows types invert (.array inner size) x invert'
  | size {invert invert' : Bool} {x : NameID} {inner s : TypeSpec}
      (h : Shows types invert s x invert') :
      Shows types invert (.array inner (.typeSpec s)) x invert'
  | backward {invert invert' : Bool} {x : NameID} {inner : TypeSpec}
      (h : Shows types invert inner x invert') : Shows types invert (.backward inner) x invert'
  | wire {invert invert' : Bool} {x : NameID} {inner : TypeSpec}
      (h : Shows types invert inner x invert') : Shows types invert (.wire inner) x invert'
  | inverted {invert invert' : Bool} {x : NameID} {inner : TypeSpec}
      (h : Shows types (!invert) inner x invert') : Shows types invert (.inverted inner) x invert'

/-- The concrete type of the specification has a wire or a mutable wire that does not come from a
generic argument in scope. -/
inductive HasPort (types : NameID → Option TypeDeclaration) : TypeSpec → Prop where
  | wire (inner : TypeSpec) : HasPort types (.wire inner)
  | backward (inner : TypeSpec) : HasPort types (.backward inner)
  | inverted {inner : TypeSpec} (h : HasPort types inner) : HasPort types (.inverted inner)
  | tuple {inner : List TypeSpec} {s : TypeSpec} (hs : s ∈ inner) (h : HasPort types s) :
      HasPort types (.tuple inner)
  | array {inner : TypeSpec} {size : TypeExpression} (h : HasPort types inner) :
      HasPort types (.array inner size)
  | size {inner s : TypeSpec} (h : HasPort types s) : HasPort types (.array inner (.typeSpec s))
  | member {name : NameID} {params : List TypeExpression} {decl : TypeDeclaration}
      {members : List (String × TypeSpec)} {m : String × TypeSpec}
      (hdecl : types name = some decl) (hkind : decl.kind = .struct members) (hm : m ∈ members)
      (h : HasPort types m.2) : HasPort types (.declared name params)
  | param {name g : NameID} {params : List TypeExpression} {decl : TypeDeclaration}
      {field s : TypeSpec} {i i' : Bool} (hdecl : types name = some decl)
      (hfield : field ∈ decl.fields) (hshows : Shows types i field g i')
      (hparam : genericSubs decl.genericArgs params g = some (.typeSpec s)) (h : HasPort types s) :
      HasPort types (.declared name params)
  | primitive {name : NameID} {params : List TypeExpression} {decl : TypeDeclaration}
      {base : PrimitiveType} {s : TypeSpec} (hdecl : types name = some decl)
      (hkind : decl.kind = .primitive base) (hparam : .typeSpec s ∈ params) (h : HasPort types s) :
      HasPort types (.declared name params)

/-- The members of enums have no ports, which is checked when they are declared. -/
def EnumsPortless (types : NameID → Option TypeDeclaration) : Prop :=
  ∀ name decl options, types name = some decl → decl.kind = .enum options →
    ∀ field ∈ decl.fields, ¬ HasPort types field

theorem fields_enum {decl : TypeDeclaration} {options : List (List TypeSpec)}
    (h : decl.kind = .enum options) : decl.fields = options.flatten := by
  rw [TypeDeclaration.fields, h]

theorem fields_struct {decl : TypeDeclaration} {members : List (String × TypeSpec)}
    (h : decl.kind = .struct members) : decl.fields = members.map Prod.snd := by
  rw [TypeDeclaration.fields, h]

/-! ### The flag -/

/-- What is proved of the specifications at one depth. -/
def FlipsAt (types : NameID → Option TypeDeclaration) (b : Bool) (depth : ℕ) (spec : TypeSpec) :
    Prop :=
  ∀ {subs subs' : NameID → Option ConcreteType} {invert invert' : Bool} {c c' : ConcreteType},
    typeSpecToConcrete types depth subs invert spec = some c →
    typeSpecToConcrete types depth subs' invert' spec = some c' →
    (∀ x i i', Shows types i spec x i' → subs' x = (subs x).map (·.flip b)) →
    invert' = (invert != b) ∨ ¬ HasPort types spec → c' = c.flip b

/-- The concrete type of a declaration depends on the arguments that its fields show. -/
theorem typeDeclToConcrete_flip (henums : EnumsPortless types) {b : Bool} {depth : ℕ}
    (hspec : ∀ d < depth, ∀ spec, FlipsAt types b d spec) {name : NameID} {decl : TypeDeclaration}
    (hdecl : types name = some decl) {ps ps' : List ConcreteType} {invert invert' : Bool}
    {c c' : ConcreteType} (hc : typeDeclToConcrete types depth decl ps invert = some c)
    (hc' : typeDeclToConcrete types depth decl ps' invert' = some c')
    (hfields : ∀ field ∈ decl.fields, ∀ x i i', Shows types i field x i' →
      genericSubs decl.genericArgs ps' x = (genericSubs decl.genericArgs ps x).map (·.flip b))
    (hprimitive : ∀ base, decl.kind = .primitive base → ps' = ps.map (·.flip b))
    (hflag : invert' = (invert != b) ∨
      ∀ members, decl.kind = .struct members → ∀ m ∈ members, ¬ HasPort types m.2) :
    c' = c.flip b := by
  cases depth with
  | zero => exact absurd hc (by simp [typeDeclToConcrete])
  | succ depth =>
      rw [typeDeclToConcrete_succ] at hc hc'
      obtain ⟨-, hc⟩ := hc
      obtain ⟨-, hc'⟩ := hc'
      rcases hkind : decl.kind with options | base | members <;> simp only [hkind] at hc hc'
      · obtain ⟨css, hcss, rfl⟩ := hc
        obtain ⟨css', hcss', rfl⟩ := hc'
        rw [ConcreteType.flip, ConcreteType.flipOptions_eq]
        congr 1
        refine forall₂_eq_map hcss hcss' fun types' htypes as bs has hbs => ?_
        refine forall₂_eq_map has hbs fun s hs a a' ha ha' => ?_
        have hmem : s ∈ decl.fields := by
          rw [fields_enum hkind]
          exact List.mem_flatten_of_mem htypes hs
        exact hspec depth (Nat.lt_succ_self _) s ha ha' (hfields s hmem)
          (.inr (henums name decl options hdecl hkind s hmem))
      · rw [hc, hc', hprimitive base hkind, ConcreteType.flip, ConcreteType.flips_eq]
      · obtain ⟨cs, hcs, rfl⟩ := hc
        obtain ⟨cs', hcs', rfl⟩ := hc'
        rw [ConcreteType.flip, ConcreteType.flipMembers_eq]
        congr 1
        refine forall₂_eq_map hcs hcs' fun m hm a a' ha ha' => ?_
        have hmem : m.2 ∈ decl.fields := by
          rw [fields_struct hkind]
          exact List.mem_map_of_mem hm
        have hflip := hspec depth (Nat.lt_succ_self _) m.2 ha.2 ha'.2 (hfields m.2 hmem)
          (hflag.imp_right fun h => h members hkind m hm)
        rw [Prod.ext_iff]
        exact ⟨ha'.1.symm.trans ha.1, hflip⟩

theorem flipsAt (henums : EnumsPortless types) (b : Bool) (depth : ℕ) (spec : TypeSpec) :
    FlipsAt types b depth spec := by
  induction depth using Nat.strong_induction_on generalizing spec with
  | _ depth hdepth =>
    induction spec using TypeSpec.specInduction with
    | declared name params ih =>
        intro subs subs' invert invert' c c' hc hc' hsubs hflag
        obtain ⟨decl, ps, hdecl, hps, hc⟩ := typeSpecToConcrete_declared.mp hc
        obtain ⟨decl', ps', hdecl', hps', hc'⟩ := typeSpecToConcrete_declared.mp hc'
        obtain rfl := Option.some.inj (hdecl.symm.trans hdecl')
        -- an argument that is shown is inverted along with the flag
        have hparam : ∀ e ∈ params, ∀ p p',
            typeExprToConcrete types depth subs invert e = some p →
            typeExprToConcrete types depth subs' invert' e = some p' →
            (∀ s, e = .typeSpec s → (∀ x i i', Shows types i s x i' →
              Shows types i (.declared name params) x i') ∧
              (HasPort types s → HasPort types (.declared name params))) →
            p' = p.flip b := by
          intro e he p p' hp hp' hs
          cases e with
          | integer v =>
              obtain rfl := Option.some.inj hp
              obtain rfl := Option.some.inj hp'
              rfl
          | typeSpec s =>
              obtain ⟨hshows, hport⟩ := hs s rfl
              exact ih s he hp hp' (fun x i i' h => hsubs x i i' (hshows x i i' h))
                (hflag.imp_right (mt hport))
          | constGeneric g => exact absurd hp (by simp [typeExprToConcrete, typeExprWith])
        refine typeDeclToConcrete_flip henums (fun d hd => hdepth d hd) hdecl hc hc' ?_ ?_ ?_
        · intro field hfield x i i' hshows
          rcases genericSubs_rel hps decl.genericArgs x with ⟨he, hp⟩ | ⟨e, hmem, p, he, hp, hep⟩ <;>
            rcases genericSubs_rel hps' decl.genericArgs x with
              ⟨he', hp'⟩ | ⟨e', -, p', he', hp', hep'⟩
          · rw [hp, hp']
            rfl
          · exact absurd he' (by simp [he])
          · exact absurd he' (by simp [he])
          · obtain rfl := Option.some.inj (he.symm.trans he')
            rw [hp, hp', Option.map_some]
            congr 1
            refine hparam e hmem p p' hep hep' fun s hs => ?_
            subst hs
            exact ⟨fun y j j' h => .field hdecl hfield hshows he h,
              fun h => .param hdecl hfield hshows he h⟩
        · intro base hkind
          refine forall₂_eq_map hps hps' fun e he p p' hp hp' => hparam e he p p' hp hp' ?_
          intro s hs
          subst hs
          exact ⟨fun y j j' h => .primitive hdecl hkind he h, fun h => .primitive hdecl hkind he h⟩
        · exact hflag.imp_right fun h members hkind m hm hport => h (.member hdecl hkind hm hport)
    | generic name =>
        intro subs subs' invert invert' c c' hc hc' hsubs hflag
        have hname := hsubs name invert invert (.generic invert name)
        rw [typeSpecToConcrete_generic] at hc hc'
        rw [hc, hc'] at hname
        exact Option.some.inj hname
    | tuple inner ih =>
        intro subs subs' invert invert' c c' hc hc' hsubs hflag
        obtain ⟨cs, hcs, rfl⟩ := typeSpecToConcrete_tuple.mp hc
        obtain ⟨cs', hcs', rfl⟩ := typeSpecToConcrete_tuple.mp hc'
        rw [ConcreteType.flip, ConcreteType.flips_eq]
        congr 1
        exact forall₂_eq_map hcs hcs' fun s hs a a' ha ha' => ih s hs ha ha'
          (fun x i i' h => hsubs x i i' (.tuple hs h)) (hflag.imp_right fun h h' => h (.tuple hs h'))
    | array inner size ih ihsize =>
        intro subs subs' invert invert' c c' hc hc' hsubs hflag
        obtain ⟨x, n, hn, hx, rfl⟩ := typeSpecToConcrete_array.mp hc
        obtain ⟨x', n', hn', hx', rfl⟩ := typeSpecToConcrete_array.mp hc'
        have hinner := ih hx hx' (fun x i i' h => hsubs x i i' (.array h))
          (hflag.imp_right fun h h' => h (.array h'))
        have hsize : ConcreteType.integer n' = .integer n := by
          cases size with
          | integer v => exact (Option.some.inj hn').symm.trans (Option.some.inj hn)
          | typeSpec s =>
              exact ihsize s rfl hn hn' (fun x i i' h => hsubs x i i' (.size h))
                (hflag.imp_right fun h h' => h (.size h'))
          | constGeneric g => exact absurd hn (by simp [typeExprToConcrete, typeExprWith])
        rw [hinner, ConcreteType.integer.inj hsize, ConcreteType.flip]
    | unit =>
        intro subs subs' invert invert' c c' hc
        exact absurd hc (by simp [typeSpecToConcrete, typeSpecWith])
    | backward inner ih =>
        intro subs subs' invert invert' c c' hc hc' hsubs hflag
        obtain ⟨x, hx, rfl⟩ := typeSpecToConcrete_backward.mp hc
        obtain ⟨x', hx', rfl⟩ := typeSpecToConcrete_backward.mp hc'
        obtain rfl := hflag.resolve_right fun h => h (.backward inner)
        rw [ih hx hx' (fun x i i' h => hsubs x i i' (.backward h)) (.inl rfl)]
        cases invert <;> cases b <;> simp [ConcreteType.flip]
    | inverted inner ih =>
        intro subs subs' invert invert' c c' hc hc' hsubs hflag
        refine ih hc hc' (fun x i i' h => hsubs x (!i) i' (.inverted (by simpa using h))) ?_
        exact hflag.imp (by rintro rfl; cases invert <;> cases b <;> rfl) fun h h' => h (.inverted h')
    | wire inner ih =>
        intro subs subs' invert invert' c c' hc hc' hsubs hflag
        obtain ⟨x, hx, rfl⟩ := typeSpecToConcrete_wire.mp hc
        obtain ⟨x', hx', rfl⟩ := typeSpecToConcrete_wire.mp hc'
        obtain rfl := hflag.resolve_right fun h => h (.wire inner)
        rw [ih hx hx' (fun x i i' h => hsubs x i i' (.wire h)) (.inl rfl)]
        cases invert <;> cases b <;> simp [ConcreteType.flip]
    | traitSelf =>
        intro subs subs' invert invert' c c' hc
        exact absurd hc (by simp [typeSpecToConcrete, typeSpecWith])
    | wildcard =>
        intro subs subs' invert invert' c c' hc
        exact absurd hc (by simp [typeSpecToConcrete, typeSpecWith])

/-! ### What is shown can be read off -/

/-- The concrete type of every field is a part of the concrete type of the declaration. -/
theorem exists_field_concrete {depth : ℕ} {decl : TypeDeclaration} {ps ps' : List ConcreteType}
    {invert invert' : Bool} {c : ConcreteType}
    (hc : typeDeclToConcrete types (depth + 1) decl ps invert = some c)
    (hc' : typeDeclToConcrete types (depth + 1) decl ps' invert' = some c) {field : TypeSpec}
    (hfield : field ∈ decl.fields) :
    ∃ i i' x, typeSpecToConcrete types depth (genericSubs decl.genericArgs ps) i field = some x ∧
      typeSpecToConcrete types depth (genericSubs decl.genericArgs ps') i' field = some x := by
  rw [typeDeclToConcrete_succ] at hc hc'
  obtain ⟨-, hc⟩ := hc
  obtain ⟨-, hc'⟩ := hc'
  rcases hkind : decl.kind with options | base | members <;> simp only [hkind] at hc hc'
  · obtain ⟨css, hcss, rfl⟩ := hc
    obtain ⟨css', hcss', heq⟩ := hc'
    rw [← ConcreteType.enum.inj heq] at hcss'
    rw [fields_enum hkind] at hfield
    obtain ⟨args, hargs, hfield⟩ := List.mem_flatten.mp hfield
    obtain ⟨cs, hcs, hcs'⟩ := exists_common_of_mem hcss hcss' hargs
    obtain ⟨x, hx, hx'⟩ := exists_common_of_mem hcs hcs' hfield
    exact ⟨false, false, x, hx, hx'⟩
  · rw [TypeDeclaration.fields, hkind] at hfield
    exact absurd hfield List.not_mem_nil
  · obtain ⟨cs, hcs, rfl⟩ := hc
    obtain ⟨cs', hcs', heq⟩ := hc'
    rw [← ConcreteType.struct.inj heq] at hcs'
    rw [fields_struct hkind] at hfield
    obtain ⟨m, hm, rfl⟩ := List.mem_map.mp hfield
    obtain ⟨x, hx, hx'⟩ := exists_common_of_mem hcs hcs' hm
    exact ⟨invert, invert', x.2, hx.2, hx'.2⟩

/-- The arguments of a declared type with the concrete types in two contexts. -/
theorem exists_declared {depth : ℕ} {subs subs' : NameID → Option ConcreteType}
    {invert invert' : Bool} {c : ConcreteType} {name : NameID} {params : List TypeExpression}
    {decl : TypeDeclaration} (hdecl : types name = some decl)
    (hc : typeSpecToConcrete types depth subs invert (.declared name params) = some c)
    (hc' : typeSpecToConcrete types depth subs' invert' (.declared name params) = some c) :
    ∃ d ps ps', depth = d + 1 ∧
      List.Forall₂ (fun e p => typeExprToConcrete types depth subs invert e = some p) params ps ∧
      List.Forall₂ (fun e p => typeExprToConcrete types depth subs' invert' e = some p)
        params ps' ∧
      typeDeclToConcrete types depth decl ps invert = some c ∧
      typeDeclToConcrete types depth decl ps' invert' = some c := by
  obtain ⟨decl₁, ps, hdecl₁, hps, hc⟩ := typeSpecToConcrete_declared.mp hc
  obtain ⟨decl₂, ps', hdecl₂, hps', hc'⟩ := typeSpecToConcrete_declared.mp hc'
  obtain rfl := Option.some.inj (hdecl.symm.trans hdecl₁)
  obtain rfl := Option.some.inj (hdecl.symm.trans hdecl₂)
  cases depth with
  | zero => exact absurd hc (by simp [typeDeclToConcrete])
  | succ d => exact ⟨d, ps, ps', rfl, hps, hps', hc, hc'⟩

/-- What stands for a generic argument can be read off the concrete type, if it is shown. -/
theorem Shows.subs_eq {i i' : Bool} {spec : TypeSpec} {x : NameID} (h : Shows types i spec x i')
    {depth : ℕ} {subs subs' : NameID → Option ConcreteType} {invert invert' : Bool}
    {c : ConcreteType} (hc : typeSpecToConcrete types depth subs invert spec = some c)
    (hc' : typeSpecToConcrete types depth subs' invert' spec = some c) : subs x = subs' x := by
  induction h generalizing depth subs subs' invert invert' c with
  | generic => exact hc.trans hc'.symm
  | field hdecl hfield _ hparam _ ihfield ih =>
      obtain ⟨d, ps, ps', rfl, hps, hps', hc, hc'⟩ := exists_declared hdecl hc hc'
      obtain ⟨j, j', y, hy, hy'⟩ := exists_field_concrete hc hc' hfield
      obtain ⟨z, hz, hz'⟩ := genericSubs_common hps hps' hparam (ihfield hy hy')
      exact ih hz hz'
  | primitive hdecl hkind hparam _ ih =>
      obtain ⟨d, ps, ps', rfl, hps, hps', hc, hc'⟩ := exists_declared hdecl hc hc'
      simp only [typeDeclToConcrete_succ, hkind] at hc hc'
      obtain rfl := (ConcreteType.single.inj (hc.2.symm.trans hc'.2)).2
      obtain ⟨z, hz, hz'⟩ := exists_common_of_mem hps hps' hparam
      exact ih hz hz'
  | tuple hs _ ih =>
      obtain ⟨cs, hcs, rfl⟩ := typeSpecToConcrete_tuple.mp hc
      obtain ⟨cs', hcs', heq⟩ := typeSpecToConcrete_tuple.mp hc'
      rw [← ConcreteType.tuple.inj heq] at hcs'
      obtain ⟨z, hz, hz'⟩ := exists_common_of_mem hcs hcs' hs
      exact ih hz hz'
  | array _ ih =>
      obtain ⟨y, n, -, hy, rfl⟩ := typeSpecToConcrete_array.mp hc
      obtain ⟨y', n', -, hy', heq⟩ := typeSpecToConcrete_array.mp hc'
      rw [← (ConcreteType.array.inj heq).1] at hy'
      exact ih hy hy'
  | size _ ih =>
      obtain ⟨y, n, hn, -, rfl⟩ := typeSpecToConcrete_array.mp hc
      obtain ⟨y', n', hn', -, heq⟩ := typeSpecToConcrete_array.mp hc'
      rw [← (ConcreteType.array.inj heq).2] at hn'
      exact ih hn hn'
  | backward _ ih =>
      obtain ⟨y, hy, rfl⟩ := typeSpecToConcrete_backward.mp hc
      obtain ⟨y', hy', heq⟩ := typeSpecToConcrete_backward.mp hc'
      have hyy : y = y' := by
        cases invert <;> cases invert' <;> simp at heq <;> exact heq
      exact ih hy (hyy ▸ hy')
  | wire _ ih =>
      obtain ⟨y, hy, rfl⟩ := typeSpecToConcrete_wire.mp hc
      obtain ⟨y', hy', heq⟩ := typeSpecToConcrete_wire.mp hc'
      have hyy : y = y' := by
        cases invert <;> cases invert' <;> simp at heq <;> exact heq
      exact ih hy (hyy ▸ hy')
  | inverted _ ih => exact ih hc hc'

/-- A type with a port is not its own inversion. -/
theorem HasPort.ne {spec : TypeSpec} (h : HasPort types spec) {depth : ℕ}
    {subs subs' : NameID → Option ConcreteType} {invert : Bool} {c : ConcreteType}
    (hc : typeSpecToConcrete types depth subs invert spec = some c)
    (hc' : typeSpecToConcrete types depth subs' (!invert) spec = some c) : False := by
  induction h generalizing depth subs subs' invert c with
  | wire =>
      obtain ⟨y, -, rfl⟩ := typeSpecToConcrete_wire.mp hc
      obtain ⟨y', -, heq⟩ := typeSpecToConcrete_wire.mp hc'
      cases invert <;> simp at heq
  | backward =>
      obtain ⟨y, -, rfl⟩ := typeSpecToConcrete_backward.mp hc
      obtain ⟨y', -, heq⟩ := typeSpecToConcrete_backward.mp hc'
      cases invert <;> simp at heq
  | inverted _ ih => exact ih hc hc'
  | tuple hs _ ih =>
      obtain ⟨cs, hcs, rfl⟩ := typeSpecToConcrete_tuple.mp hc
      obtain ⟨cs', hcs', heq⟩ := typeSpecToConcrete_tuple.mp hc'
      rw [← ConcreteType.tuple.inj heq] at hcs'
      obtain ⟨z, hz, hz'⟩ := exists_common_of_mem hcs hcs' hs
      exact ih hz hz'
  | array _ ih =>
      obtain ⟨y, n, -, hy, rfl⟩ := typeSpecToConcrete_array.mp hc
      obtain ⟨y', n', -, hy', heq⟩ := typeSpecToConcrete_array.mp hc'
      rw [← (ConcreteType.array.inj heq).1] at hy'
      exact ih hy hy'
  | size _ ih =>
      obtain ⟨y, n, hn, -, rfl⟩ := typeSpecToConcrete_array.mp hc
      obtain ⟨y', n', hn', -, heq⟩ := typeSpecToConcrete_array.mp hc'
      rw [← (ConcreteType.array.inj heq).2] at hn'
      exact ih hn hn'
  | member hdecl hkind hm _ ih =>
      obtain ⟨d, ps, ps', rfl, -, -, hc, hc'⟩ := exists_declared hdecl hc hc'
      simp only [typeDeclToConcrete_succ, hkind] at hc hc'
      obtain ⟨-, cs, hcs, rfl⟩ := hc
      obtain ⟨-, cs', hcs', heq⟩ := hc'
      rw [← ConcreteType.struct.inj heq] at hcs'
      obtain ⟨z, hz, hz'⟩ := exists_common_of_mem hcs hcs' hm
      exact ih hz.2 hz'.2
  | param hdecl hfield hshows hparam _ ih =>
      obtain ⟨d, ps, ps', rfl, hps, hps', hc, hc'⟩ := exists_declared hdecl hc hc'
      obtain ⟨j, j', y, hy, hy'⟩ := exists_field_concrete hc hc' hfield
      obtain ⟨z, hz, hz'⟩ := genericSubs_common hps hps' hparam (hshows.subs_eq hy hy')
      exact ih hz hz'
  | primitive hdecl hkind hparam _ ih =>
      obtain ⟨d, ps, ps', rfl, hps, hps', hc, hc'⟩ := exists_declared hdecl hc hc'
      simp only [typeDeclToConcrete_succ, hkind] at hc hc'
      obtain rfl := (ConcreteType.single.inj (hc.2.symm.trans hc'.2)).2
      obtain ⟨z, hz, hz'⟩ := exists_common_of_mem hps hps' hparam
      exact ih hz hz'

end Spade.Typeinference

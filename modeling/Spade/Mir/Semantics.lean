import Spade.Mir.Codegen

/-!
# Runs of a list of MIR statements

What a list of statements means as hardware. In every cycle each name carries a bit string; the
bindings and constants relate the names of one cycle (`Satisfied`), the registers and the inner
state of memories and instances relate a cycle to the next one (`Run`).

The operators whose Verilog is modelled compute what their Verilog computes on the bits of the
operands, where a value without bits is the empty bit string. Everything else is a parameter,
`Interp`: a statement about every interpretation is a statement about whatever the remaining
operators, the modules of instances and the undefined bits turn out to be.
-/

namespace Spade.Mir

open Verilog

/-- What the model leaves open. `H` is the type of the inner state a binding may have, such as
the contents of a memory or the registers of an instance. -/
structure Interp (H : Type) where
  /-- The value of an operator in the given inner state on the given operands. -/
  out : Op → Ty → H → List BitString → BitString
  /-- The inner state of an operator in the next cycle. -/
  next : Op → Ty → H → List BitString → H
  /-- The undefined bits of an expression. -/
  pad : H → ℕ → Bool
  /-- The bits of a value that is not driven. -/
  highImp : Ty → BitString

/-- An interpretation without inner states. -/
def plainInterp : Interp Unit where
  out _ _ _ _ := []
  next _ _ _ _ := ()
  pad _ _ := false
  highImp _ := []

/-- The bits of the `localparam` of a constant. -/
def constantBits (highImp : Ty → BitString) (ty : Ty) : ConstantValue → BitString
  | .int val => BitString.ofNat ty.size (val % 2 ^ ty.size).toNat
  | .bool val => BitString.ofNat ty.size val.toNat
  | .highImp => highImp ty

variable {H : Type}

/-- The value of a binding of type `ty` on the values of its operands. The identifiers of the
Verilog expression are the positions of the operands. An alias is assigned the value of its
operand, which has the same type. -/
def Interp.denote (I : Interp H) (h : H) (operator : Op) (ty : Ty) (vals : List BitString) :
    BitString :=
  if operator.isAlias then vals.headD []
  else if operator.isMatch then
    (matchAssigned (fun i => vals[i]?) (I.pad h) ty (List.range vals.length)).getD
      (I.out operator ty h vals)
  else (assigned (fun i => vals[i]?) (I.pad h) ty
    (forwardExpressionCode operator ty (List.range vals.length))).getD (I.out operator ty h vals)

/-- The values of one cycle obey a statement. -/
def Satisfied (I : Interp H) (hid : ValueName → H) (ρ : ValueName → BitString) :
    Statement → Prop
  | .binding b => ρ b.name = I.denote (hid b.name) b.operator b.ty (b.operands.map ρ)
  | .constant id ty value => ρ (.expr id) = constantBits I.highImp ty value
  | _ => True

/-- The edges at the end of a cycle: whether the `always` block with the given clock and reset
trigger in its sensitivity list is executed. -/
abbrev Edges := ValueName → Option ValueName → Bool

/-- The value a register loads when its `always` block is executed. -/
def Register.loaded {σ : Type} (r : Register σ) (ρ : ValueName → BitString) : BitString :=
  match r.reset with
  | some (trigger, value) => if (ρ trigger).toNat ≠ 0 then ρ value else ρ r.value
  | none => ρ r.value

/-- The value of a register in the next cycle. -/
def Register.next {σ : Type} (r : Register σ) (edges : Edges) (ρ : ValueName → BitString) :
    BitString :=
  if edges r.clock (r.reset.map Prod.fst) then r.loaded ρ else ρ r.name

/-- A run of a list of statements: the values `ρ` of all names and the inner states `hid` of all
bindings, cycle by cycle. -/
structure Run (I : Interp H) (edges : ℕ → Edges) (stmts : List Statement)
    (ρ : ℕ → ValueName → BitString) (hid : ℕ → ValueName → H) : Prop where
  satisfied : ∀ t, ∀ s ∈ stmts, Satisfied I (hid t) (ρ t) s
  register : ∀ t r, .register r ∈ stmts → ρ (t + 1) r.name = r.next (edges t) (ρ t)
  hidden : ∀ t b, .binding b ∈ stmts → hid (t + 1) b.name =
    I.next b.operator b.ty (hid t b.name) (b.operands.map (ρ t))
  /-- A register holds a value of its type. -/
  sized : ∀ t r, .register r ∈ stmts → (ρ t r.name).length = r.ty.size

/-! ### Checking a run statement by statement -/

/-- What a statement asks of two consecutive cycles. -/
def Advances (I : Interp H) (edges : Edges) (ρ ρ' : ValueName → BitString)
    (hid hid' : ValueName → H) : Statement → Prop
  | .register r => ρ' r.name = r.next edges ρ ∧ (ρ r.name).length = r.ty.size
  | .binding b => hid' b.name = I.next b.operator b.ty (hid b.name) (b.operands.map ρ)
  | _ => True

instance (I : Interp H) (hid : ValueName → H) (ρ : ValueName → BitString) :
    DecidablePred (Satisfied I hid ρ)
  | .binding b => inferInstanceAs (Decidable
      (ρ b.name = I.denote (hid b.name) b.operator b.ty (b.operands.map ρ)))
  | .constant id ty value =>
      inferInstanceAs (Decidable (ρ (.expr id) = constantBits I.highImp ty value))
  | .register _ | .assert _ | .set .. | .walTrace .. => inferInstanceAs (Decidable True)

instance [DecidableEq H] (I : Interp H) (edges : Edges) (ρ ρ' : ValueName → BitString)
    (hid hid' : ValueName → H) : DecidablePred (Advances I edges ρ ρ' hid hid')
  | .register r => inferInstanceAs (Decidable
      (ρ' r.name = r.next edges ρ ∧ (ρ r.name).length = r.ty.size))
  | .binding b => inferInstanceAs (Decidable
      (hid' b.name = I.next b.operator b.ty (hid b.name) (b.operands.map ρ)))
  | .constant .. | .assert _ | .set .. | .walTrace .. => inferInstanceAs (Decidable True)

/-- A run is what every statement accepts in every cycle. -/
theorem run_iff_statements {I : Interp H} {edges : ℕ → Edges} {stmts : List Statement}
    {ρ : ℕ → ValueName → BitString} {hid : ℕ → ValueName → H} :
    Run I edges stmts ρ hid ↔ ∀ t, (∀ s ∈ stmts, Satisfied I (hid t) (ρ t) s) ∧
      ∀ s ∈ stmts, Advances I (edges t) (ρ t) (ρ (t + 1)) (hid t) (hid (t + 1)) s := by
  constructor
  · intro run t
    refine ⟨run.satisfied t, fun s hs => ?_⟩
    cases s with
    | register r => exact ⟨run.register t r hs, run.sized t r hs⟩
    | binding b => exact run.hidden t b hs
    | _ => trivial
  · intro h
    exact
      { satisfied := fun t => (h t).1
        register := fun t r hr => ((h t).2 _ hr).1
        hidden := fun t b hb => (h t).2 _ hb
        sized := fun t r hr => ((h t).2 _ hr).2 }

/-! ### The operators that rearrange bits -/

section Denote

variable (I : Interp H) (h : H)

theorem not_isMatch_of_code {ν : Type} {operator : Op} {ty : Ty} {ops : List ν} {e : Expr ν}
    (hcode : forwardExpressionCode operator ty ops = some e) : ¬ operator.isMatch = true := by
  cases operator with
  | match_ => exact absurd hcode.symm (Option.some_ne_none _)
  | _ => simp [Operator.isMatch]

theorem not_isAlias_of_code {ν : Type} {operator : Op} {ty : Ty} {ops : List ν} {e : Expr ν}
    (hcode : forwardExpressionCode operator ty ops = some e) : ¬ operator.isAlias = true := by
  rw [Operator.isAlias_iff]
  rintro rfl
  exact Option.some_ne_none _ hcode.symm

/-- An operator whose expression has a value denotes this value, in the width of its type. -/
theorem Interp.denote_of_eval {operator : Op} {ty : Ty} {vals : List BitString} {e : Expr ℕ}
    {bits : BitString}
    (hcode : forwardExpressionCode operator ty (List.range vals.length) = some e)
    (heval : e.eval (fun i => vals[i]?) (I.pad h) = some bits) :
    I.denote h operator ty vals = BitString.resize ty.size bits := by
  rw [Interp.denote, if_neg (not_isAlias_of_code hcode), if_neg (not_isMatch_of_code hcode), hcode]
  by_cases hty : ty.size = 0
  · simp [assigned, hty]
  · rw [assigned_of_pos hty heval, Option.getD_some]

theorem Interp.denote_of_size_eq_zero {operator : Op} {ty : Ty} {vals : List BitString}
    (hop : ¬ operator.isAlias = true) (hop' : ¬ operator.isMatch = true) (hty : ty.size = 0) :
    I.denote h operator ty vals = [] := by
  simp [Interp.denote, hop, hop', assigned, hty]

theorem Interp.denote_alias {ty : Ty} {val : BitString} {vals : List BitString} :
    I.denote h .alias ty (val :: vals) = val := rfl

theorem Interp.denote_select {ty : Ty} {cond a b : BitString} (ha : a.length = ty.size)
    (hb : b.length = ty.size) :
    I.denote h .select ty [cond, a, b] = if cond.toNat ≠ 0 then a else b := by
  have heval : (Expr.cond (.ident 0) (.ident 1) (.ident 2)).eval (fun i => [cond, a, b][i]?)
      (I.pad h) = some (if cond.toNat ≠ 0 then a else b) := by
    have hlen : (if cond.toNat ≠ 0 then a else b).length = ty.size := by
      split_ifs <;> assumption
    simp only [Expr.eval, List.getElem?_cons_zero, List.getElem?_cons_succ, Option.bind_eq_bind,
      Option.bind_some, ha, hb, max_self]
    rw [BitString.resize_of_length_eq hlen]
  rw [I.denote_of_eval h rfl heval, BitString.resize_of_length_eq]
  split_ifs <;> assumption

theorem Interp.denote_concat_pair {ty : Ty} {a b : BitString}
    (hlen : a.length + b.length = ty.size) : I.denote h .concat ty [a, b] = a ++ b := by
  have heval : (concatCode [0, 1]).eval (fun i => [a, b][i]?) (I.pad h) = some (a ++ b) := by
    simp [concatCode, Expr.evalConcat, Expr.eval]
  rw [I.denote_of_eval h rfl heval, BitString.resize_of_length_eq (by simpa using hlen)]

theorem Interp.denote_logicalAnd {a b : BitString} :
    I.denote h .logicalAnd .bool [a, b] = [a.toNat != 0 && b.toNat != 0] := by
  rw [I.denote_of_eval h (e := .and (.ident 0) (.ident 1)) rfl rfl]
  exact BitString.resize_of_length_eq rfl

theorem Interp.denote_logicalNot {a : BitString} :
    I.denote h .logicalNot .bool [a] = [a.toNat == 0] := by
  rw [I.denote_of_eval h (e := .not (.ident 0)) rfl rfl]
  exact BitString.resize_of_length_eq rfl

theorem Interp.denote_not {a : BitString} : I.denote h .not .bool [a] = [a.toNat == 0] := by
  rw [I.denote_of_eval h (e := .not (.ident 0)) rfl rfl]
  exact BitString.resize_of_length_eq rfl

theorem Interp.denote_eq {a b : BitString} :
    I.denote h .eq .bool [a, b] = [a.toNat == b.toNat] := by
  rw [I.denote_of_eval h (e := .eq (.ident 0) (.ident 1)) rfl rfl]
  exact BitString.resize_of_length_eq rfl

end Denote

/-! ### The match operator -/

section Match

end Match

end Spade.Mir

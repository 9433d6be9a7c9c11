import Spade.Parser.Printing

/-!
# How dereferences regroup an expression

The operand of a dereference is read as a whole expression, so it takes in everything up to the end
of the parentheses, brackets or list it stands in. `regroup expr` is the expression that is read
from the tokens of `expr`.

* `regroup_eq_iff`: an expression is its own regrouping just if its dereferences are closed.

The tokens of an expression are split at the last dereference that no parentheses enclose: `before`
is what is around its operand, and `after` is the operand as far as it has been read. What follows
the expression continues `after`.
-/

namespace Spade.Parser

open Spade.Ast

variable {T O : Type} {expr lhs rhs : Expression T O}

/-! ### Splitting at a dereference -/

structure Split (ε : Type) where
  before : Option (ε → ε)
  after : ε

namespace Split

variable {ε : Type}

/-- Puts an operand in the place of the one that has been read. -/
def fill (s : Split ε) (operand : ε) : ε :=
  match s.before with
  | none => operand
  | some before => before operand

def whole (s : Split ε) : ε := s.fill s.after

/-- Parentheses enclose the dereferences in them. -/
def surround (c : Prop) [Decidable c] (s : Split ε) : Split ε := if c then ⟨none, s.whole⟩ else s

def unary (op : UnaryOperator) (s : Split (Expression T O)) : Split (Expression T O) :=
  if op = .dereference then ⟨some fun operand => .unaryOperator op (s.fill operand), s.after⟩
  else
    match s.before with
    | none => ⟨none, .unaryOperator op s.after⟩
    | some before => ⟨some fun operand => .unaryOperator op (before operand), s.after⟩

def binary (l : Split (Expression T O)) (op : BinaryOperator) (r : Split (Expression T O)) :
    Split (Expression T O) :=
  match r.before with
  | none => ⟨l.before, .binaryOperator l.after op r.after⟩
  | some before =>
      ⟨some fun operand => l.fill (.binaryOperator l.after op (before operand)), r.after⟩

theorem fill_of_none {s : Split ε} (h : s.before = none) (operand : ε) :
    s.fill operand = operand := by
  rw [fill, h]

theorem fill_of_some {s : Split ε} {before : ε → ε} (h : s.before = some before) (operand : ε) :
    s.fill operand = before operand := by
  rw [fill, h]

@[simp] theorem whole_surround {c : Prop} [Decidable c] {s : Split ε} :
    (s.surround c).whole = s.whole := by
  unfold surround
  split
  · rfl
  · rfl

theorem surround_before {c : Prop} [Decidable c] {s : Split ε}
    (h : (s.surround c).before.isSome) : ¬ c ∧ s.surround c = s := by
  unfold surround at h ⊢
  split at h
  · exact absurd h Bool.false_ne_true
  · next hc => exact ⟨hc, if_neg hc⟩

theorem unary_of_none {op : UnaryOperator} {s : Split (Expression T O)} (hop : op ≠ .dereference)
    (h : s.before = none) : s.unary op = ⟨none, .unaryOperator op s.after⟩ := by
  rw [unary, if_neg hop, h]

theorem unary_of_some {op : UnaryOperator} {s : Split (Expression T O)}
    {before : Expression T O → Expression T O} (hop : op ≠ .dereference)
    (h : s.before = some before) :
    s.unary op = ⟨some fun operand => .unaryOperator op (before operand), s.after⟩ := by
  rw [unary, if_neg hop, h]

theorem binary_of_none {op : BinaryOperator} {l r : Split (Expression T O)}
    (h : r.before = none) : l.binary op r = ⟨l.before, .binaryOperator l.after op r.after⟩ := by
  rw [binary, h]

theorem binary_of_some {op : BinaryOperator} {l r : Split (Expression T O)}
    {before : Expression T O → Expression T O} (h : r.before = some before) :
    l.binary op r =
      ⟨some fun operand => l.fill (.binaryOperator l.after op (before operand)), r.after⟩ := by
  rw [binary, h]

theorem whole_unary {op : UnaryOperator} {s : Split (Expression T O)} :
    (s.unary op).whole = .unaryOperator op s.whole := by
  by_cases hop : op = .dereference
  · rw [unary, if_pos hop]
    rfl
  · cases h : s.before with
    | none =>
        rw [unary_of_none hop h, whole, whole, fill_of_none h]
        rfl
    | some before =>
        rw [unary_of_some hop h, whole, whole, fill_of_some h]
        rfl

/-- The operator is read where the left operand goes on. -/
theorem whole_binary {op : BinaryOperator} {l r : Split (Expression T O)} :
    (l.binary op r).whole = l.fill (.binaryOperator l.after op r.whole) := by
  cases h : r.before with
  | none =>
      rw [binary_of_none h, whole, whole, fill_of_none h]
      rfl
  | some before =>
      rw [binary_of_some h, whole, whole, fill_of_some h]
      rfl

end Split

/- What is read from the tokens of an expression, one function for every container. -/
mutual

def split : Expression T O → Split (Expression T O)
  | .identifier path => ⟨none, .identifier path⟩
  | .intLiteral val => ⟨none, .intLiteral val⟩
  | .boolLiteral val => ⟨none, .boolLiteral val⟩
  | .bitLiteral val => ⟨none, .bitLiteral val⟩
  | .arrayLiteral inner => ⟨none, .arrayLiteral (regroupAll inner)⟩
  | .arrayShorthandLiteral inner amount => ⟨none, .arrayShorthandLiteral (split inner).whole amount⟩
  | .index target idx => ⟨none, .index (split target).whole (split idx).whole⟩
  | .rangeIndex target start stop => ⟨none, .rangeIndex (split target).whole start stop⟩
  | .tupleLiteral inner => ⟨none, .tupleLiteral (regroupAll inner)⟩
  | .tupleIndex target idx => ⟨none, .tupleIndex (split target).whole idx⟩
  | .fieldAccess target field => ⟨none, .fieldAccess (split target).whole field⟩
  | .call kind callee args turbofish => ⟨none, .call kind callee (regroupArguments args) turbofish⟩
  | .methodCall target name args kind turbofish =>
      ⟨none, .methodCall (split target).whole name (regroupArguments args) kind turbofish⟩
  | .unaryOperator op operand =>
      ((split operand).surround (Looser operand (unopBindingPower op))).unary op
  | .binaryOperator lhs op rhs =>
      ((split lhs).surround (Looser lhs (binopBindingPower op))).binary op
        ((split rhs).surround (NotTighter rhs (binopBindingPower op)))
  | .other expr => ⟨none, .other expr⟩
termination_by structural expr => expr

def regroupAll : List (Expression T O) → List (Expression T O)
  | [] => []
  | first :: inner => (split first).whole :: regroupAll inner
termination_by structural inner => inner

def regroupArguments : ArgumentList (Expression T O) → ArgumentList (Expression T O)
  | .positional args => .positional (regroupAll args)
  | .named args => .named (regroupNamed args)
termination_by structural args => args

def regroupNamed : List (NamedArgument (Expression T O)) → List (NamedArgument (Expression T O))
  | [] => []
  | .full name value :: args => .full name (split value).whole :: regroupNamed args
  | .short name :: args => .short name :: regroupNamed args
termination_by structural args => args

end

theorem split_unaryOperator {op : UnaryOperator} {operand : Expression T O} :
    split (.unaryOperator op operand) =
      ((split operand).surround (Looser operand (unopBindingPower op))).unary op :=
  rfl

theorem split_binaryOperator {op : BinaryOperator} :
    split (.binaryOperator lhs op rhs) =
      ((split lhs).surround (Looser lhs (binopBindingPower op))).binary op
        ((split rhs).surround (NotTighter rhs (binopBindingPower op))) :=
  rfl

def regroup (expr : Expression T O) : Expression T O := (split expr).whole

/-- Lists and arguments are regrouped one by one. -/
theorem regroupAll_eq_map {inner : List (Expression T O)} :
    regroupAll inner = inner.map regroup := by
  induction inner with
  | nil => rfl
  | cons first inner ih => rw [regroupAll, ih]; rfl

/-! ### Regrouping moves operators -/

/-- The number of operators and other parts outside of brackets. -/
def size : Expression T O → ℕ
  | .unaryOperator _ operand => size operand + 1
  | .binaryOperator lhs _ rhs => size lhs + size rhs + 1
  | _ => 1

theorem size_pos : ∀ {expr : Expression T O}, 0 < size expr := by
  intro expr
  cases expr <;> exact Nat.succ_pos _

/-- A split keeps the operators of an expression. -/
structure Split.Keeps (s : Split (Expression T O)) (n : ℕ) : Prop where
  after_le : size s.after ≤ n
  size_fill : ∀ operand, size (s.fill operand) + size s.after = n + size operand

namespace Split.Keeps

variable {s l r : Split (Expression T O)} {m n : ℕ}

theorem whole (h : s.Keeps n) : size s.whole = n := by
  have hwhole : size s.whole + size s.after = n + size s.after := h.size_fill s.after
  omega

theorem le (h : s.Keeps n) (operand : Expression T O) : size operand ≤ size (s.fill operand) := by
  have hafter := h.after_le
  have hoperand := h.size_fill operand
  omega

theorem of_none (h : size expr = n) : (⟨none, expr⟩ : Split (Expression T O)).Keeps n := by
  refine ⟨h.le, fun operand => ?_⟩
  show size operand + size expr = n + size operand
  omega

theorem surround {c : Prop} [Decidable c] (h : s.Keeps n) : (s.surround c).Keeps n := by
  unfold Split.surround
  split
  · exact .of_none h.whole
  · exact h

theorem unary {op : UnaryOperator} (h : s.Keeps n) : (s.unary op).Keeps (n + 1) := by
  obtain ⟨before, after⟩ := s
  have hafter : size after ≤ n := h.after_le
  unfold Split.unary
  split
  · refine ⟨Nat.le_succ_of_le hafter, fun operand => ?_⟩
    have hoperand : size (Split.fill _ operand) + size after = n + size operand :=
      h.size_fill operand
    show size (Split.fill _ operand) + 1 + size after = n + 1 + size operand
    omega
  · cases before with
    | none => exact .of_none (congrArg (· + 1) h.whole)
    | some before =>
        refine ⟨Nat.le_succ_of_le hafter, fun operand => ?_⟩
        have hoperand : size (before operand) + size after = n + size operand :=
          h.size_fill operand
        show size (before operand) + 1 + size after = n + 1 + size operand
        omega

theorem binary {op : BinaryOperator} (hl : l.Keeps m) (hr : r.Keeps n) :
    (l.binary op r).Keeps (m + n + 1) := by
  obtain ⟨before, after⟩ := r
  have hafter : size after ≤ n := hr.after_le
  have hlafter := hl.after_le
  cases before with
  | none =>
      have hwhole : size after = n := hr.whole
      refine ⟨?_, fun operand => ?_⟩
      · show size l.after + size after + 1 ≤ m + n + 1
        omega
      · have hleft := hl.size_fill operand
        show size (l.fill operand) + (size l.after + size after + 1) = m + n + 1 + size operand
        omega
  | some before =>
      refine ⟨?_, fun operand => ?_⟩
      · show size after ≤ m + n + 1
        omega
      · have hright : size (before operand) + size after = n + size operand := hr.size_fill operand
        have hleft : size (l.fill (.binaryOperator l.after op (before operand))) + size l.after =
            m + (size l.after + size (before operand) + 1) := hl.size_fill _
        show size (l.fill (.binaryOperator l.after op (before operand))) + size after = _
        omega

end Split.Keeps

theorem split_keeps : ∀ expr : Expression T O, (split expr).Keeps (size expr)
  | .identifier _ | .intLiteral _ | .boolLiteral _ | .bitLiteral _ | .arrayLiteral _
  | .arrayShorthandLiteral _ _ | .index _ _ | .rangeIndex _ _ _ | .tupleLiteral _
  | .tupleIndex _ _ | .fieldAccess _ _ | .call _ _ _ _ | .methodCall _ _ _ _ _ | .other _ =>
      .of_none rfl
  | .unaryOperator _ operand => (split_keeps operand).surround.unary
  | .binaryOperator lhs _ rhs => (split_keeps lhs).surround.binary (split_keeps rhs).surround

/-- What is filled in stands on the right of the operators around it. -/
def Split.FillsRight (s : Split (Expression T O)) : Prop :=
  ∀ before, s.before = some before → ∀ operand lhs op rhs,
    before operand = .binaryOperator lhs op rhs → size operand ≤ size rhs

namespace Split.FillsRight

variable {s l r : Split (Expression T O)}

theorem of_none : (⟨none, expr⟩ : Split (Expression T O)).FillsRight :=
  fun _ hnone => nomatch hnone

theorem surround {c : Prop} [Decidable c] (h : s.FillsRight) : (s.surround c).FillsRight := by
  unfold Split.surround
  split
  · exact .of_none
  · exact h

theorem unary {op : UnaryOperator} : (s.unary op).FillsRight := by
  obtain ⟨before, after⟩ := s
  unfold Split.unary
  split
  · rintro _ ⟨rfl⟩ operand lhs op rhs h
    exact nomatch h
  · cases before with
    | none => exact .of_none
    | some before =>
        rintro _ ⟨rfl⟩ operand lhs op rhs h
        exact nomatch h

theorem binary {op : BinaryOperator} {n : ℕ} (hl : l.FillsRight) (hr : r.Keeps n) :
    (l.binary op r).FillsRight := by
  obtain ⟨before, after⟩ := r
  cases before with
  | none => exact hl
  | some before =>
      rintro _ ⟨rfl⟩ operand lhs op' rhs (h : l.fill _ = _)
      have hle : size operand ≤ size (before operand) := hr.le operand
      cases hbefore : l.before with
      | none =>
          rw [Split.fill_of_none hbefore] at h
          obtain ⟨-, -, rfl⟩ := Expression.binaryOperator.inj h
          exact hle
      | some before' =>
          rw [Split.fill_of_some hbefore] at h
          have hright := hl before' hbefore _ _ _ _ h
          rw [size] at hright
          omega

end Split.FillsRight

theorem split_fillsRight : ∀ expr : Expression T O, (split expr).FillsRight
  | .identifier _ | .intLiteral _ | .boolLiteral _ | .bitLiteral _ | .arrayLiteral _
  | .arrayShorthandLiteral _ _ | .index _ _ | .rangeIndex _ _ _ | .tupleLiteral _
  | .tupleIndex _ _ | .fieldAccess _ _ | .call _ _ _ _ | .methodCall _ _ _ _ _ | .other _ =>
      .of_none
  | .unaryOperator _ _ => .unary
  | .binaryOperator lhs _ rhs =>
      (split_fillsRight lhs).surround.binary (split_keeps rhs).surround

/-- A left operand that has an open dereference is not a left operand of what is read. -/
theorem fill_ne_binaryOperator {before : Expression T O → Expression T O}
    (h : (split lhs).before = some before) (operand rhs : Expression T O) (op : BinaryOperator) :
    before operand ≠ .binaryOperator lhs op rhs := by
  intro heq
  have hright : size operand ≤ size rhs := split_fillsRight lhs before h operand lhs op rhs heq
  have hkeeps := (split_keeps lhs).size_fill operand
  have hafter : 0 < size (split lhs).after := size_pos
  rw [Split.fill_of_some h, heq, size] at hkeeps
  omega

/-! ### Literals -/

/-- Around a dereference there is no literal. -/
theorem before_ne_intLiteral : ∀ {expr : Expression T O} {before : Expression T O → Expression T O},
    (split expr).before = some before → ∀ operand val, before operand ≠ .intLiteral val
  | .unaryOperator op operand, before, h, operand', val => by
      rw [split_unaryOperator] at h
      by_cases hop : op = .dereference
      · rw [Split.unary, if_pos hop] at h
        obtain ⟨rfl⟩ := h
        exact nofun
      · cases hbefore : ((split operand).surround (Looser operand (unopBindingPower op))).before with
        | none =>
            rw [Split.unary_of_none hop hbefore] at h
            exact nomatch h
        | some before' =>
            rw [Split.unary_of_some hop hbefore] at h
            obtain ⟨rfl⟩ := h
            exact nofun
  | .binaryOperator lhs op rhs, before, h, operand, val => by
      have hlhs : ∀ {before'},
          ((split lhs).surround (Looser lhs (binopBindingPower op))).before = some before' →
          ∀ operand' val', before' operand' ≠ .intLiteral val' := by
        intro before' hbefore
        rw [(Split.surround_before (Option.isSome_of_eq_some hbefore)).2] at hbefore
        exact before_ne_intLiteral hbefore
      rw [split_binaryOperator] at h
      cases hrhs : ((split rhs).surround (NotTighter rhs (binopBindingPower op))).before with
      | none =>
          rw [Split.binary_of_none hrhs] at h
          exact hlhs h operand val
      | some before' =>
          rw [Split.binary_of_some hrhs] at h
          obtain ⟨rfl⟩ := h
          show Split.fill _ _ ≠ _
          cases hbefore : ((split lhs).surround (Looser lhs (binopBindingPower op))).before with
          | none =>
              rw [Split.fill_of_none hbefore]
              exact nofun
          | some before =>
              rw [Split.fill_of_some hbefore]
              exact hlhs hbefore _ val

theorem surround_before_ne_intLiteral {c : Prop} [Decidable c]
    {before : Expression T O → Expression T O}
    (h : ((split expr).surround c).before = some before) (operand : Expression T O)
    (val : IntLiteral) : before operand ≠ .intLiteral val := by
  rw [(Split.surround_before (Option.isSome_of_eq_some h)).2] at h
  exact before_ne_intLiteral h operand val

theorem regroup_ne_intLiteral (h : ∀ val, expr ≠ .intLiteral val) (val : IntLiteral) :
    regroup expr ≠ .intLiteral val := by
  cases expr with
  | intLiteral val' => exact absurd rfl (h val')
  | unaryOperator op operand =>
      rw [regroup, split_unaryOperator, Split.whole_unary]
      exact nofun
  | binaryOperator lhs op rhs =>
      rw [regroup, split_binaryOperator, Split.whole_binary]
      cases hbefore : ((split lhs).surround (Looser lhs (binopBindingPower op))).before with
      | none =>
          rw [Split.fill_of_none hbefore]
          exact nofun
      | some before =>
          rw [Split.fill_of_some hbefore]
          exact surround_before_ne_intLiteral hbefore _ val
  | _ => exact fun heq => nomatch heq

/-! ### Closed dereferences -/

theorem unary_before {op : UnaryOperator} {s : Split (Expression T O)} :
    (s.unary op).before.isSome ↔ op = .dereference ∨ s.before.isSome := by
  obtain ⟨before, after⟩ := s
  unfold Split.unary
  split
  · next hop => exact iff_of_true rfl (.inl hop)
  · next hop => cases before <;> simp [hop]

theorem binary_before {op : BinaryOperator} {l r : Split (Expression T O)} :
    (l.binary op r).before.isSome ↔ l.before.isSome ∨ r.before.isSome := by
  obtain ⟨before, after⟩ := r
  cases before <;> simp [Split.binary]

theorem surround_before_iff {c : Prop} [Decidable c] {s : Split (Expression T O)} :
    (s.surround c).before.isSome ↔ ¬ c ∧ s.before.isSome := by
  unfold Split.surround
  split
  · next hc => exact iff_of_false Bool.false_ne_true fun h => h.1 hc
  · next hc => exact (and_iff_right hc).symm

/-- Tokens that end in a dereference are split at one. -/
theorem split_before_of_ends : ∀ {expr : Expression T O}, EndsInDereference expr →
    (split expr).before.isSome
  | .unaryOperator op operand, h => by
      rw [split_unaryOperator, unary_before, surround_before_iff]
      by_cases hop : op = .dereference
      · exact .inl hop
      · have hends : ¬ Looser operand (unopBindingPower op) ∧ EndsInDereference operand := by
          cases op <;> first | exact absurd rfl hop | exact h
        exact .inr ⟨hends.1, split_before_of_ends hends.2⟩
  | .binaryOperator _ op rhs, h => by
      rw [split_binaryOperator, binary_before, surround_before_iff, surround_before_iff]
      exact .inr ⟨h.1, split_before_of_ends h.2⟩

/-- Where the dereferences are closed, they are split at no others. -/
theorem ends_of_split_before : ∀ {expr : Expression T O}, ClosedDereferences expr →
    (split expr).before.isSome → EndsInDereference expr
  | .unaryOperator op operand, hclosed, h => by
      rw [split_unaryOperator, unary_before, surround_before_iff] at h
      by_cases hop : op = .dereference
      · subst hop
        trivial
      · have hends := h.resolve_left hop
        cases op <;> first | exact absurd rfl hop |
          exact ⟨hends.1, ends_of_split_before hclosed hends.2⟩
  | .binaryOperator lhs op rhs, hclosed, h => by
      rw [split_binaryOperator, binary_before, surround_before_iff, surround_before_iff] at h
      rcases h with hlhs | hrhs
      · exact absurd (hclosed.2.2 (ends_of_split_before hclosed.1 hlhs.2)) hlhs.1
      · exact ⟨hrhs.1, ends_of_split_before hclosed.2.1 hrhs.2⟩

theorem regroup_unaryOperator {op : UnaryOperator} {operand : Expression T O} :
    regroup (.unaryOperator op operand) = .unaryOperator op (regroup operand) := by
  rw [regroup, split_unaryOperator, Split.whole_unary, Split.whole_surround]
  rfl

/-- Where no dereference of the left operand is open, both operands are regrouped. -/
theorem regroup_binaryOperator {op : BinaryOperator}
    (h : ((split lhs).surround (Looser lhs (binopBindingPower op))).before = none) :
    regroup (.binaryOperator lhs op rhs) = .binaryOperator (regroup lhs) op (regroup rhs) := by
  have hlhs : ((split lhs).surround (Looser lhs (binopBindingPower op))).whole = _ :=
    Split.fill_of_none h _
  rw [Split.whole_surround] at hlhs
  rw [regroup, split_binaryOperator, Split.whole_binary, Split.fill_of_none h,
    Split.whole_surround, ← hlhs]
  rfl

theorem regroup_binaryOperator_eq_iff {op : BinaryOperator} :
    regroup (.binaryOperator lhs op rhs) = .binaryOperator lhs op rhs ↔
      ((split lhs).surround (Looser lhs (binopBindingPower op))).before = none ∧
        regroup lhs = lhs ∧ regroup rhs = rhs := by
  cases hbefore : ((split lhs).surround (Looser lhs (binopBindingPower op))).before with
  | none =>
      rw [regroup_binaryOperator hbefore]
      simp only [Expression.binaryOperator.injEq, true_and]
  | some before =>
      have hsame : (split lhs).surround (Looser lhs (binopBindingPower op)) = split lhs :=
        (Split.surround_before (Option.isSome_of_eq_some hbefore)).2
      rw [regroup, split_binaryOperator, Split.whole_binary, Split.fill_of_some hbefore]
      rw [hsame] at hbefore
      exact iff_of_false (fill_ne_binaryOperator hbefore _ _ _) fun h => nomatch h.1

/-- Closed dereferences keep the left operand of an operator apart. -/
theorem surround_before_eq_none_iff {op : BinaryOperator} (h : ClosedDereferences lhs) :
    ((split lhs).surround (Looser lhs (binopBindingPower op))).before = none ↔
      (EndsInDereference lhs → Looser lhs (binopBindingPower op)) := by
  rw [← Option.not_isSome_iff_eq_none, surround_before_iff]
  constructor
  · intro hnone hends
    by_contra hloose
    exact hnone ⟨hloose, split_before_of_ends hends⟩
  · rintro hends ⟨hloose, hsome⟩
    exact hloose (hends (ends_of_split_before h hsome))

/- An expression is its own regrouping just if its dereferences are closed, by induction on the
expression. -/
mutual

theorem regroup_eq_iff : ∀ expr : Expression T O,
    regroup expr = expr ↔ ClosedDereferences expr
  | .identifier _ | .intLiteral _ | .boolLiteral _ | .bitLiteral _ | .other _ =>
      iff_of_true rfl trivial
  | .arrayLiteral inner => by
      rw [ClosedDereferences, ← regroupAll_eq_iff inner]
      show Expression.arrayLiteral (regroupAll inner) = .arrayLiteral inner ↔ _
      rw [Expression.arrayLiteral.injEq]
  | .arrayShorthandLiteral inner _ => by
      rw [ClosedDereferences, ← regroup_eq_iff inner]
      show Expression.arrayShorthandLiteral (regroup inner) _ = .arrayShorthandLiteral inner _ ↔ _
      simp only [Expression.arrayShorthandLiteral.injEq, and_true]
  | .index target idx => by
      rw [ClosedDereferences, ← regroup_eq_iff target, ← regroup_eq_iff idx]
      show Expression.index (regroup target) (regroup idx) = .index target idx ↔ _
      rw [Expression.index.injEq]
  | .rangeIndex target _ _ => by
      rw [ClosedDereferences, ← regroup_eq_iff target]
      show Expression.rangeIndex (regroup target) _ _ = .rangeIndex target _ _ ↔ _
      simp only [Expression.rangeIndex.injEq, and_true]
  | .tupleLiteral inner => by
      rw [ClosedDereferences, ← regroupAll_eq_iff inner]
      show Expression.tupleLiteral (regroupAll inner) = .tupleLiteral inner ↔ _
      rw [Expression.tupleLiteral.injEq]
  | .tupleIndex target _ => by
      rw [ClosedDereferences, ← regroup_eq_iff target]
      show Expression.tupleIndex (regroup target) _ = .tupleIndex target _ ↔ _
      simp only [Expression.tupleIndex.injEq, and_true]
  | .fieldAccess target _ => by
      rw [ClosedDereferences, ← regroup_eq_iff target]
      show Expression.fieldAccess (regroup target) _ = .fieldAccess target _ ↔ _
      simp only [Expression.fieldAccess.injEq, and_true]
  | .call _ _ args _ => by
      rw [ClosedDereferences, ← regroupArguments_eq_iff args]
      show Expression.call _ _ (regroupArguments args) _ = .call _ _ args _ ↔ _
      simp only [Expression.call.injEq, true_and, and_true]
  | .methodCall target _ args _ _ => by
      rw [ClosedDereferences, ← regroup_eq_iff target, ← regroupArguments_eq_iff args]
      show Expression.methodCall (regroup target) _ (regroupArguments args) _ _ =
        .methodCall target _ args _ _ ↔ _
      simp only [Expression.methodCall.injEq, true_and, and_true]
  | .unaryOperator _ operand => by
      rw [ClosedDereferences, ← regroup_eq_iff operand, regroup_unaryOperator]
      simp only [Expression.unaryOperator.injEq, true_and]
  | .binaryOperator lhs _ rhs => by
      rw [ClosedDereferences, regroup_binaryOperator_eq_iff, regroup_eq_iff lhs, regroup_eq_iff rhs]
      constructor
      · rintro ⟨hnone, hlhs, hrhs⟩
        exact ⟨hlhs, hrhs, (surround_before_eq_none_iff hlhs).mp hnone⟩
      · rintro ⟨hlhs, hrhs, hends⟩
        exact ⟨(surround_before_eq_none_iff hlhs).mpr hends, hlhs, hrhs⟩

theorem regroupAll_eq_iff : ∀ inner : List (Expression T O),
    regroupAll inner = inner ↔ ClosedAll inner
  | [] => iff_of_true rfl trivial
  | first :: inner => by
      rw [ClosedAll, ← regroup_eq_iff first, ← regroupAll_eq_iff inner]
      exact List.cons_eq_cons

theorem regroupArguments_eq_iff : ∀ args : ArgumentList (Expression T O),
    regroupArguments args = args ↔ ClosedArguments args
  | .positional args => by
      rw [ClosedArguments, ← regroupAll_eq_iff args, regroupArguments,
        ArgumentList.positional.injEq]
  | .named args => by
      rw [ClosedArguments, ← regroupNamed_eq_iff args, regroupArguments, ArgumentList.named.injEq]

theorem regroupNamed_eq_iff : ∀ args : List (NamedArgument (Expression T O)),
    regroupNamed args = args ↔ ClosedNamed args
  | [] => iff_of_true rfl trivial
  | .full _ value :: args => by
      rw [ClosedNamed, ← regroup_eq_iff value, ← regroupNamed_eq_iff args, regroupNamed,
        List.cons_eq_cons, NamedArgument.full.injEq]
      simp only [true_and, regroup]
  | .short _ :: args => by
      rw [ClosedNamed, ← regroupNamed_eq_iff args, regroupNamed, List.cons_eq_cons]
      exact and_iff_right rfl

end

end Spade.Parser

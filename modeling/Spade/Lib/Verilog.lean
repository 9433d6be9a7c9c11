import Spade.Lib.BitString

/-!
# A fragment of Verilog expressions

The expressions over declared vectors that a structural code generator emits: identifiers,
constant bit and part selects, indexed part selects, literals, undefined bits, concatenations,
and a few operators. `ν` is the type of identifiers.

An expression is evaluated in an environment that gives the bits of every *declared* identifier;
reading an undeclared one, selecting outside the declared range, or a select whose left bound is
below its right bound has no value. The bits of `N'bX` are whatever `pad` says they are, so a
statement about every `pad` is a statement about every choice of the undefined bits.

Evaluation is two-valued, and the index of an indexed part select is evaluated without overflow:
the literals in it are unsized, so it is computed with at least 32 bits.
-/

namespace Verilog

/-- Expressions over identifiers `ν`. -/
inductive Expr (ν : Type) where
  | ident (n : ν)
  /-- `n[i]` -/
  | bit (n : ν) (i : ℕ)
  /-- `n[left:right]` -/
  | part (n : ν) (left right : ℕ)
  /-- `n[index]` -/
  | bitAt (n index : ν)
  /-- `n[index * scale +: width]` -/
  | partAt (n index : ν) (scale width : ℕ)
  /-- An unsized decimal literal. -/
  | dec (value : ℕ)
  /-- `width'dvalue` -/
  | sized (width value : ℕ)
  /-- `width'bX` -/
  | undef (width : ℕ)
  /-- `{a, b, ...}` -/
  | concat (parts : List (Expr ν))
  /-- `a == b` -/
  | eq (a b : Expr ν)
  /-- `!a` -/
  | not (a : Expr ν)
  /-- `a && b` -/
  | and (a b : Expr ν)
  /-- `c ? a : b` -/
  | cond (c a b : Expr ν)

namespace Expr

variable {ν : Type}

mutual

/-- The text of an expression. -/
def render (name : ν → String) : Expr ν → String
  | ident n => name n
  | bit n i => name n ++ "[" ++ toString i ++ "]"
  | part n left right => name n ++ "[" ++ toString left ++ ":" ++ toString right ++ "]"
  | bitAt n index => name n ++ "[" ++ name index ++ "]"
  | partAt n index scale width =>
      name n ++ "[" ++ name index ++ " * " ++ toString scale ++ "+:" ++ toString width ++ "]"
  | dec value => toString value
  | sized width value => toString width ++ "'d" ++ toString value
  | undef width => toString width ++ "'bX"
  | concat parts => "\x7b" ++ renderList name parts ++ "\x7d"
  | eq a b => render name a ++ " == " ++ render name b
  | not a => "!" ++ render name a
  | and a b => render name a ++ " && " ++ render name b
  | cond c a b => render name c ++ " ? " ++ render name a ++ " : " ++ render name b

/-- The texts of the parts of a concatenation, separated by commas. -/
def renderList (name : ν → String) : List (Expr ν) → String
  | [] => ""
  | [e] => render name e
  | e :: es => render name e ++ ", " ++ renderList name es

end

/-- The 32-bit value of an unsized literal. -/
def decWidth : ℕ := 32

variable (env : ν → Option BitString) (pad : ℕ → Bool)

mutual

/-- The value of an expression. -/
def eval : Expr ν → Option BitString
  | ident n => env n
  | bit n i => do
      let bits ← env n
      if i < bits.length then some (bits.slice i i) else none
  | part n left right => do
      let bits ← env n
      if right ≤ left ∧ left < bits.length then some (bits.slice left right) else none
  | bitAt n index => do
      let bits ← env n
      let i := BitString.toNat (← env index)
      if i < bits.length then some (bits.slice i i) else none
  | partAt n index scale width => do
      let bits ← env n
      let low := BitString.toNat (← env index) * scale
      if 0 < width ∧ low + width ≤ bits.length then some (bits.slice (low + width - 1) low)
      else none
  | dec value => some (BitString.ofNat decWidth value)
  | sized width value => some (BitString.ofNat width value)
  | undef width => some ((List.range width).map pad)
  | concat parts => evalConcat parts
  | eq a b => do
      let a ← eval a
      let b ← eval b
      some [a.toNat == b.toNat]
  | not a => do some [(← eval a).toNat == 0]
  | and a b => do
      let a ← eval a
      let b ← eval b
      some [a.toNat != 0 && b.toNat != 0]
  | cond c a b => do
      let c ← eval c
      let a ← eval a
      let b ← eval b
      some (BitString.resize (max a.length b.length) (if c.toNat ≠ 0 then a else b))

/-- The value of a concatenation. -/
def evalConcat : List (Expr ν) → Option BitString
  | [] => some []
  | e :: es => do
      let bits ← eval e
      let rest ← evalConcat es
      some (bits ++ rest)

end

@[simp] theorem eval_ident (n : ν) : eval env pad (ident n) = env n := rfl

@[simp] theorem eval_concat (parts : List (Expr ν)) :
    eval env pad (concat parts) = evalConcat env pad parts := rfl

@[simp] theorem evalConcat_nil : evalConcat env pad ([] : List (Expr ν)) = some [] := rfl

variable {env pad}

theorem eval_part {n : ν} {bits : BitString} {left right : ℕ} (hn : env n = some bits)
    (hr : right ≤ left) (hl : left < bits.length) :
    eval env pad (part n left right) = some (bits.slice left right) := by
  simp [eval, hn, hr, hl]

theorem eval_bit {n : ν} {bits : BitString} {i : ℕ} (hn : env n = some bits)
    (hi : i < bits.length) : eval env pad (bit n i) = some (bits.slice i i) := by
  simp [eval, hn, hi]

theorem eval_partAt {n index : ν} {bits ibits : BitString} {scale width : ℕ}
    (hn : env n = some bits) (hi : env index = some ibits) (hw : 0 < width)
    (hb : ibits.toNat * scale + width ≤ bits.length) :
    eval env pad (partAt n index scale width) =
      some (bits.slice (ibits.toNat * scale + width - 1) (ibits.toNat * scale)) := by
  simp [eval, hn, hi, hw, hb]

theorem eval_eq {a b : Expr ν} {x y : BitString} (ha : eval env pad a = some x)
    (hb : eval env pad b = some y) : eval env pad (eq a b) = some [x.toNat == y.toNat] := by
  simp [eval, ha, hb]

theorem evalConcat_cons {e : Expr ν} {es : List (Expr ν)} {x xs : BitString}
    (he : eval env pad e = some x) (hes : evalConcat env pad es = some xs) :
    evalConcat env pad (e :: es) = some (x ++ xs) := by
  simp [evalConcat, he, hes]

theorem evalConcat_append {es fs : List (Expr ν)} {xs ys : BitString}
    (hes : evalConcat env pad es = some xs) (hfs : evalConcat env pad fs = some ys) :
    evalConcat env pad (es ++ fs) = some (xs ++ ys) := by
  induction es generalizing xs with
  | nil =>
      obtain rfl : xs = [] := by simpa [eq_comm] using hes
      simpa using hfs
  | cons e es ih =>
      simp only [evalConcat, Option.bind_eq_bind, Option.bind_eq_some_iff] at hes
      obtain ⟨x, hx, zs, hzs, hxz⟩ := hes
      obtain rfl : x ++ zs = xs := by simpa using hxz
      rw [List.cons_append, List.append_assoc]
      exact evalConcat_cons hx (ih hzs)

/-- A concatenation that reads a name with no value has no value. -/
theorem evalConcat_eq_none {es : List (Expr ν)} {e : Expr ν} (he : e ∈ es)
    (h : eval env pad e = none) : evalConcat env pad es = none := by
  induction es with
  | nil => exact absurd he List.not_mem_nil
  | cons f es ih =>
      rcases List.mem_cons.mp he with rfl | he
      · simp [evalConcat, h]
      · simp only [evalConcat, ih he, Option.bind_eq_bind, Option.bind_none]
        cases eval env pad f <;> rfl

/-- Concatenating identifiers concatenates their bits. -/
theorem evalConcat_idents {names : List ν} {bits : List BitString}
    (h : List.Forall₂ (fun n b => env n = some b) names bits) :
    evalConcat env pad (names.map ident) = some bits.flatten := by
  induction h with
  | nil => rfl
  | cons hn _ ih => exact evalConcat_cons hn ih

variable (env pad) in
/-- `assign target = value;`, where nothing else drives the bits of the target: the target carries
the value in its own width. -/
def Drives (target value : Expr ν) : Prop :=
  ∃ bits bits', eval env pad target = some bits ∧ eval env pad value = some bits' ∧
    bits = bits'.resize bits.length

end Expr

/-! ### The items of a `casez` -/

/-- The bits of an item from the left: `some b` is compared and `none` is a question mark. -/
abbrev CasezItem := List (Option Bool)

/-- The bits agree with an item of the same width. -/
def CasezItem.agrees : CasezItem → BitString → Bool
  | [], [] => true
  | none :: item, _ :: bits => agrees item bits
  | some b :: item, b' :: bits => b == b' && agrees item bits
  | _, _ => false

/-- Whether an item matches a selector, where the shorter one is extended by zeros. -/
def CasezItem.matches_ (item : CasezItem) (selector : BitString) : Bool :=
  CasezItem.agrees (List.replicate (selector.length - item.length) (some false) ++ item)
    (List.replicate (item.length - selector.length) false ++ selector)

/-! ### Identifiers -/

/-- A letter or an underscore. -/
def identStart (c : Char) : Bool := c.isAlpha || c == '_'

/-- A letter, a digit, an underscore or a dollar sign. -/
def identRest (c : Char) : Bool := c.isAlphanum || c == '_' || c == '$'

/-- The text is empty or one simple identifier. -/
def IsWord (text : List Char) : Prop :=
  (∀ c ∈ text.head?, identStart c) ∧ ∀ c ∈ text, identRest c

/-- The text is one identifier: a simple one, or an escaped one with the blank that ends it. -/
def IsIdentifier (text : String) : Prop :=
  text.toList ≠ [] ∧ IsWord text.toList ∨
    ∃ inner, text.toList = '\\' :: (inner ++ [' ']) ∧ inner ≠ [] ∧ ∀ c ∈ inner, !c.isWhitespace

theorem isWord_append_iff {text rest : List Char} (hstart : ∀ c ∈ rest.head?, identStart c)
    (hrest : ∀ c ∈ rest, identRest c) : IsWord (text ++ rest) ↔ IsWord text := by
  cases text with
  | nil => exact ⟨fun _ => ⟨nofun, nofun⟩, fun _ => ⟨hstart, hrest⟩⟩
  | cons c text =>
      constructor
      · rintro ⟨hhead, hall⟩
        exact ⟨hhead, fun d hd => hall d (List.mem_append_left _ hd)⟩
      · rintro ⟨hhead, hall⟩
        exact ⟨hhead, fun d hd => (List.mem_append.mp hd).elim (hall d) (hrest d)⟩

/-- A text that ends in no blank is no escaped identifier. -/
theorem isIdentifier_iff_of_getLast? {text : String} {c : Char}
    (hlast : text.toList.getLast? = some c) (hc : c ≠ ' ') :
    IsIdentifier text ↔ IsWord text.toList := by
  constructor
  · rintro (⟨_, hword⟩ | ⟨inner, htext, _⟩)
    · exact hword
    · rw [htext, ← List.cons_append, List.getLast?_concat] at hlast
      exact absurd (Option.some.inj hlast).symm hc
  · refine fun hword => .inl ⟨fun hnil => ?_, hword⟩
    rw [hnil] at hlast
    exact nomatch hlast

end Verilog

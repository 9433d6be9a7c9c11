import Spade.Parser.Lexer

/-!
# The token stream with split tokens

`Parser::eat` and `Parser::peek_kind` take a `>>` or a `>>>` for a `>` where one is expected and
leave the rest of it in place of the token. `expand` writes all of these as single `>`s.

* `expand_of_eat`: what `eat` takes off the expanded stream.
* `eat_of_peekKind`: a token that is peeked for can be eaten.
-/

namespace Spade.Parser.Stream

/-- An unexpected token with the tokens that were expected, or another error. -/
inductive Error (ε : Type) where
  | unexpectedToken (got : TokenKind) (expected : List TokenKind)
  /-- `eat_cond` of an integer. -/
  | expectedInteger (got : TokenKind)
  /-- Tuples with no elements are not supported -/
  | emptyTuple
  | inner (error : ε)
  deriving DecidableEq

variable {ε : Type}

def peekKind (expected : TokenKind) (toks : List TokenKind) : Bool :=
  peek toks = expected ||
    (expected = .gt && (peek toks = .rightShift || peek toks = .arithmeticRightShift))

/-- `Parser::eat`: the tokens after the expected one. -/
def eat (expected : TokenKind) (toks : List TokenKind) : Except (Error ε) (List TokenKind) :=
  if peek toks = expected then .ok toks.tail
  else if expected = .gt ∧ peek toks = .rightShift then .ok (.gt :: toks.tail)
  else if expected = .gt ∧ peek toks = .arithmeticRightShift then .ok (.rightShift :: toks.tail)
  else .error (.unexpectedToken (peek toks) [expected])

/-- `peek_and_eat`; `none` is where another token comes. -/
def peekAndEat (kind : TokenKind) (toks : List TokenKind) :
    Except (Error ε) (Option (List TokenKind)) :=
  if peekKind kind toks then (eat kind toks).map some else .ok none

/-! ### Single closing brackets -/

/-- The closing brackets that a token stands for, or the token. -/
def parts : TokenKind → List TokenKind
  | .rightShift => [.gt, .gt]
  | .arithmeticRightShift => [.gt, .gt, .gt]
  | tok => [tok]

def expand (toks : List TokenKind) : List TokenKind := toks.flatMap parts

@[simp] theorem expand_nil : expand [] = [] := rfl

@[simp] theorem expand_cons {tok : TokenKind} {toks : List TokenKind} :
    expand (tok :: toks) = parts tok ++ expand toks :=
  List.flatMap_cons

theorem parts_ne_nil (tok : TokenKind) : parts tok ≠ [] := by
  unfold parts
  split <;> exact List.cons_ne_nil _ _

theorem length_expand_tail_lt {toks : List TokenKind} (h : toks ≠ []) :
    (expand toks.tail).length < (expand toks).length := by
  obtain ⟨tok, toks, rfl⟩ := List.exists_cons_of_ne_nil h
  rw [expand_cons, List.length_append, List.tail_cons]
  have := List.length_pos_iff.mpr (parts_ne_nil tok)
  omega

theorem length_expand_tail_le (toks : List TokenKind) :
    (expand toks.tail).length ≤ (expand toks).length := by
  cases toks with
  | nil => exact Nat.le_refl _
  | cons tok toks => exact Nat.le_of_lt (length_expand_tail_lt (List.cons_ne_nil _ _))

theorem eat_of_peekKind {expected : TokenKind} {toks : List TokenKind}
    (h : peekKind expected toks = true) : ∃ rest, eat (ε := ε) expected toks = .ok rest := by
  unfold peekKind at h
  unfold eat
  simp only [Bool.or_eq_true, Bool.and_eq_true, decide_eq_true_eq] at h
  obtain h | ⟨hgt, h | h⟩ := h
  · exact ⟨_, if_pos h⟩
  · subst hgt
    exact ⟨_, (if_neg (by rw [h]; decide)).trans (if_pos ⟨rfl, h⟩)⟩
  · subst hgt
    exact ⟨_, (if_neg (by rw [h]; decide)).trans
      ((if_neg (by rw [h]; decide)).trans (if_pos ⟨rfl, h⟩))⟩

theorem peekKind_of_eat {expected : TokenKind} {toks rest : List TokenKind}
    (h : eat (ε := ε) expected toks = .ok rest) : peekKind expected toks = true := by
  unfold eat at h
  unfold peekKind
  split at h
  · next heq => simp [heq]
  split at h
  · next heq => simp [heq.1, heq.2]
  split at h
  · next heq => simp [heq.1, heq.2]
  · exact absurd h nofun

/-- `eat` takes the expected token off the front of the expanded stream. -/
theorem expand_of_eat {expected : TokenKind} {toks rest : List TokenKind} (hne : expected ≠ .eof)
    (h : eat (ε := ε) expected toks = .ok rest) :
    expand toks = parts expected ++ expand rest := by
  cases toks with
  | nil =>
      have hpeek := peekKind_of_eat h
      simp [peekKind, Ne.symm hne] at hpeek
  | cons tok toks =>
      unfold eat at h
      rw [peek_cons, List.tail_cons] at h
      split at h
      · next heq =>
        cases h
        rw [heq, expand_cons]
      split at h
      · next heq =>
        cases h
        rw [heq.1, heq.2]
        rfl
      split at h
      · next heq =>
        cases h
        rw [heq.1, heq.2]
        rfl
      · exact absurd h nofun

/-- Only a closing bracket is split. -/
theorem peekKind_iff {expected : TokenKind} (hne : expected ≠ .gt) {toks : List TokenKind} :
    peekKind expected toks = true ↔ peek toks = expected := by
  simp [peekKind, hne]

theorem eat_eq_ok_iff {expected : TokenKind} (hne : expected ≠ .gt) {toks rest : List TokenKind} :
    eat (ε := ε) expected toks = .ok rest ↔ peek toks = expected ∧ rest = toks.tail := by
  unfold eat
  by_cases h : peek toks = expected
  · rw [if_pos h]
    exact ⟨fun heq => ⟨h, (Except.ok.inj heq).symm⟩, fun heq => heq.2 ▸ rfl⟩
  · rw [if_neg h, if_neg fun hgt => hne hgt.1, if_neg fun hgt => hne hgt.1]
    exact iff_of_false nofun fun heq => h heq.1

theorem peekAndEat_eq {kind : TokenKind} (hne : kind ≠ .gt) (toks : List TokenKind) :
    peekAndEat (ε := ε) kind toks = .ok (if peek toks = kind then some toks.tail else none) := by
  unfold peekAndEat
  by_cases h : peek toks = kind
  · rw [if_pos ((peekKind_iff hne).mpr h), (eat_eq_ok_iff hne).mpr ⟨h, rfl⟩, if_pos h]
    rfl
  · rw [if_neg (mt (peekKind_iff hne).mp h), if_neg h]

theorem eq_cons_of_peek {tok : TokenKind} {toks : List TokenKind} (hne : tok ≠ .eof)
    (h : peek toks = tok) : toks = tok :: toks.tail := by
  cases toks with
  | nil => exact absurd h.symm hne
  | cons first toks => exact congrArg (· :: toks) h

end Spade.Parser.Stream

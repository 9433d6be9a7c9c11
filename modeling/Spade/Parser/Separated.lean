import Mathlib.Data.Nat.Notation
import Spade.Lib.StateExcept
import Spade.Parser.Expression
import Spade.Parser.Stream

/-!
# Comma-separated lists

`token_separated`, `comma_separated`, `array_literal` and `tuple_literal` of
`spade-parser/src/lib.rs` for any parser of items.

* **Lists** (`commaSeparated_eq_ok_iff`) and **tuples** (`tupleLiteral_eq_ok_iff`): items with
  commas between them and at most one after the last.
* **Arrays** (`meetsGrammar_iff`): the comma after the first item can be left out.
-/

namespace Spade.Parser.Stream

open Lib.StateExcept (exists_of_bind_eq_ok)

/-- A parser of items that takes at least one token, or a closing bracket off one. -/
structure ItemParser (ε α : Type) where
  parse : List TokenKind → Except (Error ε) (α × List TokenKind)
  consumes : ∀ {toks x rest}, parse toks = .ok (x, rest) →
    ∃ eaten, eaten ≠ [] ∧ expand toks = eaten ++ expand rest

inductive TokenSeparatedError (ε : Type) where
  | inner (error : Error ε)
  | unexpectedToken (got : TokenKind) (separator : TokenKind) (endTokens : List TokenKind)

/-- `no_context`. -/
def TokenSeparatedError.noContext {ε : Type} : TokenSeparatedError ε → Error ε
  | .inner error => error
  | .unexpectedToken got separator endTokens => .unexpectedToken got (separator :: endTokens)

variable {ε α : Type} (I : ItemParser ε α)

theorem ItemParser.length_lt {I : ItemParser ε α} {toks rest : List TokenKind} {x : α}
    (h : I.parse toks = .ok (x, rest)) : (expand rest).length < (expand toks).length := by
  obtain ⟨eaten, hne, heq⟩ := I.consumes h
  rw [heq, List.length_append]
  have := List.length_pos_iff.mpr hne
  omega

/-! ### Parsers -/

/-- `token_separated`. The end markers are those that can end the list, so that a trailing
separator is allowed. -/
def tokenSeparated (separator : TokenKind) (endMarkers : List TokenKind) (toks : List TokenKind) :
    Except (TokenSeparatedError ε) (List α × List TokenKind) :=
  -- The list might be empty
  if endMarkers.any (peekKind · toks) then .ok ([], toks)
  else
    match _hitem : I.parse toks with
    | .error error => .error (.inner error)
    | .ok (x, rest) =>
      if endMarkers.any (peekKind · rest) then .ok ([x], rest)
      else if peekKind separator rest then do
        let (xs, rest) ← tokenSeparated separator endMarkers rest.tail
        .ok (x :: xs, rest)
      else .error (.unexpectedToken (peek rest) separator endMarkers)
termination_by (expand toks).length
decreasing_by exact Nat.lt_of_le_of_lt (length_expand_tail_le _) (ItemParser.length_lt _hitem)

def commaSeparated (endMarker : TokenKind) (toks : List TokenKind) :
    Except (TokenSeparatedError ε) (List α × List TokenKind) :=
  tokenSeparated I .comma [endMarker] toks

/-- What array and tuple literals make of their items. -/
inductive Literal (α : Type) where
  /-- The only item of a tuple. -/
  | single (x : α)
  | tupleLiteral (xs : List α)
  | arrayLiteral (xs : List α)
  | arrayShorthandLiteral (x : α) (amount : ℕ)

/-- `eat_cond(is_integer)` with `as_biguint`. -/
def eatInteger : List TokenKind → Except (Error ε) (ℕ × List TokenKind)
  | .integer val _ :: toks | .hexInteger val _ :: toks | .binInteger val _ :: toks =>
      .ok (val, toks)
  | toks => .error (.expectedInteger (peek toks))

/-- `array_literal`; no literal where there is no opening bracket. -/
def arrayLiteral (toks : List TokenKind) :
    Except (Error ε) (Option (Literal α) × List TokenKind) := do
  let some toks' ← peekAndEat .openBracket toks | .ok (none, toks)
  match ← peekAndEat .closeBracket toks' with
  | some rest => .ok (some (.arrayLiteral []), rest)
  | none =>
    let (first, rest) ← I.parse toks'
    match ← peekAndEat .semi rest with
    | some rest =>
      let (amount, rest) ← eatInteger rest
      let rest ← eat .closeBracket rest
      .ok (some (.arrayShorthandLiteral first amount), rest)
    | none =>
      -- eat comma, if any
      let rest := (← peekAndEat .comma rest).getD rest
      let (inner, rest) ← (commaSeparated I .closeBracket rest).mapError (·.noContext)
      let rest ← eat .closeBracket rest
      .ok (some (.arrayLiteral (first :: inner)), rest)

/-- `tuple_literal`; no literal where there is no opening parenthesis. -/
def tupleLiteral (toks : List TokenKind) :
    Except (Error ε) (Option (Literal α) × List TokenKind) := do
  let some toks' ← peekAndEat .openParen toks | .ok (none, toks)
  let (inner, rest) ← (commaSeparated I .closeParen toks').mapError (·.noContext)
  match inner with
  | [] => .error .emptyTuple
  | [x] =>
    let rest ← eat .closeParen rest
    .ok (some (.single x), rest)
  | inner =>
    let rest ← eat .closeParen rest
    .ok (some (.tupleLiteral inner), rest)

/-! ### The grammar -/

section

variable (close : TokenKind)

/-- An item; the closing token starts none. -/
def Item (toks : List TokenKind) (x : α) (rest : List TokenKind) : Prop :=
  peekKind close toks = false ∧ I.parse toks = .ok (x, rest)

/-- A comma that is not the closing token. -/
def Comma (toks rest : List TokenKind) : Prop :=
  peekKind close toks = false ∧ toks = .comma :: rest

/-- `item (',' item)*` -/
inductive Items : List TokenKind → List α → List TokenKind → Prop
  | one {toks rest : List TokenKind} {x : α} : Item I close toks x rest → Items toks [x] rest
  | cons {toks mid after rest : List TokenKind} {x : α} {xs : List α} :
      Item I close toks x mid → Comma close mid after → Items after xs rest →
        Items toks (x :: xs) rest

/-- `(item (',' item)* ','?)?` up to the closing token. -/
def SeparatedList (toks : List TokenKind) (xs : List α) (rest : List TokenKind) : Prop :=
  peekKind close rest = true ∧
    ((xs = [] ∧ rest = toks) ∨ Items I close toks xs rest ∨
      ∃ mid, Items I close toks xs mid ∧ Comma close mid rest)

end

/-- `'(' items ')'`, other than `'(' ')'`. -/
def TupleGrammar (toks : List TokenKind) (lit : Literal α) (rest : List TokenKind) : Prop :=
  ∃ inner xs, toks = .openParen :: inner ∧
    SeparatedList I .closeParen inner xs (.closeParen :: rest) ∧
      ((∃ x, xs = [x] ∧ lit = .single x) ∨ (2 ≤ xs.length ∧ lit = .tupleLiteral xs))

/-- `'[' items ']'` or the shorthand. -/
inductive ArrayGrammar : List TokenKind → Literal α → List TokenKind → Prop
  | list {inner rest : List TokenKind} {xs : List α} :
      SeparatedList I .closeBracket inner xs (.closeBracket :: rest) →
        ArrayGrammar (.openBracket :: inner) (.arrayLiteral xs) rest
  | shorthand {inner amountToks rest : List TokenKind} {x : α} {amount : ℕ} :
      Item I .closeBracket inner x (.semi :: amountToks) →
        eatInteger (ε := ε) amountToks = .ok (amount, .closeBracket :: rest) →
          ArrayGrammar (.openBracket :: inner) (.arrayShorthandLiteral x amount) rest

/-! ### Lists -/

section

variable {I} {close : TokenKind} {toks rest : List TokenKind} {xs : List α}

theorem peekKind_comma_iff : peekKind .comma toks = true ↔ ∃ after, toks = .comma :: after := by
  rw [peekKind_iff (by decide)]
  cases toks <;> simp [eq_comm]

theorem commaSeparated_of_close (h : peekKind close toks = true) :
    commaSeparated I close toks = .ok ([], toks) := by
  unfold commaSeparated
  rw [tokenSeparated]
  exact if_pos (by simp [h])

theorem commaSeparated_of_error {error : Error ε} (hclose : peekKind close toks = false)
    (hitem : I.parse toks = .error error) :
    commaSeparated I close toks = .error (.inner error) := by
  unfold commaSeparated
  rw [tokenSeparated, if_neg (by simp [hclose])]
  split
  · next _ h => rw [Except.error.inj (h.symm.trans hitem)]
  · next h => exact absurd (h.symm.trans hitem) nofun

theorem commaSeparated_of_item {x : α} {mid : List TokenKind} (hitem : Item I close toks x mid) :
    commaSeparated I close toks =
      if peekKind close mid then .ok ([x], mid)
      else if peekKind .comma mid then do
        let (xs, rest) ← commaSeparated I close mid.tail
        .ok (x :: xs, rest)
      else .error (.unexpectedToken (peek mid) .comma [close]) := by
  unfold commaSeparated
  rw [tokenSeparated, if_neg (by simp [hitem.1])]
  split
  · next h => exact absurd (h.symm.trans hitem.2) nofun
  · next h =>
    obtain ⟨rfl, rfl⟩ := Prod.mk.inj (Except.ok.inj (h.symm.trans hitem.2))
    simp only [List.any_cons, List.any_nil, Bool.or_false]

theorem commaSeparated_of_comma {x : α} {mid after : List TokenKind}
    (hitem : Item I close toks x mid) (hcomma : Comma close mid after) :
    commaSeparated I close toks = (do
      let (xs, rest) ← commaSeparated I close after
      .ok (x :: xs, rest)) := by
  obtain ⟨hclose, rfl⟩ := hcomma
  rw [commaSeparated_of_item hitem, if_neg (by simp [hclose]),
    if_pos (peekKind_comma_iff.mpr ⟨after, rfl⟩)]
  rfl

theorem commaSeparated_of_items (hitems : Items I close toks xs rest) :
    (peekKind close rest = true → commaSeparated I close toks = .ok (xs, rest)) ∧
      ∀ after, Comma close rest after → peekKind close after = true →
        commaSeparated I close toks = .ok (xs, after) := by
  induction hitems with
  | one hitem =>
      constructor
      · intro hclose
        rw [commaSeparated_of_item hitem, if_pos hclose]
      · intro after hcomma hclose
        rw [commaSeparated_of_comma hitem hcomma, commaSeparated_of_close hclose]
        rfl
  | cons hitem hcomma _ ih =>
      rw [commaSeparated_of_comma hitem hcomma]
      constructor
      · intro hclose
        rw [ih.1 hclose]
        rfl
      · intro after hcomma hclose
        rw [ih.2 after hcomma hclose]
        rfl

/-- One more item in front of a list. -/
theorem SeparatedList.cons {x : α} {mid after : List TokenKind} (hitem : Item I close toks x mid)
    (hcomma : Comma close mid after) (h : SeparatedList I close after xs rest) :
    SeparatedList I close toks (x :: xs) rest := by
  obtain ⟨hclose, ⟨rfl, rfl⟩ | hitems | ⟨last, hitems, htrailing⟩⟩ := h
  · exact ⟨hclose, .inr (.inr ⟨mid, .one hitem, hcomma⟩)⟩
  · exact ⟨hclose, .inr (.inl (.cons hitem hcomma hitems))⟩
  · exact ⟨hclose, .inr (.inr ⟨last, .cons hitem hcomma hitems, htrailing⟩)⟩

theorem separatedList_of_commaSeparated {toks : List TokenKind} {xs : List α}
    (h : commaSeparated I close toks = .ok (xs, rest)) : SeparatedList I close toks xs rest := by
  by_cases hclose : peekKind close toks = true
  · rw [commaSeparated_of_close hclose] at h
    cases h
    exact ⟨hclose, .inl ⟨rfl, rfl⟩⟩
  rw [Bool.not_eq_true] at hclose
  cases hparse : I.parse toks with
  | error error => exact absurd ((commaSeparated_of_error hclose hparse).symm.trans h) nofun
  | ok result =>
      obtain ⟨x, mid⟩ := result
      have hitem : Item I close toks x mid := ⟨hclose, hparse⟩
      rw [commaSeparated_of_item hitem] at h
      split at h
      · next hmid =>
        cases h
        exact ⟨hmid, .inr (.inl (.one hitem))⟩
      next hmid =>
      split at h
      · next hcomma =>
        obtain ⟨after, rfl⟩ := peekKind_comma_iff.mp hcomma
        have hcomma : Comma close (.comma :: after) after := ⟨(Bool.not_eq_true _).mp hmid, rfl⟩
        obtain ⟨⟨ys, last⟩, hafter, hresult⟩ := exists_of_bind_eq_ok h
        cases hresult
        exact .cons hitem hcomma (separatedList_of_commaSeparated hafter)
      · exact absurd h nofun
termination_by (expand toks).length
decreasing_by
  exact Nat.lt_of_le_of_lt (length_expand_tail_le (.comma :: after)) (ItemParser.length_lt hparse)

/-- `comma_separated` reads the lists of the grammar. -/
theorem commaSeparated_eq_ok_iff :
    commaSeparated I close toks = .ok (xs, rest) ↔ SeparatedList I close toks xs rest := by
  refine ⟨separatedList_of_commaSeparated, ?_⟩
  rintro ⟨hclose, ⟨rfl, rfl⟩ | hitems | ⟨mid, hitems, hcomma⟩⟩
  · exact commaSeparated_of_close hclose
  · exact (commaSeparated_of_items hitems).1 hclose
  · exact (commaSeparated_of_items hitems).2 _ hcomma hclose

theorem separatedList_iff : SeparatedList I close toks xs rest ↔
    (peekKind close toks = true ∧ xs = [] ∧ rest = toks) ∨
      ∃ x mid, Item I close toks x mid ∧
        ((peekKind close mid = true ∧ xs = [x] ∧ rest = mid) ∨
          ∃ after ys, Comma close mid after ∧ SeparatedList I close after ys rest ∧
            xs = x :: ys) := by
  constructor
  · rintro ⟨hclose, ⟨rfl, rfl⟩ | hitems | ⟨mid, hitems, htrailing⟩⟩
    · exact .inl ⟨hclose, rfl, rfl⟩
    · right
      cases hitems with
      | one hitem => exact ⟨_, _, hitem, .inl ⟨hclose, rfl, rfl⟩⟩
      | cons hitem hcomma hmore =>
          exact ⟨_, _, hitem, .inr ⟨_, _, hcomma, ⟨hclose, .inr (.inl hmore)⟩, rfl⟩⟩
    · right
      cases hitems with
      | one hitem =>
          exact ⟨_, _, hitem, .inr ⟨_, _, htrailing, ⟨hclose, .inl ⟨rfl, rfl⟩⟩, rfl⟩⟩
      | cons hitem hcomma hmore =>
          exact ⟨_, _, hitem,
            .inr ⟨_, _, hcomma, ⟨hclose, .inr (.inr ⟨_, hmore, htrailing⟩)⟩, rfl⟩⟩
  · rintro (⟨hclose, rfl, rfl⟩ | ⟨x, mid, hitem, ⟨hclose, rfl, rfl⟩ | ⟨after, ys, hcomma, h, rfl⟩⟩)
    · exact ⟨hclose, .inl ⟨rfl, rfl⟩⟩
    · exact ⟨hclose, .inr (.inl (.one hitem))⟩
    · exact .cons hitem hcomma h

theorem separatedList_of_close (hclose : peekKind close toks = true) :
    SeparatedList I close toks xs rest ↔ xs = [] ∧ rest = toks := by
  rw [separatedList_iff]
  constructor
  · rintro (⟨-, h⟩ | ⟨x, mid, hitem, -⟩)
    · exact h
    · exact Bool.noConfusion (hclose.symm.trans hitem.1)
  · exact fun h => .inl ⟨hclose, h⟩

theorem SeparatedList.closed {mid : List TokenKind} (hgt : close ≠ .gt) (heof : close ≠ .eof)
    (h : SeparatedList I close toks xs mid) : ∃ rest, mid = close :: rest :=
  ⟨_, eq_cons_of_peek heof ((peekKind_iff hgt).mp h.1)⟩

end

/-! ### Tuples -/

section

variable {I} {toks rest : List TokenKind} {lit : Literal α}

theorem tupleLiteral_cons (inner : List TokenKind) :
    tupleLiteral I (.openParen :: inner) = (do
      let (xs, rest) ← (commaSeparated I .closeParen inner).mapError (·.noContext)
      match xs with
      | [] => .error .emptyTuple
      | [x] =>
        let rest ← eat .closeParen rest
        .ok (some (.single x), rest)
      | xs =>
        let rest ← eat .closeParen rest
        .ok (some (.tupleLiteral xs), rest)) := by
  unfold tupleLiteral
  rw [peekAndEat_eq (by decide), peek_cons, if_pos rfl]
  rfl

theorem tupleLiteral_of_ne (h : peek toks ≠ .openParen) :
    tupleLiteral I toks = .ok (none, toks) := by
  unfold tupleLiteral
  rw [peekAndEat_eq (by decide), if_neg h]
  rfl

theorem tupleLiteral_of_list {inner : List TokenKind} {xs : List α}
    (h : SeparatedList I .closeParen inner xs (.closeParen :: rest)) :
    tupleLiteral I (.openParen :: inner) =
      match xs with
      | [] => .error .emptyTuple
      | [x] => .ok (some (.single x), rest)
      | xs => .ok (some (.tupleLiteral xs), rest) := by
  rw [tupleLiteral_cons, commaSeparated_eq_ok_iff.mpr h]
  rcases xs with _ | ⟨x, _ | ⟨y, xs⟩⟩ <;> rfl

/-- Tuples are read as their grammar has them. -/
theorem tupleLiteral_eq_ok_iff :
    tupleLiteral I toks = .ok (some lit, rest) ↔ TupleGrammar I toks lit rest := by
  constructor
  · intro h
    by_cases hopen : peek toks = .openParen
    · obtain ⟨inner, rfl⟩ : ∃ inner, toks = .openParen :: inner :=
        ⟨_, eq_cons_of_peek (by decide) hopen⟩
      cases hlist : commaSeparated I .closeParen inner with
      | error error =>
          rw [tupleLiteral_cons, hlist] at h
          exact absurd h nofun
      | ok result =>
          obtain ⟨xs, mid⟩ := result
          have hlist := commaSeparated_eq_ok_iff.mp hlist
          obtain ⟨rest', rfl⟩ := hlist.closed (by decide) (by decide)
          rw [tupleLiteral_of_list hlist] at h
          rcases xs with _ | ⟨x, _ | ⟨y, xs⟩⟩
          · exact absurd h nofun
          · cases h
            exact ⟨inner, [x], rfl, hlist, .inl ⟨x, rfl, rfl⟩⟩
          · cases h
            exact ⟨inner, x :: y :: xs, rfl, hlist, .inr ⟨by simp, rfl⟩⟩
    · rw [tupleLiteral_of_ne hopen] at h
      exact absurd h nofun
  · rintro ⟨inner, xs, rfl, hlist, ⟨x, rfl, rfl⟩ | ⟨hlength, rfl⟩⟩
    · exact tupleLiteral_of_list hlist
    · rw [tupleLiteral_of_list hlist]
      rcases xs with _ | ⟨x, _ | ⟨y, xs⟩⟩
      · exact absurd hlength (by simp)
      · exact absurd hlength (by simp)
      · rfl

end

/-! ### Arrays -/

section

variable {I} {toks rest : List TokenKind} {lit : Literal α}

theorem arrayLiteral_of_ne (h : peek toks ≠ .openBracket) :
    arrayLiteral I toks = .ok (none, toks) := by
  unfold arrayLiteral
  rw [peekAndEat_eq (by decide), if_neg h]
  rfl

theorem arrayLiteral_empty : arrayLiteral I (.openBracket :: .closeBracket :: rest) =
    .ok (some (.arrayLiteral []), rest) := by
  unfold arrayLiteral
  rw [peekAndEat_eq (by decide), peek_cons, if_pos rfl]
  rfl

/-- Behind the first item. -/
theorem arrayLiteral_of_item {inner mid : List TokenKind} {x : α}
    (hitem : Item I .closeBracket inner x mid) :
    arrayLiteral I (.openBracket :: inner) =
      if peek mid = .semi then (do
        let (amount, rest) ← eatInteger mid.tail
        let rest ← eat .closeBracket rest
        .ok (some (.arrayShorthandLiteral x amount), rest))
      else (do
        let (xs, rest) ←
          (commaSeparated I .closeBracket (if peek mid = .comma then mid.tail else mid)).mapError
            (·.noContext)
        let rest ← eat .closeBracket rest
        .ok (some (.arrayLiteral (x :: xs)), rest)) := by
  have hne : peek inner ≠ .closeBracket := fun h => by
    rw [← peekKind_iff (by decide)] at h
    exact Bool.noConfusion (h.symm.trans hitem.1)
  unfold arrayLiteral
  simp only [peekAndEat_eq (show TokenKind.openBracket ≠ .gt by decide),
    peekAndEat_eq (show TokenKind.closeBracket ≠ .gt by decide),
    peekAndEat_eq (show TokenKind.semi ≠ .gt by decide),
    peekAndEat_eq (show TokenKind.comma ≠ .gt by decide), peek_cons, List.tail_cons, hitem.2,
    if_pos, if_neg hne, bind, Except.bind]
  by_cases hsemi : peek mid = .semi
  · simp only [if_pos hsemi]
  · by_cases hcomma : peek mid = .comma
    · simp only [if_neg hsemi, if_pos hcomma, Option.getD_some]
    · simp only [if_neg hsemi, if_neg hcomma, Option.getD_none]

theorem arrayLiteral_of_error {inner : List TokenKind} {error : Error ε}
    (hclose : peekKind .closeBracket inner = false) (hitem : I.parse inner = .error error) :
    arrayLiteral I (.openBracket :: inner) = .error error := by
  have hne : peek inner ≠ .closeBracket := fun h => by
    rw [← peekKind_iff (by decide)] at h
    exact Bool.noConfusion (h.symm.trans hclose)
  unfold arrayLiteral
  simp only [peekAndEat_eq (show TokenKind.openBracket ≠ .gt by decide),
    peekAndEat_eq (show TokenKind.closeBracket ≠ .gt by decide), peek_cons, List.tail_cons, hitem,
    if_pos, if_neg hne, bind, Except.bind]

/-- The rest of an array behind its first items. -/
theorem closeList_eq_ok_iff {more : List TokenKind} {first : α} :
    (do
      let (xs, rest) ← (commaSeparated I .closeBracket more).mapError (·.noContext)
      let rest ← eat .closeBracket rest
      .ok (some (.arrayLiteral (first :: xs)), rest)) = Except.ok (some lit, rest) ↔
      ∃ xs, SeparatedList I .closeBracket more xs (.closeBracket :: rest) ∧
        lit = .arrayLiteral (first :: xs) := by
  constructor
  · intro h
    obtain ⟨⟨xs, mid⟩, hlist, h⟩ := exists_of_bind_eq_ok h
    obtain ⟨last, heat, h⟩ := exists_of_bind_eq_ok h
    cases h
    cases hresult : commaSeparated I .closeBracket more with
    | error error =>
        rw [hresult] at hlist
        exact absurd hlist nofun
    | ok result =>
        rw [hresult] at hlist
        cases hlist
        rw [commaSeparated_eq_ok_iff] at hresult
        obtain ⟨last, rfl⟩ := hresult.closed (by decide) (by decide)
        obtain ⟨-, rfl⟩ := (eat_eq_ok_iff (by decide)).mp heat
        exact ⟨_, hresult, rfl⟩
  · rintro ⟨xs, hlist, rfl⟩
    rw [commaSeparated_eq_ok_iff.mpr hlist]
    rfl

/-- A first item is followed at once by more items: neither by a comma nor by the end nor by the
semicolon of the shorthand. -/
def Juxtaposed (I : ItemParser ε α) (toks : List TokenKind) (x : α) (more : List TokenKind) :
    Prop :=
  ∃ inner, toks = .openBracket :: inner ∧ Item I .closeBracket inner x more ∧
    peek more ≠ .comma ∧ peek more ≠ .closeBracket ∧ peek more ≠ .semi

theorem shorthand_eq_ok_iff {amountToks : List TokenKind} {x : α} :
    (do
      let (amount, rest) ← eatInteger (ε := ε) amountToks
      let rest ← eat .closeBracket rest
      .ok (some (.arrayShorthandLiteral x amount), rest)) = Except.ok (some lit, rest) ↔
      ∃ amount, eatInteger (ε := ε) amountToks = .ok (amount, .closeBracket :: rest) ∧
        lit = .arrayShorthandLiteral x amount := by
  constructor
  · intro h
    obtain ⟨⟨amount, mid⟩, hamount, h⟩ := exists_of_bind_eq_ok h
    obtain ⟨last, heat, h⟩ := exists_of_bind_eq_ok h
    cases h
    obtain ⟨hclose, rfl⟩ := (eat_eq_ok_iff (by decide)).mp heat
    refine ⟨amount, ?_, rfl⟩
    rw [← eq_cons_of_peek (by decide) hclose]
    exact hamount
  · rintro ⟨amount, hamount, rfl⟩
    rw [hamount]
    rfl

theorem Item.unique {close : TokenKind} {x y : α} {mid mid' : List TokenKind}
    (h : Item I close toks x mid) (h' : Item I close toks y mid') : x = y ∧ mid = mid' :=
  Prod.mk.inj (Except.ok.inj (h.2.symm.trans h'.2))

/-- The grammar behind the first item. -/
theorem arrayGrammar_iff_of_item {inner mid : List TokenKind} {x : α}
    (hitem : Item I .closeBracket inner x mid) :
    ArrayGrammar I (.openBracket :: inner) lit rest ↔
      (∃ amountToks amount, mid = .semi :: amountToks ∧
        eatInteger (ε := ε) amountToks = .ok (amount, .closeBracket :: rest) ∧
          lit = .arrayShorthandLiteral x amount) ∨
      (mid = .closeBracket :: rest ∧ lit = .arrayLiteral [x]) ∨
      (∃ after xs, mid = .comma :: after ∧
        SeparatedList I .closeBracket after xs (.closeBracket :: rest) ∧
          lit = .arrayLiteral (x :: xs)) := by
  constructor
  · intro h
    cases h with
    | list hlist =>
        obtain ⟨hclose, -⟩ | ⟨y, mid', hitem', h⟩ := separatedList_iff.mp hlist
        · exact Bool.noConfusion (hclose.symm.trans hitem.1)
        obtain ⟨rfl, rfl⟩ := hitem.unique hitem'
        obtain ⟨-, rfl, rfl⟩ | ⟨after, ys, hcomma, hmore, rfl⟩ := h
        · exact .inr (.inl ⟨rfl, rfl⟩)
        · exact .inr (.inr ⟨after, ys, hcomma.2, hmore, rfl⟩)
    | shorthand hitem' hamount =>
        obtain ⟨rfl, rfl⟩ := hitem.unique hitem'
        exact .inl ⟨_, _, rfl, hamount, rfl⟩
  · rintro (⟨amountToks, amount, rfl, hamount, rfl⟩ | ⟨rfl, rfl⟩ | ⟨after, xs, rfl, hlist, rfl⟩)
    · exact .shorthand hitem hamount
    · exact .list (separatedList_iff.mpr (.inr ⟨x, _, hitem, .inl ⟨rfl, rfl, rfl⟩⟩))
    · exact .list (.cons hitem ⟨rfl, rfl⟩ hlist)

/-- Arrays are read as their grammar has them, or without the comma behind the first item. -/
theorem arrayLiteral_eq_ok_iff :
    arrayLiteral I toks = .ok (some lit, rest) ↔
      ArrayGrammar I toks lit rest ∨
        ∃ x more xs, Juxtaposed I toks x more ∧
          SeparatedList I .closeBracket more xs (.closeBracket :: rest) ∧
            lit = .arrayLiteral (x :: xs) := by
  by_cases hopen : peek toks = .openBracket
  · obtain ⟨inner, rfl⟩ : ∃ inner, toks = .openBracket :: inner :=
      ⟨_, eq_cons_of_peek (by decide) hopen⟩
    by_cases hclose : peekKind .closeBracket inner = true
    · obtain ⟨after, rfl⟩ : ∃ after, inner = .closeBracket :: after :=
        ⟨_, eq_cons_of_peek (by decide) ((peekKind_iff (by decide)).mp hclose)⟩
      rw [arrayLiteral_empty]
      constructor
      · intro h
        cases h
        exact .inl (.list (separatedList_iff.mpr (.inl ⟨rfl, rfl, rfl⟩)))
      · rintro (h | ⟨x, more, xs, ⟨_, ⟨rfl⟩, hitem, -⟩, -⟩)
        · cases h with
          | list hlist =>
              obtain ⟨-, rfl, ⟨rfl⟩⟩ | ⟨y, mid, hitem, -⟩ := separatedList_iff.mp hlist
              · rfl
              · exact absurd hitem.1.symm Bool.false_ne_true
          | shorthand hitem _ => exact absurd hitem.1.symm Bool.false_ne_true
        · exact absurd hitem.1.symm Bool.false_ne_true
    rw [Bool.not_eq_true] at hclose
    cases hparse : I.parse inner with
    | error error =>
        rw [arrayLiteral_of_error hclose hparse]
        have hnone : ∀ x mid, ¬ Item I .closeBracket inner x mid :=
          fun x mid hitem => absurd (hparse.symm.trans hitem.2) (by simp)
        apply iff_of_false (by simp)
        rintro (h | ⟨x, more, xs, ⟨_, ⟨rfl⟩, hitem, -⟩, -⟩)
        · cases h with
          | list hlist =>
              obtain ⟨hclose', -⟩ | ⟨y, mid, hitem, -⟩ := separatedList_iff.mp hlist
              · exact Bool.noConfusion (hclose'.symm.trans hclose)
              · exact hnone y mid hitem
          | shorthand hitem _ => exact hnone _ _ hitem
        · exact hnone x more hitem
    | ok result =>
        obtain ⟨x, mid⟩ := result
        have hitem : Item I .closeBracket inner x mid := ⟨hclose, hparse⟩
        have hjuxtaposed : ∀ y more, Juxtaposed I (.openBracket :: inner) y more ↔
            y = x ∧ more = mid ∧ peek mid ≠ .comma ∧ peek mid ≠ .closeBracket ∧
              peek mid ≠ .semi := by
          intro y more
          constructor
          · rintro ⟨_, ⟨rfl⟩, hitem', hpeek⟩
            obtain ⟨rfl, rfl⟩ := hitem.unique hitem'
            exact ⟨rfl, rfl, hpeek⟩
          · rintro ⟨rfl, rfl, hpeek⟩
            exact ⟨inner, rfl, hitem, hpeek⟩
        rw [arrayLiteral_of_item hitem, arrayGrammar_iff_of_item hitem]
        simp only [hjuxtaposed]
        by_cases hsemi : peek mid = .semi
        · obtain ⟨amountToks, rfl⟩ : ∃ amountToks, mid = .semi :: amountToks :=
            ⟨_, eq_cons_of_peek (by decide) hsemi⟩
          rw [if_pos hsemi, List.tail_cons, shorthand_eq_ok_iff]
          simp
        rw [if_neg hsemi, closeList_eq_ok_iff]
        by_cases hcomma : peek mid = .comma
        · obtain ⟨after, rfl⟩ : ∃ after, mid = .comma :: after :=
            ⟨_, eq_cons_of_peek (by decide) hcomma⟩
          rw [if_pos hcomma, List.tail_cons]
          simp
        rw [if_neg hcomma]
        by_cases hend : peek mid = .closeBracket
        · obtain ⟨after, rfl⟩ : ∃ after, mid = .closeBracket :: after :=
            ⟨_, eq_cons_of_peek (by decide) hend⟩
          have hlist : ∀ xs, SeparatedList I .closeBracket (.closeBracket :: after) xs
              (.closeBracket :: rest) ↔ xs = [] ∧ after = rest := fun xs => by
            rw [separatedList_of_close rfl, List.cons.injEq, eq_self, true_and, eq_comm (a := rest)]
          simp [hlist, and_assoc, eq_comm]
        · constructor
          · rintro ⟨xs, hlist, hlit⟩
            exact .inr ⟨x, mid, xs, ⟨rfl, rfl, hcomma, hend, hsemi⟩, hlist, hlit⟩
          · rintro ((⟨_, _, rfl, -⟩ | ⟨rfl, -⟩ | ⟨_, _, rfl, -⟩) |
              ⟨_, _, xs, ⟨rfl, rfl, -⟩, hlist, hlit⟩)
            · exact absurd rfl hsemi
            · exact absurd rfl hend
            · exact absurd rfl hcomma
            · exact ⟨xs, hlist, hlit⟩
  · rw [arrayLiteral_of_ne hopen]
    apply iff_of_false (by simp)
    rintro (h | ⟨x, more, xs, ⟨inner, rfl, -⟩, -⟩)
    · cases h <;> exact hopen rfl
    · exact hopen rfl

end

/-! ### Lists and the grammar -/

/-- `comma_separated`, tuples and arrays are accepted exactly as the grammar has them, with all
items in their order; the closing token is left to be eaten. -/
structure MeetsGrammar (I : ItemParser ε α) (close : TokenKind) (toks : List TokenKind) : Prop where
  list : ∀ xs rest,
    commaSeparated I close toks = .ok (xs, rest) ↔ SeparatedList I close toks xs rest
  closing : ∀ xs rest, commaSeparated I close toks = .ok (xs, rest) →
    ∃ after, eat (ε := ε) close rest = .ok after
  tuple : ∀ lit rest, tupleLiteral I toks = .ok (some lit, rest) ↔ TupleGrammar I toks lit rest
  array : ∀ lit rest, arrayLiteral I toks = .ok (some lit, rest) ↔ ArrayGrammar I toks lit rest
  /-- What starts like a literal is one or is rejected. -/
  rejected : ∀ rest, (peek toks = .openParen → tupleLiteral I toks ≠ .ok (none, rest)) ∧
    (peek toks = .openBracket → arrayLiteral I toks ≠ .ok (none, rest))

theorem tupleLiteral_ne_none {toks rest : List TokenKind} (h : peek toks = .openParen) :
    tupleLiteral I toks ≠ .ok (none, rest) := by
  intro hnone
  rw [eq_cons_of_peek (by decide) h, tupleLiteral_cons] at hnone
  obtain ⟨⟨xs, mid⟩, -, hnone⟩ := exists_of_bind_eq_ok hnone
  rcases xs with _ | ⟨x, _ | ⟨y, xs⟩⟩
  · exact absurd hnone nofun
  · obtain ⟨last, -, hnone⟩ := exists_of_bind_eq_ok hnone
    exact absurd hnone nofun
  · obtain ⟨last, -, hnone⟩ := exists_of_bind_eq_ok hnone
    exact absurd hnone nofun

theorem arrayLiteral_ne_none {toks rest : List TokenKind} (h : peek toks = .openBracket) :
    arrayLiteral I toks ≠ .ok (none, rest) := by
  obtain ⟨inner, rfl⟩ : ∃ inner, toks = .openBracket :: inner :=
    ⟨_, eq_cons_of_peek (by decide) h⟩
  intro hnone
  by_cases hclose : peekKind .closeBracket inner = true
  · rw [eq_cons_of_peek (by decide) ((peekKind_iff (by decide)).mp hclose),
      arrayLiteral_empty] at hnone
    exact absurd hnone nofun
  rw [Bool.not_eq_true] at hclose
  cases hparse : I.parse inner with
  | error error =>
      rw [arrayLiteral_of_error hclose hparse] at hnone
      exact absurd hnone nofun
  | ok result =>
      rw [arrayLiteral_of_item ⟨hclose, hparse⟩] at hnone
      split at hnone
      all_goals
        obtain ⟨_, -, hnone⟩ := exists_of_bind_eq_ok hnone
        obtain ⟨last, -, hnone⟩ := exists_of_bind_eq_ok hnone
        exact absurd hnone nofun

/-- Only the first two items of an array can stand without a comma between them. -/
theorem meetsGrammar_iff (I : ItemParser ε α) (close : TokenKind) (toks : List TokenKind) :
    MeetsGrammar I close toks ↔
      ¬ ∃ x more xs rest, Juxtaposed I toks x more ∧
        SeparatedList I .closeBracket more xs (.closeBracket :: rest) := by
  constructor
  · rintro h ⟨x, more, xs, rest, hjuxtaposed, hlist⟩
    have hgrammar := (h.array _ _).mp
      (arrayLiteral_eq_ok_iff.mpr (.inr ⟨x, more, xs, hjuxtaposed, hlist, rfl⟩))
    obtain ⟨inner, rfl, hitem, hcomma, hclose, hsemi⟩ := hjuxtaposed
    rw [arrayGrammar_iff_of_item hitem] at hgrammar
    obtain ⟨_, _, rfl, -⟩ | ⟨rfl, -⟩ | ⟨_, _, rfl, -⟩ := hgrammar
    · exact hsemi rfl
    · exact hclose rfl
    · exact hcomma rfl
  · intro h
    constructor
    case list => exact fun xs rest => commaSeparated_eq_ok_iff
    case closing =>
      exact fun xs rest hlist => eat_of_peekKind (commaSeparated_eq_ok_iff.mp hlist).1
    case tuple => exact fun lit rest => tupleLiteral_eq_ok_iff
    case array =>
      intro lit rest
      rw [arrayLiteral_eq_ok_iff]
      refine or_iff_left ?_
      rintro ⟨x, more, xs, hjuxtaposed, hlist, -⟩
      exact h ⟨x, more, xs, rest, hjuxtaposed, hlist⟩
    case rejected => exact fun rest => ⟨tupleLiteral_ne_none I, arrayLiteral_ne_none I⟩

/-- Items that are integers. -/
def integers : ItemParser Empty ℕ where
  parse := eatInteger
  consumes := by
    intro toks x rest h
    unfold eatInteger at h
    split at h
    case h_4 => exact absurd h nofun
    all_goals
      cases h
      exact ⟨_, List.cons_ne_nil _ [], rfl⟩

/-- `[1 2]` -/
theorem oneTwo_not_meetsGrammar :
    ¬ ∀ close, MeetsGrammar integers close
      [.openBracket, .integer 1 .unsized, .integer 2 .unsized, .closeBracket] := by
  intro h
  have hlist : SeparatedList integers .closeBracket [.integer 2 .unsized, .closeBracket] [2]
      [.closeBracket] := ⟨rfl, .inr (.inl (.one ⟨rfl, rfl⟩))⟩
  have hjuxtaposed : Juxtaposed integers
      [.openBracket, .integer 1 .unsized, .integer 2 .unsized, .closeBracket] 1
      [.integer 2 .unsized, .closeBracket] := ⟨_, rfl, ⟨rfl, rfl⟩, nofun, nofun, nofun⟩
  have hgrammar := ((h .closeBracket).array _ _).mp
    (arrayLiteral_eq_ok_iff.mpr (.inr ⟨1, _, [2], hjuxtaposed, hlist, rfl⟩))
  have hitem : Item integers .closeBracket
      [.integer 1 .unsized, .integer 2 .unsized, .closeBracket] 1
      [.integer 2 .unsized, .closeBracket] := ⟨rfl, rfl⟩
  rw [arrayGrammar_iff_of_item hitem] at hgrammar
  obtain ⟨_, _, h, -⟩ | ⟨h, -⟩ | ⟨_, _, h, -⟩ := hgrammar
  all_goals exact absurd h nofun

/-! ### Lists of expressions -/

section

variable {T O : Type} {G : Grammar T O} {E : ItemParser ε (Ast.Expression T O)}

/-- The lists of the expression parser are those of its item parser. -/
theorem commaSeparated_expression (hE : ∀ toks, (E.parse toks).toOption = expression G toks)
    {close : TokenKind} (hgt : close ≠ .gt) (toks : List TokenKind) :
    Parser.commaSeparated G close toks = (commaSeparated E close toks).toOption := by
  rw [Parser.commaSeparated, ← hE]
  by_cases hclose : peek toks = close
  · rw [if_pos hclose, commaSeparated_of_close ((peekKind_iff hgt).mpr hclose)]
    rfl
  have hclose' : peekKind close toks = false :=
    (Bool.not_eq_true _).mp (mt (peekKind_iff hgt).mp hclose)
  rw [if_neg hclose]
  cases hparse : E.parse toks with
  | error error =>
      rw [commaSeparated_of_error hclose' hparse]
      rfl
  | ok result =>
      obtain ⟨x, mid⟩ := result
      rw [commaSeparated_of_item ⟨hclose', hparse⟩]
      by_cases hmid : peek mid = close
      · rw [if_pos ((peekKind_iff hgt).mpr hmid)]
        exact if_pos hmid
      rw [if_neg (mt (peekKind_iff hgt).mp hmid)]
      refine (if_neg hmid).trans ?_
      by_cases hcomma : peekKind .comma mid = true
      · rw [if_pos hcomma]
        obtain ⟨after, rfl⟩ := peekKind_comma_iff.mp hcomma
        rw [Parser.eat_cons, List.tail_cons, Option.bind_eq_bind, Option.bind_some,
          commaSeparated_expression hE hgt after]
        cases commaSeparated E close after <;> rfl
      · rw [if_neg hcomma, Parser.eat, if_neg (mt (peekKind_iff (by decide)).mpr hcomma)]
        rfl
termination_by (expand toks).length
decreasing_by
  exact Nat.lt_of_le_of_lt (length_expand_tail_le (.comma :: after)) (ItemParser.length_lt hparse)

def Literal.toExpression : Literal (Ast.Expression T O) → Ast.Expression T O
  | .single x => x
  | .tupleLiteral xs => .tupleLiteral xs
  | .arrayLiteral xs => .arrayLiteral xs
  | .arrayShorthandLiteral x amount => .arrayShorthandLiteral x amount

theorem tupleLiteral_expression (hE : ∀ toks, (E.parse toks).toOption = expression G toks)
    (inner : List TokenKind) :
    Parser.tupleLiteral G (.openParen :: inner) =
      ((tupleLiteral E (.openParen :: inner)).toOption.bind fun r =>
        r.1.map fun lit => (lit.toExpression, r.2)) := by
  rw [Parser.tupleLiteral, Parser.eat_cons, Option.bind_eq_bind, Option.bind_some,
    commaSeparated_expression hE (by decide), tupleLiteral_cons]
  cases hlist : commaSeparated E .closeParen inner with
  | error error => rfl
  | ok result =>
      obtain ⟨xs, mid⟩ := result
      obtain ⟨rest, rfl⟩ := (commaSeparated_eq_ok_iff.mp hlist).closed (by decide) (by decide)
      rcases xs with _ | ⟨x, _ | ⟨y, xs⟩⟩ <;> rfl

theorem eat_toOption {tok : TokenKind} (hgt : tok ≠ .gt) (toks : List TokenKind) :
    (eat (ε := ε) tok toks).toOption = Parser.eat tok toks := by
  unfold eat Parser.eat
  rw [if_neg (fun h : tok = .gt ∧ _ => hgt h.1), if_neg (fun h : tok = .gt ∧ _ => hgt h.1)]
  split <;> rfl

theorem eatInteger_toOption (toks : List TokenKind) :
    (eatInteger (ε := ε) toks).toOption = integerToken toks := by
  unfold eatInteger integerToken
  rcases toks with _ | ⟨tok, toks⟩
  · rfl
  · cases tok <;> rfl

theorem toOption_bind {ε α β : Type} (x : Except ε α) (f : α → Except ε β) :
    (x >>= f).toOption = x.toOption >>= fun a => (f a).toOption := by
  cases x <;> rfl

theorem arrayLiteral_expression (hE : ∀ toks, (E.parse toks).toOption = expression G toks)
    (inner : List TokenKind) :
    Parser.arrayLiteral G (.openBracket :: inner) =
      ((arrayLiteral E (.openBracket :: inner)).toOption.bind fun r =>
        r.1.map fun lit => (lit.toExpression, r.2)) := by
  rw [Parser.arrayLiteral, Parser.eat_cons, Option.bind_eq_bind, Option.bind_some, ← hE]
  by_cases hclose : peek inner = .closeBracket
  · rw [if_pos hclose, eq_cons_of_peek (by decide) hclose, arrayLiteral_empty]
    rfl
  have hclose' : peekKind .closeBracket inner = false :=
    (Bool.not_eq_true _).mp (mt (peekKind_iff (by decide)).mp hclose)
  rw [if_neg hclose]
  cases hparse : E.parse inner with
  | error error =>
      rw [arrayLiteral_of_error hclose' hparse]
      rfl
  | ok result =>
      obtain ⟨x, mid⟩ := result
      rw [arrayLiteral_of_item ⟨hclose', hparse⟩]
      by_cases hsemi : peek mid = .semi
      · rw [if_pos hsemi]
        refine (if_pos hsemi).trans ?_
        rw [toOption_bind, eatInteger_toOption]
        rcases integerToken mid.tail with _ | ⟨amount, rest⟩
        · rfl
        · simp only [Option.bind_eq_bind, Option.bind_some, toOption_bind,
            eat_toOption (show TokenKind.closeBracket ≠ .gt by decide)]
          cases Parser.eat .closeBracket rest <;> rfl
      · rw [if_neg hsemi]
        refine (if_neg hsemi).trans ?_
        rw [commaSeparated_expression hE (by decide)]
        cases commaSeparated E .closeBracket (if peek mid = .comma then mid.tail else mid) with
        | error error => rfl
        | ok result =>
            obtain ⟨xs, last⟩ := result
            change (Parser.eat .closeBracket last >>= _) = ((eat .closeBracket last >>= fun rest =>
              Except.ok (some (Literal.arrayLiteral (x :: xs)), rest)).toOption.bind _)
            rw [toOption_bind, eat_toOption (by decide)]
            cases Parser.eat .closeBracket last <;> rfl

end

end Spade.Parser.Stream

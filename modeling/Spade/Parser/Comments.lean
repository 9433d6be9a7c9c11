import Mathlib.Data.List.Basic
import Spade.Parser.Lexing

/-!
# Comments between tokens

Which texts can be put between two tokens without a change to the token stream of
`Parser::next_token`. `ReadOver` describes them without the lexer's loops: blanks, line comments
that end in a newline, and block comments whose contents are cut into slices with a token.

* **Reading over** (`inside_of_reads`): such a text leaves no token at any depth.
* **Sequences** (`tokenStream_render`): tokens with such texts behind them.
* **The converse** (`transparent_iff`): no other text is transparent.
-/

namespace Spade.Parser

variable (T : UnicodeTable)

/-! ### Texts without tokens -/

/-- No pattern matches the slice with more of the text behind it. -/
def IsLongest (slice rest : List Char) : Prop :=
  ∀ more, more ≠ [] → more <+: rest → classify T (slice ++ more) = none

/-- Texts that are read as comments and white space from the inside of `depth` block comments, up
to the end of the outermost one. A slash is followed by no slash there, as a newline further on
makes a line comment of the two, unless the text is the last one. -/
inductive ReadOver (last : Bool) : ℕ → List Char → Prop
  | nil : ReadOver last 0 []
  | blank {depth : ℕ} {c : Char} {text : List Char} :
      isBlank c = true → ReadOver last depth text → ReadOver last depth (c :: text)
  | lineComment {depth : ℕ} {body text : List Char} :
      '\n' ∉ body → ReadOver last depth text →
        ReadOver last depth ('/' :: '/' :: (body ++ '\n' :: text))
  | start {depth : ℕ} {text : List Char} :
      ReadOver last (depth + 1) text → ReadOver last depth ('/' :: '*' :: text)
  | stop {depth : ℕ} {text : List Char} :
      ReadOver last depth text → ReadOver last (depth + 1) ('*' :: '/' :: text)
  | token {depth : ℕ} {slice text : List Char} {kind : TokenKind} :
      classify T slice = some (.token kind) → kind ≠ .blockCommentStart →
        kind ≠ .blockCommentEnd → IsLongest T slice text →
          (last = false → slice = ['/'] → text.head? ≠ some '/') →
            ReadOver last (depth + 1) text → ReadOver last (depth + 1) (slice ++ text)

variable {T}

/-! ### Slices that are never longer -/

theorem isLineComment_iff {slice : List Char} :
    isLineComment slice = true ↔ ∃ body, '\n' ∉ body ∧ slice = '/' :: '/' :: (body ++ ['\n']) := by
  constructor
  · intro h
    unfold isLineComment at h
    split at h
    · next body =>
      rw [Bool.and_eq_true, decide_eq_true_eq, Bool.not_eq_true'] at h
      refine ⟨body.dropLast, ?_, ?_⟩
      · rw [← List.contains_iff_mem, h.2]
        exact Bool.false_ne_true
      · rw [List.dropLast_append_getLast? _ h.1]
    · exact absurd h Bool.false_ne_true
  · rintro ⟨body, hbody, rfl⟩
    simp [isLineComment, hbody]

theorem classify_lineComment {body : List Char} (h : '\n' ∉ body) :
    classify T ('/' :: '/' :: (body ++ ['\n'])) = some .skip := by
  have hline := isLineComment_iff.mpr ⟨body, h, rfl⟩
  have hmem : '/' ∈ '/' :: '/' :: (body ++ ['\n']) := List.mem_cons_self
  unfold classify
  rw [not_isInteger (by decide) hmem, not_isHexInteger (by decide) hmem,
    not_isBinInteger (by decide) hmem, hline]
  rfl

theorem classify_blank {c : Char} (h : isBlank c = true) : classify T [c] = some .skip := by
  have hmem : c ∈ separators := by
    simp only [isBlank, Bool.or_eq_true, decide_eq_true_eq] at h
    rcases h with ((rfl | rfl) | rfl) | rfl <;> decide
  unfold classify
  rw [not_isInteger hmem List.mem_cons_self, not_isHexInteger hmem List.mem_cons_self,
    not_isBinInteger hmem List.mem_cons_self]
  simp [h]

theorem classify_slash : classify T ['/'] = some (.token .slash) := rfl

theorem classify_asterisk : classify T ['*'] = some (.token .asterisk) := rfl

theorem classify_openParen : classify T ['('] = some (.token .openParen) := rfl

theorem classify_start : classify T ['/', '*'] = some (.token .blockCommentStart) := rfl

theorem classify_stop : classify T ['*', '/'] = some (.token .blockCommentEnd) := rfl

theorem isBlank_mem {c : Char} (h : isBlank c = true) : c ∈ separators := by
  simp only [isBlank, Bool.or_eq_true, decide_eq_true_eq] at h
  rcases h with ((rfl | rfl) | rfl) | rfl <;> decide

/-- A slice with a separator that is longer than a blank. -/
theorem isLineComment_or_mem_operators {c d : Char} {cs : List Char} {e : Char}
    (he : e ∈ separators) (hmem : e ∈ c :: d :: cs) {lexeme : Lexeme}
    (h : classify T (c :: d :: cs) = some lexeme) :
    isLineComment (c :: d :: cs) = true ∨ c :: d :: cs ∈ operators := by
  obtain ⟨hline | ⟨b, hb, -⟩, -⟩ | hoperator := classify_of_separator he hmem h
  · exact .inl hline
  · exact absurd hb (by simp)
  · exact .inr hoperator

theorem head_of_isLineComment {c d : Char} {cs : List Char}
    (h : isLineComment (c :: d :: cs) = true) : c = '/' ∧ d = '/' := by
  obtain ⟨body, -, heq⟩ := isLineComment_iff.mp h
  exact ⟨(List.cons.inj heq).1, (List.cons.inj (List.cons.inj heq).2).1⟩

/-- There is no longer slice if it would have a separator and be neither a line comment nor an
operator. -/
theorem classify_eq_none {c d : Char} {cs : List Char} {e : Char} (he : e ∈ separators)
    (hmem : e ∈ c :: d :: cs) (hline : c ≠ '/' ∨ d ≠ '/') (hoperator : c :: d :: cs ∉ operators) :
    classify T (c :: d :: cs) = none := by
  rw [Option.eq_none_iff_forall_ne_some]
  intro lexeme h
  obtain hcomment | hmem := isLineComment_or_mem_operators he hmem h
  · obtain ⟨rfl, rfl⟩ := head_of_isLineComment hcomment
    exact hline.elim (absurd rfl) (absurd rfl)
  · exact hoperator hmem

/-- All operators with two characters or more. -/
theorem operators_facts {c d : Char} {cs : List Char} (h : c :: d :: cs ∈ operators) :
    isBlank c = false ∧ isBlank d = false ∧ (c = '/' → d = '*' ∧ cs = []) ∧
      (c = '*' → d = '/' ∧ cs = []) ∧ (d = '/' → c = '*' ∧ cs = []) ∧ c ≠ '(' ∧
        '(' ∉ c :: d :: cs := by
  have hlist : operators.filter (2 ≤ ·.length) = [['/', '*'], ['*', '/'], ['>', '>'],
      ['>', '>', '>'], ['>', '='], ['=', '>'], ['-', '>']] := by decide
  have hmem : c :: d :: cs ∈ operators.filter (2 ≤ ·.length) :=
    List.mem_filter.mpr ⟨h, by simp⟩
  rw [hlist] at hmem
  simp only [List.mem_cons, List.not_mem_nil, or_false, List.cons.injEq] at hmem
  obtain ⟨rfl, rfl, rfl⟩ | ⟨rfl, rfl, rfl⟩ | ⟨rfl, rfl, rfl⟩ | ⟨rfl, rfl, rfl⟩ | ⟨rfl, rfl, rfl⟩ |
    ⟨rfl, rfl, rfl⟩ | ⟨rfl, rfl, rfl⟩ := hmem
  all_goals decide

theorem isLongest_blank {c : Char} (h : isBlank c = true) (rest : List Char) :
    IsLongest T [c] rest := by
  rintro more hne -
  obtain ⟨d, cs, rfl⟩ := List.exists_cons_of_ne_nil hne
  apply classify_eq_none (isBlank_mem h) List.mem_cons_self
  · left
    rintro rfl
    exact absurd h (by decide)
  · intro hoperator
    exact Bool.noConfusion (h.symm.trans (operators_facts hoperator).1)

theorem isLongest_lineComment (body rest : List Char) :
    IsLongest T ('/' :: '/' :: (body ++ ['\n'])) rest := by
  rintro more hne -
  rw [Option.eq_none_iff_forall_ne_some]
  intro lexeme hclass
  obtain hline | hoperator := isLineComment_or_mem_operators (by decide) List.mem_cons_self hclass
  · obtain ⟨body', hbody', heq⟩ := isLineComment_iff.mp hline
    have heq : body ++ ['\n'] ++ more = body' ++ ['\n'] :=
      (List.cons.inj (List.cons.inj heq).2).2
    apply hbody'
    -- the first newline is in front of the last character
    have hdrop := congrArg List.dropLast heq
    rw [List.dropLast_append_of_ne_nil hne, List.dropLast_concat] at hdrop
    rw [← hdrop]
    simp
  · exact absurd ((operators_facts hoperator).2.2.1 rfl).1 (by decide)

theorem isLongest_start (rest : List Char) : IsLongest T ['/', '*'] rest := by
  rintro more hne -
  apply classify_eq_none (e := '/') (by decide) List.mem_cons_self (.inr (by decide))
  intro hoperator
  exact hne ((operators_facts hoperator).2.2.1 rfl).2

theorem isLongest_stop (rest : List Char) : IsLongest T ['*', '/'] rest := by
  rintro more hne -
  apply classify_eq_none (e := '/') (by decide) (List.mem_cons_of_mem _ List.mem_cons_self)
    (.inl (by decide))
  intro hoperator
  exact hne ((operators_facts hoperator).2.2.2.1 rfl).2

/-- The end of the file is no token of a slice, and only one slice starts a block comment. -/
theorem token_facts {slice : List Char} {kind : TokenKind}
    (h : classify T slice = some (.token kind)) :
    kind ≠ .eof ∧ (kind = .blockCommentStart → slice = ['/', '*']) ∧
      (kind = .blockCommentEnd → slice = ['*', '/']) := by
  have hinteger : ∀ {make : ℕ → LiteralKind → TokenKind} {body : List Char} {radix : ℕ},
      integerLexeme make body radix = .token kind → ∃ val size, kind = make val size := by
    intro make body radix h
    unfold integerLexeme at h
    split at h
    · exact ⟨_, _, (Lexeme.token.inj h).symm⟩
    · exact absurd h nofun
  unfold classify at h
  split at h
  · obtain ⟨val, size, rfl⟩ := hinteger (Option.some.inj h)
    exact ⟨nofun, nofun, nofun⟩
  split at h
  · obtain ⟨val, size, rfl⟩ := hinteger (Option.some.inj h)
    exact ⟨nofun, nofun, nofun⟩
  split at h
  · obtain ⟨val, size, rfl⟩ := hinteger (Option.some.inj h)
    exact ⟨nofun, nofun, nofun⟩
  split at h
  · exact absurd h nofun
  split at h
  · next hlookup =>
    cases h
    have hall : symbols.all (fun p => p.2 ≠ .eof && (p.2 ≠ .blockCommentStart ||
        p.1 = ['/', '*']) && (p.2 ≠ .blockCommentEnd || p.1 = ['*', '/'])) = true := by
      decide
    have hfacts := List.all_eq_true.mp hall _ (mem_symbols_of_lookup hlookup)
    simp only [Bool.and_eq_true, Bool.or_eq_true, decide_eq_true_eq] at hfacts
    exact ⟨hfacts.1.1, fun h => hfacts.1.2.resolve_left (absurd h),
      fun h => hfacts.2.resolve_left (absurd h)⟩
  split at h
  · cases h
    exact ⟨nofun, nofun, nofun⟩
  · exact absurd h nofun

/-- A token with a slash at the front is a slash. -/
theorem eq_slash_of_token {slice : List Char} {kind : TokenKind}
    (h : classify T ('/' :: slice) = some (.token kind)) (hkind : kind ≠ .blockCommentStart) :
    slice = [] := by
  rcases slice with _ | ⟨d, cs⟩
  · rfl
  obtain ⟨-, hskip⟩ | hoperator := classify_of_separator (by decide) List.mem_cons_self h
  · cases hskip
  · obtain ⟨rfl, rfl⟩ := (operators_facts hoperator).2.2.1 rfl
    cases h.symm.trans classify_start
    exact absurd rfl hkind

/-! ### Depths of block comments -/

section

variable (T)

/-- The loop of `next_token` with the token that it has just read. -/
def loopStep (next : TokenKind × List Char) : Option (TokenKind × List Char) :=
  match next.1 with
  | .blockCommentEnd => nextToken T next.2
  -- Unterminated block comment
  | .eof => none
  | _ => blockComment T next.2

/-- `depth` loops of `next_token`, one inside the other, each with the result of the one inside. -/
def loops : ℕ → TokenKind × List Char → Option (TokenKind × List Char)
  | 0, next => some next
  | depth + 1, next => (loopStep T next).bind (loops depth)

/-- `next_token` from the inside of `depth` block comments. -/
def inside (depth : ℕ) (input : List Char) : Option (TokenKind × List Char) :=
  (nextToken T input).bind (loops T depth)

end

theorem blockComment_eq (input : List Char) :
    blockComment T input = (nextToken T input).bind (loopStep T) := by
  rw [blockComment]
  rfl

theorem inside_zero (input : List Char) : inside T 0 input = nextToken T input := by
  unfold inside
  cases nextToken T input <;> rfl

theorem inside_eq_blockComment (depth : ℕ) (input : List Char) :
    inside T (depth + 1) input = (blockComment T input).bind (loops T depth) := by
  rw [blockComment_eq, Option.bind_assoc]
  rfl

theorem inside_skip {depth : ℕ} {slice rest : List Char} (hne : slice ≠ [])
    (hclass : classify T slice = some .skip) (hlongest : IsLongest T slice rest) :
    inside T depth (slice ++ rest) = inside T depth rest := by
  have hlex : lexNext T (slice ++ rest) = lexNext T rest :=
    lexNext_of_skip (longestMatch_eq_some_iff.mpr ⟨slice, hne, rfl, hclass, hlongest⟩)
  unfold inside
  rw [nextToken, hlex, ← nextToken]

theorem lexNext_token {slice rest : List Char} {kind : TokenKind} (hne : slice ≠ [])
    (hclass : classify T slice = some (.token kind)) (hlongest : IsLongest T slice rest) :
    lexNext T (slice ++ rest) = some (kind, rest) :=
  lexNext_of_token (longestMatch_eq_some_iff.mpr ⟨slice, hne, rfl, hclass, hlongest⟩)

theorem inside_start {depth : ℕ} (rest : List Char) :
    inside T depth ('/' :: '*' :: rest) = inside T (depth + 1) rest := by
  have hlex : lexNext T (['/', '*'] ++ rest) = some (.blockCommentStart, rest) :=
    lexNext_token (by decide) classify_start (isLongest_start rest)
  have hnext : nextToken T (['/', '*'] ++ rest) = blockComment T rest := by
    rw [nextToken, hlex, Option.bind_eq_bind, Option.bind_some]
    exact if_pos rfl
  rw [inside_eq_blockComment, ← hnext]
  rfl

theorem inside_token {depth : ℕ} {slice rest : List Char} {kind : TokenKind} (hne : slice ≠ [])
    (hclass : classify T slice = some (.token kind)) (hlongest : IsLongest T slice rest)
    (hkind : kind ≠ .blockCommentStart) :
    inside T depth (slice ++ rest) = loops T depth (kind, rest) := by
  unfold inside
  rw [nextToken_of_lexNext (lexNext_token hne hclass hlongest) hkind]
  rfl

theorem inside_stop {depth : ℕ} (rest : List Char) :
    inside T (depth + 1) ('*' :: '/' :: rest) = inside T depth rest :=
  inside_token (by decide) classify_stop (isLongest_stop rest) (by decide)

theorem loops_token {depth : ℕ} {kind : TokenKind} (rest : List Char)
    (hend : kind ≠ .blockCommentEnd) (heof : kind ≠ .eof) :
    loops T (depth + 1) (kind, rest) = inside T (depth + 1) rest := by
  rw [inside_eq_blockComment, loops]
  congr 1
  unfold loopStep
  split
  · next h => exact absurd h hend
  · next h => exact absurd h heof
  · rfl

/-! ### Reading over -/

/-- The end of a comment is in what follows. -/
theorem ReadOver.mem_asterisk {last : Bool} {depth : ℕ} {text : List Char}
    (h : ReadOver T last (depth + 1) text) : '*' ∈ text := by
  generalize hdepth : depth + 1 = n at h
  induction h generalizing depth with
  | nil => exact absurd hdepth nofun
  | blank _ _ ih => exact List.mem_cons_of_mem _ (ih hdepth)
  | lineComment _ _ ih =>
      have := ih hdepth
      simp [this]
  | start _ _ => exact List.mem_cons_of_mem _ List.mem_cons_self
  | stop _ _ => exact List.mem_cons_self
  | token _ _ _ _ _ _ ih => exact List.mem_append_right _ (ih rfl)

/-- Only a slash that starts a line comment could be longer with the text behind the comment. -/
theorem IsLongest.append {slice text : List Char} {kind : TokenKind} (hne : slice ≠ [])
    (hclass : classify T slice = some (.token kind)) (hstart : kind ≠ .blockCommentStart)
    (hlongest : IsLongest T slice text) (hslash : slice = ['/'] → text.head? ≠ some '/')
    (hmem : '*' ∈ text) (post : List Char) : IsLongest T slice (text ++ post) := by
  intro more hmore hprefix
  obtain hwithin | ⟨beyond, rfl⟩ :=
    List.prefix_or_prefix_of_prefix hprefix (List.prefix_append text post)
  · exact hlongest more hmore hwithin
  obtain rfl | hbeyond := eq_or_ne beyond []
  · rw [List.append_nil] at hmore ⊢
    exact hlongest text hmore (List.prefix_refl _)
  obtain ⟨c, cs, rfl⟩ := List.exists_cons_of_ne_nil hne
  obtain ⟨d, ds, hds⟩ := List.exists_cons_of_ne_nil
    (List.append_ne_nil_of_right_ne_nil cs (List.append_ne_nil_of_right_ne_nil text hbeyond))
  have hmem' : '*' ∈ c :: d :: ds := by
    rw [← hds]
    simp [hmem]
  rw [List.cons_append, hds]
  apply classify_eq_none (e := '*') (by decide) hmem'
  · by_cases hc : c = '/'
    · subst hc
      obtain rfl := eq_slash_of_token hclass hstart
      right
      rintro rfl
      apply hslash rfl
      obtain ⟨e, es, rfl⟩ := List.exists_cons_of_ne_nil (List.ne_nil_of_mem hmem)
      rw [List.nil_append, List.cons_append] at hds
      rw [(List.cons.inj hds).1, List.head?_cons]
    · exact .inl hc
  · intro hoperator
    have hall : operators.all (fun s => !s.contains '*' || s.length < 3) = true := by decide
    have hlength := List.all_eq_true.mp hall _ hoperator
    have htext := List.length_pos_iff.mpr (List.ne_nil_of_mem hmem)
    have hbeyond := List.length_pos_iff.mpr hbeyond
    have hds := congrArg List.length hds
    simp only [List.length_append, List.length_cons] at hds
    simp [hmem'] at hlength
    omega

/-- Such a text leaves no token. -/
theorem inside_of_reads {last : Bool} {depth : ℕ} {text : List Char}
    (h : ReadOver T last depth text) {post : List Char} (hpost : last = true → post = []) :
    inside T depth (text ++ post) = nextToken T post := by
  induction h with
  | nil => exact inside_zero post
  | @blank depth c text hblank _ ih =>
      rw [← ih]
      exact inside_skip (List.cons_ne_nil c []) (classify_blank hblank)
        (isLongest_blank hblank _)
  | @lineComment depth body text hbody _ ih =>
      rw [← ih]
      have hskip := @inside_skip T depth _ _ (List.cons_ne_nil _ _)
        (classify_lineComment hbody) (isLongest_lineComment body (text ++ post))
      simpa using hskip
  | start _ ih => exact (inside_start _).trans ih
  | stop _ ih => exact (inside_stop _).trans ih
  | @token depth slice text kind hclass hstart hend hlongest hslash hreads ih =>
      have hne : slice ≠ [] := by
        rintro rfl
        exact absurd hclass nofun
      have heof := (token_facts hclass).1
      have hlonger : IsLongest T slice (text ++ post) := by
        cases last with
        | false =>
            exact hlongest.append hne hclass hstart (hslash rfl) hreads.mem_asterisk post
        | true =>
            rw [hpost rfl, List.append_nil]
            exact hlongest
      rw [List.append_assoc, inside_token hne hclass hlonger hstart, loops_token _ hend heof, ih]

theorem nextToken_of_reads {last : Bool} {text post : List Char} (h : ReadOver T last 0 text)
    (hpost : last = true → post = []) : nextToken T (text ++ post) = nextToken T post := by
  rw [← inside_zero, inside_of_reads h hpost]

/-! ### Sequences of tokens -/

/-- A slice with its token. -/
structure LexedToken (T : UnicodeTable) where
  slice : List Char
  kind : TokenKind
  classify_eq : classify T slice = some (.token kind)
  ne_start : kind ≠ .blockCommentStart

theorem LexedToken.slice_ne_nil (t : LexedToken T) : t.slice ≠ [] := by
  intro h
  have hclass := t.classify_eq
  rw [h] at hclass
  exact absurd hclass nofun

/-- Tokens and the texts behind them. -/
def render (ts : List (LexedToken T × List Char)) : List Char :=
  ts.flatMap fun p => p.1.slice ++ p.2

def kinds (ts : List (LexedToken T × List Char)) : List TokenKind := ts.map fun p => p.1.kind

/-- The text behind a token is read over, and together with what follows it does not make a longer
slice of the token. -/
structure Apart (t : LexedToken T) (gap : List Char) (rest : List (LexedToken T × List Char)) :
    Prop where
  reads : ReadOver T rest.isEmpty 0 gap
  comment : gap.head? = some '/' → t.slice ≠ ['/'] ∧ t.slice ≠ ['*']
  /-- Without a text between them two tokens stay apart whatever follows. -/
  adjacent : gap = [] → ∀ u ∈ rest.head?, ∀ post, IsLongest T t.slice (u.1.slice ++ post)

def Separated : List (LexedToken T × List Char) → Prop
  | [] => True
  | (t, gap) :: rest => Apart t gap rest ∧ Separated rest

theorem ReadOver.head {last : Bool} {c : Char} {text : List Char}
    (h : ReadOver T last 0 (c :: text)) :
    isBlank c = true ∨ c = '/' := by
  cases h with
  | blank hc _ => exact .inl hc
  | lineComment _ _ => exact .inr rfl
  | start _ => exact .inr rfl

/-- Behind a token only its own slice is taken. -/
theorem isLongest_gap (t : LexedToken T) {last : Bool} {c : Char} {gap : List Char}
    (hreads : ReadOver T last 0 (c :: gap)) (hcomment : c = '/' → t.slice ≠ ['/'] ∧ t.slice ≠ ['*'])
    (post : List Char) : IsLongest T t.slice (c :: gap ++ post) := by
  intro more hmore hprefix
  obtain ⟨c', ms, rfl⟩ := List.exists_cons_of_ne_nil hmore
  obtain ⟨rfl, -⟩ := List.cons_prefix_cons.mp hprefix
  have hmem : c' ∈ separators := hreads.head.elim isBlank_mem (fun hc => hc ▸ by decide)
  obtain ⟨d, ds, hslice⟩ := List.exists_cons_of_ne_nil t.slice_ne_nil
  have hclass := t.classify_eq
  rw [hslice] at hclass hcomment ⊢
  rcases ds with _ | ⟨e, es⟩
  · rw [List.cons_append, List.nil_append]
    apply classify_eq_none hmem (List.mem_cons_of_mem _ List.mem_cons_self)
    · by_cases hslash : c' = '/'
      · exact .inl fun hd => (hcomment hslash).1 (hd ▸ rfl)
      · exact .inr hslash
    · intro hoperator
      have hfacts := operators_facts hoperator
      obtain hblank | hslash := hreads.head
      · exact Bool.noConfusion (hblank.symm.trans hfacts.2.1)
      · exact (hcomment hslash).2 ((hfacts.2.2.2.2.1 hslash).1 ▸ rfl)
  · rw [List.cons_append, List.cons_append]
    have hmem' : c' ∈ d :: e :: (es ++ c' :: ms) := by simp
    apply classify_eq_none hmem hmem'
    · by_cases hd : d = '/'
      · subst hd
        exact absurd (eq_slash_of_token hclass t.ne_start) (List.cons_ne_nil _ _)
      · exact .inl hd
    · intro hoperator
      have hall : operators.all (fun s => s.length < 3 || s.all (fun c => !isBlank c && c ≠ '/')) =
          true := by decide
      have hfacts := List.all_eq_true.mp hall _ hoperator
      rw [Bool.or_eq_true] at hfacts
      obtain hlength | hnone := hfacts
      · simp at hlength
        omega
      · have hc := List.all_eq_true.mp hnone _ hmem'
        simp only [Bool.and_eq_true, Bool.not_eq_true', decide_eq_true_eq] at hc
        obtain hblank | hslash := hreads.head
        · exact Bool.noConfusion (hblank.symm.trans hc.1)
        · exact hc.2 hslash

theorem tokenStream_congr {x y : List Char} (h : nextToken T x = nextToken T y) :
    tokenStream T x = tokenStream T y := by
  rw [tokenStream, h, ← tokenStream]

/-- What follows an unfinished text in the second one of two runs. -/
def lastLine : List Char := ['(', '\n']

/-- A slice that the lexer takes at the end of a file is also taken in front of a last line, unless
a line comment starts there. -/
theorem IsLongest.lastLine {slice rest : List Char} {lexeme : Lexeme} (hne : slice ≠ [])
    (hclass : classify T slice = some lexeme) (hlongest : IsLongest T slice rest)
    (hslash : slice = ['/'] → rest.head? ≠ some '/') :
    IsLongest T slice (rest ++ lastLine) := by
  intro more hmore hprefix
  obtain hwithin | ⟨beyond, rfl⟩ :=
    List.prefix_or_prefix_of_prefix hprefix (List.prefix_append rest _)
  · exact hlongest more hmore hwithin
  rcases beyond with _ | ⟨b, bs⟩
  · rw [List.append_nil] at hmore ⊢
    exact hlongest rest hmore (List.prefix_refl _)
  obtain ⟨rfl, -⟩ := List.cons_prefix_cons.mp ((List.prefix_append_right_inj rest).mp hprefix)
  rw [Option.eq_none_iff_forall_ne_some]
  intro lexeme' hlonger
  obtain ⟨c, cs, rfl⟩ := List.exists_cons_of_ne_nil hne
  rcases cs with _ | ⟨d, ds⟩
  · obtain ⟨d, ds, hds⟩ := List.exists_cons_of_ne_nil
      (List.append_ne_nil_of_right_ne_nil rest (List.cons_ne_nil '(' bs))
    have hmem : '(' ∈ c :: d :: ds := by
      rw [← hds]
      simp
    rw [List.cons_append, List.nil_append, hds] at hlonger
    obtain hline | hoperator := isLineComment_or_mem_operators (by decide) hmem hlonger
    · obtain ⟨rfl, rfl⟩ := head_of_isLineComment hline
      apply hslash rfl
      rcases rest with _ | ⟨e, es⟩
      · exact absurd (List.cons.inj hds).1 (by decide)
      · exact congrArg some (List.cons.inj hds).1
    · exact (operators_facts hoperator).2.2.2.2.2.2 hmem
  · have hmem : '(' ∈ c :: d :: (ds ++ (rest ++ '(' :: bs)) := by simp
    obtain hline | hoperator := isLineComment_or_mem_operators (by decide) hmem hlonger
    · obtain ⟨rfl, rfl⟩ := head_of_isLineComment hline
      obtain hline' | hoperator :=
        isLineComment_or_mem_operators (by decide) List.mem_cons_self hclass
      · obtain ⟨body, -, heq⟩ := isLineComment_iff.mp hline'
        have hnone := isLongest_lineComment (T := T) body _ _ hmore (List.prefix_refl _)
        rw [← heq, hlonger] at hnone
        exact absurd hnone nofun
      · exact absurd ((operators_facts hoperator).2.2.1 rfl).1 (by decide)
    · exact (operators_facts hoperator).2.2.2.2.2.2 hmem

theorem inside_succ_nil (depth : ℕ) : inside T (depth + 1) [] = none := by
  unfold inside
  rw [nextToken_of_lexNext (lexNext_nil T) (by decide)]
  rfl

theorem skip_cases {slice : List Char} (h : classify T slice = some .skip) :
    (∃ body, '\n' ∉ body ∧ slice = '/' :: '/' :: (body ++ ['\n'])) ∨
      ∃ c, isBlank c = true ∧ slice = [c] := by
  have hinteger : ∀ {make : ℕ → LiteralKind → TokenKind} {body : List Char} {radix : ℕ},
      integerLexeme make body radix ≠ .skip := by
    intro make body radix
    unfold integerLexeme
    split <;> exact nofun
  unfold classify at h
  split at h
  · exact absurd (Option.some.inj h) hinteger
  split at h
  · exact absurd (Option.some.inj h) hinteger
  split at h
  · exact absurd (Option.some.inj h) hinteger
  split at h
  · next hskip =>
    simp only [Bool.or_eq_true, Bool.and_eq_true, decide_eq_true_eq] at hskip
    obtain hline | ⟨hlength, hblank⟩ := hskip
    · exact .inl (isLineComment_iff.mp hline)
    · obtain ⟨c, rfl⟩ := List.length_eq_one_iff.mp hlength
      exact .inr ⟨c, by simpa using hblank, rfl⟩
  split at h
  · exact absurd h nofun
  split at h <;> exact absurd h nofun

/-- Two slashes without a newline behind them. -/
theorem inside_slashes {depth : ℕ} {rest : List Char}
    (hlongest : IsLongest T ['/'] ('/' :: rest)) :
    inside T (depth + 1) (['/'] ++ '/' :: rest ++ lastLine) = none := by
  have hnewline : '\n' ∉ rest := by
    intro hmem
    obtain ⟨body, tail, rfl, hbody⟩ := List.eq_append_cons_of_mem hmem
    have hnone := hlongest ('/' :: (body ++ ['\n'])) (List.cons_ne_nil _ _)
      ⟨tail, by simp⟩
    exact absurd (hnone.symm.trans (classify_lineComment hbody)) nofun
  have hbody : '\n' ∉ rest ++ ['('] := by simp [hnewline]
  have hskip := @inside_skip T (depth + 1) _ _ (List.cons_ne_nil _ _)
    (classify_lineComment hbody) (isLongest_lineComment _ [])
  rw [← inside_succ_nil (T := T) depth, ← hskip]
  simp [Parser.lastLine]

/-- A text without tokens, at the end of the file and, if it is not the last one, in front of a
last line. -/
theorem reads_of_inside {last : Bool} {depth : ℕ} {text : List Char}
    (hend : ∃ rest, inside T depth text = some (.eof, rest))
    (hline : last = false → inside T depth (text ++ lastLine) ≠ none) :
    ReadOver T last depth text := by
  induction hlength : text.length using Nat.strongRecOn generalizing depth text with
  | ind n ih =>
  obtain rfl | hne := eq_or_ne text []
  · rcases depth with _ | depth
    · exact .nil
    · rw [inside_succ_nil] at hend
      obtain ⟨rest, hend⟩ := hend
      exact absurd hend (Option.some_ne_none _).symm
  cases hmatch : longestMatch T text with
  | none =>
      obtain ⟨rest, hend⟩ := hend
      unfold inside at hend
      rw [nextToken, lexNext, if_neg hne, hmatch] at hend
      exact absurd hend (Option.some_ne_none _).symm
  | some result =>
      obtain ⟨lexeme, rest⟩ := result
      obtain ⟨slice, hslice, rfl, hclass, hlongest⟩ := longestMatch_eq_some_iff.mp hmatch
      have hshorter : rest.length < n := by
        rw [← hlength, List.length_append]
        have := List.length_pos_iff.mpr hslice
        omega
      cases lexeme with
      | panic =>
          obtain ⟨rest', hend⟩ := hend
          unfold inside at hend
          rw [nextToken, lexNext, if_neg hne, hmatch] at hend
          exact absurd hend (Option.some_ne_none _).symm
      | skip =>
          have hlater : IsLongest T slice (rest ++ lastLine) := by
            apply IsLongest.lastLine hslice hclass hlongest
            rintro rfl
            cases hclass.symm.trans classify_slash
          have hrest : ReadOver T last depth rest := by
            apply ih _ hshorter _ _ rfl
            · rw [← inside_skip hslice hclass hlongest]
              exact hend
            · intro hlast
              rw [← inside_skip hslice hclass hlater, ← List.append_assoc]
              exact hline hlast
          obtain ⟨body, hbody, rfl⟩ | ⟨c, hc, rfl⟩ := skip_cases hclass
          · simpa using hrest.lineComment hbody
          · exact hrest.blank hc
      | token kind =>
          obtain ⟨heof, hstart, hstop⟩ := token_facts hclass
          by_cases hkind : kind = .blockCommentStart
          · obtain rfl := hstart hkind
            apply ReadOver.start
            apply ih _ hshorter _ _ rfl
            · rw [← inside_start]
              exact hend
            · intro hlast
              rw [← inside_start]
              exact hline hlast
          rcases depth with _ | depth
          · rw [inside_token hslice hclass hlongest hkind] at hend
            obtain ⟨rest', hend⟩ := hend
            cases hend
            exact absurd rfl heof
          by_cases hkind' : kind = .blockCommentEnd
          · obtain rfl := hstop hkind'
            apply ReadOver.stop
            apply ih _ hshorter _ _ rfl
            · rw [← inside_stop]
              exact hend
            · intro hlast
              rw [← inside_stop]
              exact hline hlast
          have hslash : last = false → slice = ['/'] → rest.head? ≠ some '/' := by
            rintro hlast rfl hhead
            obtain ⟨rest, rfl⟩ : ∃ rest', rest = '/' :: rest' := List.head?_eq_some_iff.mp hhead
            exact hline hlast (inside_slashes hlongest)
          apply ReadOver.token hclass hkind hkind' hlongest hslash
          apply ih _ hshorter _ _ rfl
          · rw [← loops_token rest hkind' heof, ← inside_token hslice hclass hlongest hkind]
            exact hend
          · intro hlast
            have hlater := IsLongest.lastLine hslice hclass hlongest (hslash hlast)
            rw [← loops_token _ hkind' heof, ← inside_token hslice hclass hlater hkind,
              ← List.append_assoc]
            exact hline hlast

/-! ### Transparent texts -/

section

variable (T)

/-- Put behind any token of any sequence in place of a blank, the text leaves the tokens as they
are. -/
def Transparent (text : List Char) : Prop :=
  ∀ (before after : List (LexedToken T × List Char)) (t : LexedToken T),
    Separated (before ++ (t, [' ']) :: after) →
      tokenStream T (render (before ++ (t, text) :: after)) =
        some (kinds (before ++ (t, text) :: after))

/-- The same for the end of the file. -/
def TransparentAtEnd (text : List Char) : Prop :=
  ∀ (before : List (LexedToken T × List Char)) (t : LexedToken T),
    Separated (before ++ [(t, [' '])]) →
      tokenStream T (render (before ++ [(t, text)])) = some (kinds (before ++ [(t, text)]))

end

def BeginsBlank (text : List Char) : Prop := ∃ c ∈ text.head?, isBlank c = true

theorem Separated.replace {before after : List (LexedToken T × List Char)} {t : LexedToken T}
    {gap text : List Char} (h : Separated (before ++ (t, gap) :: after))
    (htext : Apart t text after) : Separated (before ++ (t, text) :: after) := by
  induction before with
  | nil => exact ⟨htext, h.2⟩
  | cons p before ih =>
      refine ⟨⟨?_, h.1.comment, ?_⟩, ih h.2⟩
      · have hreads := h.1.reads
        cases before <;> exact hreads
      · intro hgap u hu
        rcases before with _ | ⟨q, before⟩
        · cases hu
          exact h.1.adjacent hgap (t, gap) rfl
        · exact h.1.adjacent hgap u hu

theorem apart_of_beginsBlank {t : LexedToken T} {text : List Char}
    {after : List (LexedToken T × List Char)} (hreads : ReadOver T after.isEmpty 0 text)
    (hblank : BeginsBlank text) : Apart t text after := by
  obtain ⟨c, hc, hblank⟩ := hblank
  obtain ⟨rest, rfl⟩ : ∃ rest, text = c :: rest := List.head?_eq_some_iff.mp hc
  refine ⟨hreads, ?_, fun hnil => absurd hnil (List.cons_ne_nil _ _)⟩
  rintro ⟨rfl⟩
  exact absurd hblank (by decide)

/-- The tokens of the two runs. -/
def parenthesis (T : UnicodeTable) : LexedToken T := ⟨['('], .openParen, classify_openParen, nofun⟩

def asterisk (T : UnicodeTable) : LexedToken T := ⟨['*'], .asterisk, classify_asterisk, nofun⟩

def slash (T : UnicodeTable) : LexedToken T := ⟨['/'], .slash, classify_slash, nofun⟩

theorem nextToken_parenthesis (rest : List Char) :
    nextToken T ('(' :: rest) = some (.openParen, rest) := by
  refine nextToken_of_lexNext (lexNext_token (by decide) classify_openParen ?_) (by decide)
  rintro more hne -
  obtain ⟨d, ds, rfl⟩ := List.exists_cons_of_ne_nil hne
  exact classify_eq_none (e := '(') (by decide) List.mem_cons_self (.inl (by decide))
    fun hoperator => (operators_facts hoperator).2.2.2.2.2.1 rfl

theorem nextToken_of_tokenStream_nil {input : List Char} (h : tokenStream T input = some []) :
    ∃ rest, nextToken T input = some (.eof, rest) := by
  cases hnext : nextToken T input with
  | none =>
      rw [tokenStream, hnext] at h
      exact absurd h (Option.some_ne_none _).symm
  | some result =>
      obtain ⟨kind, rest⟩ := result
      by_cases hkind : kind = .eof
      · exact ⟨rest, hkind ▸ rfl⟩
      · rw [tokenStream_eq_cons hnext hkind, Option.map_eq_some_iff] at h
        obtain ⟨ks, -, h⟩ := h
        exact absurd h (List.cons_ne_nil _ _)

theorem separated_pair {t u : LexedToken T} {gap : List Char} (h : ReadOver T true 0 gap)
    (hblank : BeginsBlank gap) : Separated [(t, [' ']), (u, gap)] :=
  ⟨apart_of_beginsBlank (.blank rfl .nil) ⟨' ', rfl, rfl⟩, apart_of_beginsBlank h hblank, trivial⟩

theorem separated_single {t : LexedToken T} : Separated [(t, [' '])] :=
  ⟨apart_of_beginsBlank (.blank rfl .nil) ⟨' ', rfl, rfl⟩, trivial⟩

theorem TransparentAtEnd.inside_eq {text : List Char} (h : TransparentAtEnd T text) :
    ∃ rest, inside T 0 text = some (.eof, rest) := by
  have hstream : tokenStream T ('(' :: text) = some [.openParen] := by
    simpa [render, kinds, parenthesis] using h [] (parenthesis T) separated_single
  rw [tokenStream_eq_cons (nextToken_parenthesis text) (by decide)] at hstream
  have hnil : tokenStream T text = some [] := by
    obtain ⟨ks, hks, heq⟩ := Option.map_eq_some_iff.mp hstream
    rw [hks, (List.cons.inj heq).2]
  rw [inside_zero]
  exact nextToken_of_tokenStream_nil hnil

theorem TransparentAtEnd.reads {text : List Char} (h : TransparentAtEnd T text) :
    ReadOver T true 0 text :=
  reads_of_inside h.inside_eq nofun

theorem Transparent.atEnd {text : List Char} (h : Transparent T text) : TransparentAtEnd T text :=
  fun before t => h before [] t

theorem Transparent.reads {text : List Char} (h : Transparent T text) :
    ReadOver T false 0 text := by
  have hstream : tokenStream T ('(' :: (text ++ lastLine)) = some [.openParen, .openParen] := by
    have hpair := h [] [(parenthesis T, ['\n'])] (parenthesis T)
      (separated_pair (.blank rfl .nil) ⟨'\n', rfl, rfl⟩)
    simpa [render, kinds, parenthesis, lastLine] using hpair
  rw [tokenStream_eq_cons (nextToken_parenthesis _) (by decide)] at hstream
  apply reads_of_inside h.atEnd.inside_eq
  intro _ hnone
  rw [inside_zero] at hnone
  rw [tokenStream, hnone] at hstream
  exact absurd hstream (Option.some_ne_none _).symm

end Spade.Parser

import Mathlib.Data.Nat.Notation

/-!
# Tokens

The kinds of tokens of `spade-parser/src/lexer.rs` that reach the parser: white space and comments
are skipped by the lexer.
-/

namespace Spade.Parser

inductive LiteralKind where
  | unsized
  | signed (size : ℕ)
  | unsigned (size : ℕ)
  deriving DecidableEq, Repr

inductive TokenKind where
  | identifier (name : String)
  | integer (val : ℕ) (kind : LiteralKind)
  | hexInteger (val : ℕ) (kind : LiteralKind)
  | binInteger (val : ℕ) (kind : LiteralKind)
  | true_ | false_
  | low | high | highImp
  | reg | let_ | decl | instance_ | reset | initial | if_ | else_ | match_ | set
  | pipeline | stage | entity | trait | impl | for_ | function | enum | struct | port | mod | use
  | as_ | assert | mut_ | where_
  | comptimeConfig | comptimeIf | comptimeElse
  | plus | minus | asterisk | slash | percentage
  | equals | notEquals | lt | gt | le | ge
  | arithmeticRightShift | rightShift | leftShift
  | logicalOr | logicalAnd | logicalXor
  | ampersand | bitwiseOr | not | bitwiseXor | tilde
  | infixOperatorSeparator | singleQuote | assignment
  | openParen | closeParen | openBrace | closeBrace | openBracket | closeBracket
  | fatArrow | slimArrow | comma | dot | semi | colon | pathSeparator | hash | dollar
  | builtin | blockCommentStart | blockCommentEnd
  | eof
  deriving DecidableEq, Repr

/-- The next token; after the last one comes the end of the file. -/
def peek (toks : List TokenKind) : TokenKind := toks.headD .eof

@[simp] theorem peek_nil : peek [] = .eof := rfl

@[simp] theorem peek_cons {tok : TokenKind} {toks : List TokenKind} : peek (tok :: toks) = tok :=
  rfl

/-- `eat`: the tokens after the expected one. -/
def eat (expected : TokenKind) (toks : List TokenKind) : Option (List TokenKind) :=
  if peek toks = expected then some toks.tail else none

@[simp] theorem eat_cons {tok : TokenKind} {toks : List TokenKind} :
    eat tok (tok :: toks) = some toks :=
  if_pos rfl

end Spade.Parser

import TermRules.IntLiteral
import TermRules.Location

/-!
# Tokens

A token is a lexeme with the place where it starts. The end of a file is no
token; it is a kind of its own because messages name what was found.
-/

namespace TermRules

inductive Lexeme
  | lparen
  | rparen
  | atSign
  | symbol (text : Bytes)
  | int (value : IntLiteral)
deriving DecidableEq, Repr

structure Token where
  lexeme : Lexeme
  loc : Loc
deriving DecidableEq, Repr

inductive TokenKind
  | endOfFile
  | lparen
  | rparen
  | atSign
  | symbol
  | int
deriving DecidableEq, Repr

def Lexeme.kind : Lexeme → TokenKind
  | .lparen => .lparen
  | .rparen => .rparen
  | .atSign => .atSign
  | .symbol _ => .symbol
  | .int _ => .int

def TokenKind.name : TokenKind → Bytes
  | .endOfFile => ascii "end of file"
  | .lparen => ascii "'('"
  | .rparen => ascii "')'"
  | .atSign => ascii "'@'"
  | .symbol => ascii "symbol"
  | .int => ascii "integer"

end TermRules

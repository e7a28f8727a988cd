import TermRules.Definition
import TermRules.Token

/-!
# Reading a token list

A cursor stands before the tokens that are left and counts the parentheses it
has opened. A parse moves the cursor and either answers or stops at the first
syntax error, where it leaves the cursor. `many` repeats a part while a test on
the cursor holds; each part takes a token, so the tokens left bound the loop.
-/

namespace TermRules

inductive SyntaxFault
  | expected (what : String) (found : TokenKind)
  | unknownDefinition (name : Bytes)
  | unknownTypeBody (name : Bytes)
  | unknownExternalKind (name : Bytes)
  | multiTerm
  | priorityOutOfRange
deriving DecidableEq, Repr

def SyntaxFault.message : SyntaxFault → Bytes
  | .expected what found => ascii "expected " ++ ascii what ++ ascii ", got " ++ found.name
  | .unknownDefinition name => ascii "unknown definition " ++ quoted name
  | .unknownTypeBody name => ascii "expected 'primitive' or 'enum', got " ++ quoted name
  | .unknownExternalKind name =>
      ascii "expected 'constructor' or 'extractor', got " ++ quoted name
  | .multiTerm => ascii "multi terms are not supported"
  | .priorityOutOfRange => ascii "rule priority out of range"

structure SyntaxError where
  loc : Loc
  fault : SyntaxFault
deriving DecidableEq, Repr

structure Cursor where
  tokens : List Token
  endLoc : Loc
  -- Unbounded, where a counter of 32 bits ends at 2^31 open parentheses.
  depth : Int
deriving DecidableEq, Repr

namespace Cursor

def ofTokens (tokens : List Token) (endLoc : Loc) : Cursor := ⟨tokens, endLoc, 0⟩

def lexeme? (c : Cursor) : Option Lexeme := c.tokens.head?.map Token.lexeme

def kind (c : Cursor) : TokenKind := (c.lexeme?.map Lexeme.kind).getD .endOfFile

def loc (c : Cursor) : Loc := (c.tokens.head?.map Token.loc).getD c.endLoc

def depthAfter (depth : Int) : Lexeme → Int
  | .lparen => depth + 1
  | .rparen => depth - 1
  | _ => depth

def advance (c : Cursor) : Cursor :=
  match c.tokens with
  | [] => c
  | t :: rest => { c with tokens := rest, depth := depthAfter c.depth t.lexeme }

def skipTokens (endLoc : Loc) : List Token → Int → Cursor
  | [], depth => ⟨[], endLoc, depth⟩
  | t :: rest, depth =>
      if 0 < depth then skipTokens endLoc rest (depthAfter depth t.lexeme)
      else ⟨t :: rest, endLoc, depth⟩

def closeAll (c : Cursor) : Cursor := skipTokens c.endLoc c.tokens c.depth

def atSymbol (c : Cursor) (text : String) : Bool := c.lexeme? = some (.symbol (ascii text))

def atForm (c : Cursor) (head : String) : Bool :=
  match c.tokens with
  | t :: u :: _ => t.lexeme = .lparen && u.lexeme = .symbol (ascii head)
  | _ => false

def inList (c : Cursor) : Bool := c.kind != .rparen && c.kind != .endOfFile

end Cursor

abbrev Parse := EStateM SyntaxError Cursor

namespace Parse

def failAt (loc : Loc) (fault : SyntaxFault) : Parse α := throw ⟨loc, fault⟩

def unexpected (what : String) : Parse α := do
  let c ← get
  failAt c.loc (.expected what c.kind)

def advance : Parse Unit := modify Cursor.advance

def expect (kind : TokenKind) (what : String) : Parse Unit := do
  if (← get).kind = kind then advance else unexpected what

def symbol (what : String) : Parse Ident := do
  let c ← get
  match c.lexeme? with
  | some (.symbol name) => advance; return ⟨name, c.loc⟩
  | _ => unexpected what

def manyWithin (more : Cursor → Bool) (item : Parse α) : Nat → Parse (List α)
  | 0 => return []
  | fuel + 1 => do
      if more (← get) then
        let a ← item
        let as ← manyWithin more item fuel
        return a :: as
      else return []

def many (more : Cursor → Bool) (item : Parse α) : Parse (List α) := do
  manyWithin more item (← get).tokens.length

end Parse

end TermRules

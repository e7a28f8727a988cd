import TermRules.Token

/-!
# The pieces of a rule file

A source is cut into pieces from left to right: blanks, comments, tokens and
bytes that fit nowhere. `pieces` cuts a whole source, `pieces_text` says that no
byte is lost, and `lexeme?` and `fault?` say what each piece stands for.
-/

namespace TermRules

inductive Piece
  | blank (b : UInt8)
  | lineComment (text : Bytes)
  | blockComment (text : Bytes)
  | openComment (text : Bytes)
  | lparen
  | rparen
  | atSign
  | number (spelling : Bytes)
  | symbol (spelling : Bytes)
  | stray (b : UInt8)
deriving DecidableEq, Repr

inductive LexicalFault
  | unterminatedComment
  | unexpectedByte (b : UInt8)
  | malformedInteger (spelling : Bytes)
  | integerOutOfRange (spelling : Bytes)
deriving DecidableEq, Repr

def LexicalFault.message : LexicalFault → Bytes
  | .unterminatedComment => ascii "unterminated block comment"
  | .unexpectedByte b => ascii "unexpected character " ++ quoted [b]
  | .malformedInteger spelling => ascii "invalid integer literal " ++ quoted spelling
  | .integerOutOfRange spelling => ascii "integer literal out of range " ++ quoted spelling

namespace Piece

def text : Piece → Bytes
  | .blank b => [b]
  | .lineComment text => text
  | .blockComment text => text
  | .openComment text => text
  | .lparen => [Byte.lparen]
  | .rparen => [Byte.rparen]
  | .atSign => [Byte.atSign]
  | .number spelling => spelling
  | .symbol spelling => spelling
  | .stray b => [b]

def lexeme? : Piece → Option Lexeme
  | .lparen => some .lparen
  | .rparen => some .rparen
  | .atSign => some .atSign
  | .number spelling => some (.int (Numeral.readOrZero spelling))
  | .symbol spelling => some (.symbol spelling)
  | _ => none

def fault? : Piece → Option LexicalFault
  | .openComment _ => some .unterminatedComment
  | .stray b => some (.unexpectedByte b)
  | .number spelling =>
      match Numeral.read spelling with
      | .ok _ => none
      | .error .malformed => some (.malformedInteger spelling)
      | .error .outOfRange => some (.integerOutOfRange spelling)
  | _ => none

end Piece

namespace Byte

def isBlank (b : UInt8) : Bool := b == space || b == tab || b == newline || b == carriageReturn

def endsLine (b : UInt8) : Bool := b == newline || b == carriageReturn

/-- Bytes that end a symbol or a number: delimiters, blanks and the zero byte. -/
def isSymbolEnd (b : UInt8) : Bool :=
  b == lparen || b == rparen || b == semicolon || b == atSign || isBlank b || b == 0

def inSymbol (b : UInt8) : Bool := !isSymbolEnd b

def startsSymbol (b : UInt8) : Bool := inSymbol b && b != minus && !isDigit b

/-- A digit starts a number, and so does a minus sign in front of one. -/
def startsNumber (b : UInt8) (rest : Bytes) : Bool :=
  isDigit b || b == minus && rest.head?.any isDigit

end Byte

/-- Splits off the text up to the end of `depth` open comments; nothing if they stay open. The depth
is not bounded, where a counter of 32 bits would wrap at 2^32 open comments. -/
def splitComment : Nat → Bytes → Option (Bytes × Bytes)
  | 0, s => some ([], s)
  | _ + 1, [] => none
  | depth + 1, Byte.lparen :: Byte.semicolon :: s =>
      (splitComment (depth + 2) s).map fun (c, t) => (Byte.lparen :: Byte.semicolon :: c, t)
  | depth + 1, Byte.semicolon :: Byte.rparen :: s =>
      (splitComment depth s).map fun (c, t) => (Byte.semicolon :: Byte.rparen :: c, t)
  | depth + 1, b :: s => (splitComment (depth + 1) s).map fun (c, t) => (b :: c, t)

def cutParen : Bytes → Piece × Bytes
  | Byte.semicolon :: s =>
      match splitComment 1 s with
      | some (c, t) => (.blockComment (Byte.lparen :: Byte.semicolon :: c), t)
      | none => (.openComment (Byte.lparen :: Byte.semicolon :: s), [])
  | s => (.lparen, s)

def cutPiece (b : UInt8) (s : Bytes) : Piece × Bytes :=
  if Byte.isBlank b then (.blank b, s)
  else if b = Byte.semicolon then
    (.lineComment (b :: s.takeWhile (!Byte.endsLine ·)), s.dropWhile (!Byte.endsLine ·))
  else if b = Byte.lparen then cutParen s
  else if b = Byte.rparen then (.rparen, s)
  else if b = Byte.atSign then (.atSign, s)
  else if Byte.startsNumber b s then
    (.number (b :: s.takeWhile Byte.inSymbol), s.dropWhile Byte.inSymbol)
  else if Byte.startsSymbol b then
    (.symbol (b :: s.takeWhile Byte.inSymbol), s.dropWhile Byte.inSymbol)
  else (.stray b, s)

theorem splitComment_text {depth : Nat} {s c t : Bytes} (h : splitComment depth s = some (c, t)) :
    c ++ t = s := by
  fun_induction splitComment depth s generalizing c t with
  | case1 s => simp_all
  | case2 => simp at h
  | case3 depth s ih =>
    obtain ⟨⟨c', t'⟩, h', he⟩ := Option.map_eq_some_iff.1 h
    simp only [Prod.mk.injEq] at he
    obtain ⟨rfl, rfl⟩ := he
    simp [ih h']
  | case4 depth s ih =>
    obtain ⟨⟨c', t'⟩, h', he⟩ := Option.map_eq_some_iff.1 h
    simp only [Prod.mk.injEq] at he
    obtain ⟨rfl, rfl⟩ := he
    simp [ih h']
  | case5 depth b s _ _ ih =>
    obtain ⟨⟨c', t'⟩, h', he⟩ := Option.map_eq_some_iff.1 h
    simp only [Prod.mk.injEq] at he
    obtain ⟨rfl, rfl⟩ := he
    simp [ih h']

theorem cutParen_text (s : Bytes) :
    (cutParen s).1.text ++ (cutParen s).2 = Byte.lparen :: s := by
  fun_cases cutParen s with
  | case1 s c t h => simp [Piece.text, splitComment_text h]
  | case2 s h => simp [Piece.text]
  | case3 s h => simp [Piece.text]

theorem cutPiece_text (b : UInt8) (s : Bytes) :
    (cutPiece b s).1.text ++ (cutPiece b s).2 = b :: s := by
  by_cases hp : b = Byte.lparen
  · subst hp
    exact cutParen_text s
  · unfold cutPiece
    repeat' split
    all_goals simp_all [Piece.text]

theorem text_ne_nil (b : UInt8) (s : Bytes) : (cutPiece b s).1.text ≠ [] := by
  unfold cutPiece cutParen
  repeat' split
  all_goals simp [Piece.text]

theorem length_cutPiece (b : UInt8) (s : Bytes) : (cutPiece b s).2.length ≤ s.length := by
  have h := congrArg List.length (cutPiece_text b s)
  have hp := List.length_pos_iff.2 (text_ne_nil b s)
  simp only [List.length_append, List.length_cons] at h
  omega

def pieces : Bytes → List Piece
  | [] => []
  | b :: s => (cutPiece b s).1 :: pieces (cutPiece b s).2
termination_by s => s.length
decreasing_by
  have := length_cutPiece b s
  simp only [List.length_cons]
  omega

theorem pieces_text (s : Bytes) : (pieces s).flatMap Piece.text = s := by
  fun_induction pieces s with
  | case1 => rfl
  | case2 b s ih => simp [ih, cutPiece_text]

end TermRules

import TermRules.Diagnostic
import TermRules.Token.Piece

/-!
# Scanning

Each piece of a source stands at a place. A scan keeps the tokens in order and,
with each, the lexical errors met on the way to it; errors after the last token
are met on the way to the end of the file.
-/

namespace TermRules

structure PlacedPiece where
  piece : Piece
  loc : Loc
deriving DecidableEq, Repr

namespace PlacedPiece

def token? (p : PlacedPiece) : Option Token := p.piece.lexeme?.map (Token.mk · p.loc)

def diagnostics (p : PlacedPiece) : List Diagnostic :=
  (p.piece.fault?.map fun f => Diagnostic.error p.loc f.message).toList

def place : Loc → List Piece → List PlacedPiece
  | _, [] => []
  | loc, p :: ps => ⟨p, loc⟩ :: place (loc.after p.text) ps

end PlacedPiece

structure Reading where
  faults : List Diagnostic
  token : Token
deriving DecidableEq, Repr

structure Scan where
  readings : List Reading
  endFaults : List Diagnostic
  endLoc : Loc
deriving DecidableEq, Repr

namespace Scan

def prepend (faults : List Diagnostic) (scan : Scan) : Scan :=
  match scan.readings with
  | [] => { scan with endFaults := faults ++ scan.endFaults }
  | r :: rs => { scan with readings := ⟨faults ++ r.faults, r.token⟩ :: rs }

def cons (p : PlacedPiece) (scan : Scan) : Scan :=
  match p.token? with
  | some t => { scan with readings := ⟨p.diagnostics, t⟩ :: scan.readings }
  | none => scan.prepend p.diagnostics

def ofPieces (endLoc : Loc) (ps : List PlacedPiece) : Scan := ps.foldr cons ⟨[], [], endLoc⟩

def ofSource (file : UInt32) (source : Bytes) : Scan :=
  ofPieces ((Loc.start file).after source) (PlacedPiece.place (Loc.start file) (pieces source))

def tokens (scan : Scan) : List Token := scan.readings.map Reading.token

def faults (scan : Scan) : List (List Diagnostic) :=
  scan.readings.map Reading.faults ++ [scan.endFaults]

def diagnostics (scan : Scan) : List Diagnostic := scan.faults.flatten

end Scan

end TermRules

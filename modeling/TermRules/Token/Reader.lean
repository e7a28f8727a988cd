import TermRules.Token.Scan

/-!
# Reading tokens one by one

A reader walks over the pieces of a source and can look at the next token
without passing it. Errors are reported when a token is first looked at. At the
end of the file there is no token, and reading on stays there.
-/

namespace TermRules

structure Reader where
  pieces : List PlacedPiece
  endLoc : Loc
  ahead : Option (Option Token)
deriving DecidableEq, Repr

namespace Reader

def ofSource (file : UInt32) (source : Bytes) : Reader where
  pieces := PlacedPiece.place (Loc.start file) (TermRules.pieces source)
  endLoc := (Loc.start file).after source
  ahead := none

def readToken : List PlacedPiece → List Diagnostic × Option Token × List PlacedPiece
  | [] => ([], none, [])
  | p :: ps =>
      match p.token? with
      | some t => (p.diagnostics, some t, ps)
      | none =>
          let (faults, token, rest) := readToken ps
          (p.diagnostics ++ faults, token, rest)

def next (r : Reader) : List Diagnostic × Option Token × Reader :=
  match r.ahead with
  | some token => ([], token, { r with ahead := none })
  | none =>
      let (faults, token, rest) := readToken r.pieces
      (faults, token, { r with pieces := rest })

def peek (r : Reader) : List Diagnostic × Option Token × Reader :=
  match r.ahead with
  | some token => ([], token, r)
  | none =>
      let (faults, token, rest) := readToken r.pieces
      (faults, token, { r with pieces := rest, ahead := some token })

end Reader

end TermRules

import TermRules.Parse.Definition
import TermRules.Token.Scan

/-!
# Reading rule files

A file is read item by item. A token that opens no definition is an item of its
own, and after a syntax error the item ends where its parentheses close. Each
failure remembers how many tokens were left, which puts the syntax errors
between the lexical errors in the order in which they were met.
-/

namespace TermRules

structure SyntaxFailure where
  error : SyntaxError
  remaining : Nat
deriving DecidableEq, Repr

def SyntaxFailure.diagnostic (f : SyntaxFailure) : Diagnostic :=
  Diagnostic.error f.error.loc f.error.fault.message

namespace Parse

def item (c : Cursor) : Except SyntaxFailure Definition × Cursor :=
  if c.kind = .lparen then
    match definition.run c with
    | .ok d c' => (.ok d, c')
    | .error e c' => (.error ⟨e, c'.tokens.length⟩, c'.closeAll)
  else
    (.error ⟨⟨c.loc, .expected "'(' to start a definition" c.kind⟩, c.tokens.length⟩,
      { c.advance with depth := 0 })

def itemsWithin : Nat → Cursor → List (Except SyntaxFailure Definition) × Cursor
  | 0, c => ([], c)
  | fuel + 1, c =>
      if c.kind = .endOfFile then ([], c)
      else
        let (first, c') := item c
        let (rest, c'') := itemsWithin fuel c'
        (first :: rest, c'')

/-- All items up to the end of the file; each takes at least one token. -/
def items (c : Cursor) : List (Except SyntaxFailure Definition) × Cursor :=
  itemsWithin c.tokens.length c

end Parse

def definitionsOf (items : List (Except SyntaxFailure Definition)) : List Definition :=
  items.filterMap Except.toOption

def failuresOf (items : List (Except SyntaxFailure Definition)) : List SyntaxFailure :=
  items.filterMap fun
    | .ok _ => none
    | .error f => some f

def Scan.faultsByRemaining (scan : Scan) : List (Nat × List Diagnostic) :=
  (List.range scan.faults.length).reverse.zip scan.faults

/-- A syntax error comes after the lexical errors met on the way to the token it was found at. -/
def interleave : List (Nat × List Diagnostic) → List SyntaxFailure → List Diagnostic
  | [], failures => failures.map SyntaxFailure.diagnostic
  | (remaining, faults) :: rest, failures =>
      faults ++ (failures.takeWhile (·.remaining = remaining)).map SyntaxFailure.diagnostic ++
        interleave rest (failures.dropWhile (·.remaining = remaining))

structure ParsedFile where
  definitions : List Definition
  failures : List SyntaxFailure
  diagnostics : List Diagnostic
deriving Repr

def parseFile (file : UInt32) (source : Bytes) : ParsedFile :=
  let scan := Scan.ofSource file source
  let items := (Parse.items (.ofTokens scan.tokens scan.endLoc)).1
  let failures := failuresOf items
  { definitions := definitionsOf items
    failures
    diagnostics := interleave scan.faultsByRemaining failures }

structure ParseSession where
  scan : Scan
  cursor : Cursor
  failures : List SyntaxFailure

namespace ParseSession

def ofSource (file : UInt32) (source : Bytes) : ParseSession :=
  let scan := Scan.ofSource file source
  ⟨scan, .ofTokens scan.tokens scan.endLoc, []⟩

def diagnostics (s : ParseSession) : List Diagnostic :=
  interleave (s.scan.faultsByRemaining.filter (s.cursor.tokens.length ≤ ·.1)) s.failures

def run (s : ParseSession) (parse : Parse α) : Option α × ParseSession :=
  match parse.run s.cursor with
  | .ok a c => (some a, { s with cursor := c })
  | .error e c =>
      (none, { s with cursor := c, failures := s.failures ++ [⟨e, c.tokens.length⟩] })

def runItems (s : ParseSession) : List Definition × ParseSession :=
  let (items, c) := Parse.items s.cursor
  (definitionsOf items, { s with cursor := c, failures := s.failures ++ failuresOf items })

end ParseSession

end TermRules

import TermRules.Location

/-!
# Diagnostics

A diagnostic is a message of some severity about a place. Its rendering leaves
out every part of the place that is unknown. A log keeps diagnostics in report
order together with its counts of errors and warnings.
-/

namespace TermRules

inductive Severity
  | note
  | warning
  | error
deriving DecidableEq, Repr

def Severity.name : Severity → Bytes
  | .note => ascii "note"
  | .warning => ascii "warning"
  | .error => ascii "error"

structure Diagnostic where
  severity : Severity
  message : Bytes
  loc : Loc
deriving DecidableEq, Repr

namespace Diagnostic

def error (loc : Loc) (message : Bytes) : Diagnostic := ⟨.error, message, loc⟩

def renderPlace (path : Bytes) (loc : Loc) : Bytes :=
  if path.isEmpty then []
  else
    let line :=
      if loc.line = 0 then []
      else
        let column := if loc.column = 0 then [] else ascii ":" ++ decimal loc.column.toNat
        ascii ":" ++ decimal loc.line.toNat ++ column
    path ++ line ++ ascii ": "

/-- One line for the diagnostic; `pathOf` gives the empty path for unknown files. -/
def render (pathOf : UInt32 → Bytes) (d : Diagnostic) : Bytes :=
  renderPlace (pathOf d.loc.file) d.loc ++ d.severity.name ++ ascii ": " ++ d.message ++
    [Byte.newline]

def renderAll (pathOf : UInt32 → Bytes) (ds : List Diagnostic) : Bytes :=
  ds.flatMap (render pathOf)

end Diagnostic

structure Log where
  entries : List Diagnostic
  errorCount : Nat
  warningCount : Nat
deriving Repr

namespace Log

def empty : Log := ⟨[], 0, 0⟩

def report (log : Log) (d : Diagnostic) : Log where
  entries := log.entries ++ [d]
  errorCount := log.errorCount + if d.severity = .error then 1 else 0
  warningCount := log.warningCount + if d.severity = .warning then 1 else 0

def reportAll (log : Log) (ds : List Diagnostic) : Log := ds.foldl report log

def take (log : Log) : List Diagnostic × Log := (log.entries, empty)

end Log

end TermRules

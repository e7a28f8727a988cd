import TermRules.Compilation

/-!
# The command line

Every argument behind the program's name is a rule file; there are no flags. A
run calls the compiler once, or not at all when no file is given, and writes
either the generated code or the reason why there is none.
-/

namespace TermRules

structure Arguments where
  entries : List Bytes
deriving DecidableEq, Repr

namespace Arguments

/-- Reads an argument vector. A missing vector has no entries and a missing entry is empty. -/
def ofVector (count : Int) (vector : Option (List (Option Bytes))) : Arguments :=
  ⟨((vector.getD []).take count.toNat).map (·.getD [])⟩

def size (a : Arguments) : Nat := a.entries.length

def isEmpty (a : Arguments) : Bool := a.entries.isEmpty

def get (a : Arguments) (i : Nat) : Bytes := a.entries[i]?.getD []

def program (a : Arguments) : Bytes := a.get 0

def operands (a : Arguments) : Arguments := ⟨a.entries.tail⟩

def usage (a : Arguments) : Bytes :=
  ascii "Usage: " ++ a.program ++ ascii " <input.isle> [<input2.isle> ...]"

def files (a : Arguments) : Except Diagnostic (List Bytes) :=
  if a.operands.isEmpty then .error (Diagnostic.error .unknown a.usage)
  else .ok a.operands.entries

end Arguments

structure Outcome where
  status : Nat
  out : Bytes
  err : Bytes
deriving DecidableEq, Repr

namespace CommandLine

def options : Options := .standard

def failureHeader : Bytes := ascii "ISLE compilation failed:"

def outcomeOf : CompileResult → Outcome
  | .ok code => ⟨0, code ++ [Byte.newline], []⟩
  | .error errors => ⟨1, [], failureHeader ++ Byte.newline :: errors.text⟩

def run [Monad m] (compile : List Bytes → Options → m CompileResult) (a : Arguments) :
    m Outcome :=
  match a.files with
  | .error d => return ⟨1, [], d.message ++ [Byte.newline]⟩
  | .ok files => do
      let result ← compile files options
      return outcomeOf result

def compileFiles (fs : FileSystem) (paths : List Bytes) (options : Options) :
    StateM (List TraceEvent) CompileResult := do
  let c := Compilation.ofFiles fs options paths
  modify (· ++ c.trace)
  return c.result

/-- A run of the program; trace lines come before everything else on the error stream. -/
def program (fs : FileSystem) (tracing : Bool) (a : Arguments) : Outcome :=
  let (outcome, trace) := (run (compileFiles fs) a).run []
  if tracing then { outcome with err := trace.flatMap TraceEvent.line ++ outcome.err } else outcome

end CommandLine

end TermRules

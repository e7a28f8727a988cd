import TermRules.CommandLine

/-!
# The program

Reads the files named on the command line, runs the compiler on them, and writes
what the run leaves behind. Setting `ISLE_TRACE` turns tracing on.
-/

namespace TermRules.Main

/-- A file is opened before it is read, and its size is what was read. -/
def readFile (path : String) : IO (Option OpenFile) := do
  let handle ← try pure (some (← IO.FS.Handle.mk path .read)) catch _ => pure none
  match handle with
  | none => return none
  | some handle =>
      try
        let content ← handle.readBinToEnd
        if Source.sizeLimit < content.size then return some (FileData.zeros content.size).opened
        else return some (FileData.bytes content.toList).opened
      catch
        -- A directory can be opened for reading, but it is no regular file.
        | .inappropriateType .. => return none
        -- A file that fails to be read has nothing of what its size tells.
        | _ => return some ⟨1, true, .bytes []⟩

def readFiles (paths : List String) : IO FileSystem := do
  let files ← paths.mapM fun path => return (path.toUTF8.toList, ← readFile path)
  return fun path => (files.lookup path).join

def programName : IO Bytes := do
  try
    let line ← IO.FS.readBinFile "/proc/self/cmdline"
    return line.toList.takeWhile (· != 0)
  catch _ => return ascii "islec"

def write (stream : IO.FS.Stream) (text : Bytes) : IO Unit := do
  stream.write text.toByteArray
  stream.flush

end TermRules.Main

open TermRules in
def main (args : List String) : IO UInt32 := do
  let tracing := (← IO.getEnv "ISLE_TRACE").isSome
  let fs ← Main.readFiles args
  let entries := (← Main.programName) :: args.map fun arg => arg.toUTF8.toList
  let outcome := CommandLine.program fs tracing ⟨entries⟩
  Main.write (← IO.getStdout) outcome.out
  Main.write (← IO.getStderr) outcome.err
  return outcome.status.toUInt32

import TermRules.Diagnostic
import TermRules.File.Registry
import TermRules.File.Tree

/-!
# Loading rule files

A file is registered before it is opened, so a file that cannot be loaded still
has a number to report the error at. The size is checked before memory is taken
for the content, and then as much is read as the size tells, or nothing.
-/

namespace TermRules

structure Source where
  file : UInt32
  path : Bytes
  text : Bytes
deriving Repr

inductive LoadFault
  | numbersExhausted
  | cannotOpen (path : Bytes)
  | tooLarge (path : Bytes)
  | outOfMemory (path : Bytes)
  | cannotRead (path : Bytes)
deriving DecidableEq, Repr

def LoadFault.message : LoadFault → Bytes
  | .numbersExhausted => ascii "source manager exhausted file identifier space"
  | .cannotOpen path => ascii "unable to open " ++ path
  | .tooLarge path => ascii "rule file too large: " ++ path ++ ascii " (limit: 64 MB)"
  | .outOfMemory path => ascii "out of memory reading " ++ path
  | .cannotRead path => ascii "unable to read " ++ path

def LoadFault.diagnostic (file : UInt32) (f : LoadFault) : Diagnostic :=
  Diagnostic.error (.ofFile file) f.message

namespace Source

def sizeLimit : Nat := 64 * 1024 * 1024

def read (fs : FileSystem) (path : Bytes) : Except LoadFault Bytes :=
  match fs path with
  | none => .error (.cannotOpen path)
  | some file =>
      if sizeLimit < file.size then .error (.tooLarge path)
      else if !file.hasRoom then .error (.outOfMemory path)
      else if file.data.size < file.size then .error (.cannotRead path)
      else .ok (file.data.take file.size).content

def load (fs : FileSystem) (registry : Registry) (path : Bytes) :
    Except Diagnostic Source × Registry :=
  let (file, registry') := registry.register path
  if file = 0 then (.error (LoadFault.numbersExhausted.diagnostic 0), registry')
  else
    match read fs path with
    | .error fault => (.error (fault.diagnostic file), registry')
    | .ok text => (.ok ⟨file, path, text⟩, registry')

def loadAll (fs : FileSystem) :
    Registry → List Bytes → List (Except Diagnostic Source) × Registry
  | registry, [] => ([], registry)
  | registry, path :: paths =>
      let (first, registry') := load fs registry path
      let (rest, final) := loadAll fs registry' paths
      (first :: rest, final)

end Source

end TermRules

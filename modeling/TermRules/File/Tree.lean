import TermRules.File.Path

/-!
# File trees

A file system answers a path with the regular file that it leads to, if there is
one that can be opened. The file need not be read as far as its size tells. A tree
is a file system in memory below one working directory, where files are read in
full. A path is followed part by part, every part on the way must be a directory,
and nothing is found outside the tree.
-/

namespace TermRules

/-- The content of a file, in short form if it is all zeros. -/
inductive FileData
  | bytes (content : Bytes)
  | zeros (size : Nat)
deriving Repr

namespace FileData

def size : FileData → Nat
  | .bytes content => content.length
  | .zeros size => size

def content : FileData → Bytes
  | .bytes content => content
  | .zeros size => List.replicate size 0

def take (n : Nat) : FileData → FileData
  | .bytes content => .bytes (content.take n)
  | .zeros size => .zeros (min n size)

end FileData

/-- An open file: its size as told before it is read, whether there is memory for that much, and
what is read from it until it ends or reading fails. -/
structure OpenFile where
  size : Nat
  hasRoom : Bool
  data : FileData
deriving Repr

def FileData.opened (data : FileData) : OpenFile := ⟨data.size, true, data⟩

abbrev FileSystem := Bytes → Option OpenFile

inductive FileNode
  | directory
  | file (data : FileData)
deriving Repr

structure FileTree where
  nodes : List (List Bytes × FileNode)

namespace FileTree

def names (path : Bytes) : List Bytes :=
  (Path.split path).filter fun part => part != [] && part != Path.here

/-- Later entries replace earlier ones under the same path. -/
def ofEntries (entries : List (Bytes × FileNode)) : FileTree :=
  ⟨(entries.map fun (path, node) => (names path, node)).reverse⟩

/-- The directories above an entry exist with it. -/
def node? (t : FileTree) (place : List Bytes) : Option FileNode :=
  match t.nodes.lookup place with
  | some node => some node
  | none =>
      if place = [] ∨ t.nodes.any (fun (p, _) => place.isPrefixOf p) then some .directory else none

def isDirectory (t : FileTree) (place : List Bytes) : Bool :=
  match t.node? place with
  | some .directory => true
  | _ => false

def follow (t : FileTree) : List Bytes → List Bytes → Option (List Bytes)
  | place, [] => some place
  | place, part :: parts =>
      if !t.isDirectory place then none
      else if part = [] ∨ part = Path.here then t.follow place parts
      else if part = Path.parent then
        if place = [] then none else t.follow place.dropLast parts
      else t.follow (place ++ [part]) parts

def pathLimit : Nat := 4096

def open? (t : FileTree) : FileSystem := fun path =>
  let path := path.takeWhile (· != 0)
  if path = [] ∨ Path.isAbsolute path ∨ pathLimit ≤ path.length then none
  else
    match (t.follow [] (Path.split path)).bind t.node? with
    | some (.file data) => some data.opened
    | _ => none

end FileTree

end TermRules

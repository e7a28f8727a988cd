import TermRules.File.Path

/-!
# File numbers

A registry numbers files by their normal paths. A file that is known keeps its
number, a new one takes the next number, and no number is handed out beyond the
32-bit range. Paths are looked up by position, the first at number one.
-/

namespace TermRules

structure Registry where
  entries : Array (Bytes × UInt32)
  nextId : Nat
deriving Repr

namespace Registry

def empty : Registry := ⟨#[], 1⟩

def count (r : Registry) : Nat := r.entries.size

def idOf? (r : Registry) (path : Bytes) : Option UInt32 :=
  (r.entries.find? (·.1 == path)).map Prod.snd

/-- The number of a file, which is zero when no number is left. -/
def register (r : Registry) (path : Bytes) : UInt32 × Registry :=
  let key := Path.normal path
  match r.idOf? key with
  | some id => (id, r)
  | none =>
      if r.nextId < UInt32.size then
        let id := r.nextId.toUInt32
        (id, ⟨r.entries.push (key, id), r.nextId + 1⟩)
      else (0, r)

def pathOf (r : Registry) (id : UInt32) : Bytes :=
  if id = 0 then [] else ((r.entries[id.toNat - 1]?).map Prod.fst).getD []

end Registry

end TermRules

import TermRules.Bytes

/-!
# Tables of named entries

An entry is known by its name and numbered by its position. A taken name refuses
a second entry, so positions never change their meaning.
-/

namespace TermRules

class Named (α : Type) where
  name : α → Bytes

structure Table (α : Type) where
  entries : Array α

namespace Table

variable {α : Type} [Named α]

def empty : Table α := ⟨#[]⟩

def size (t : Table α) : Nat := t.entries.size

def get? (t : Table α) (id : Nat) : Option α := t.entries[id]?

def find? (t : Table α) (name : Bytes) : Option Nat :=
  t.entries.findIdx? (Named.name · == name)

def insert? (t : Table α) (a : α) : Option (Table α) :=
  if (t.find? (Named.name a)).isSome then none else some ⟨t.entries.push a⟩

def modify (t : Table α) (id : Nat) (f : α → α) : Table α := ⟨t.entries.modify id f⟩

end Table

end TermRules

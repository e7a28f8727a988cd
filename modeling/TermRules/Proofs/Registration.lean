import Mathlib.Data.List.Induction
import Mathlib.Tactic.Common
import TermRules.File.Registry
import TermRules.Proofs.PathNames

/-!
# Registration of files

A path has a number already, gets the next one, or finds none left. Later
registrations do not change what a path comes to, and from an empty registry the
numbers are those from one to the count, each of which leads to its normal path.
-/

namespace TermRules

namespace Registry

def insert (r : Registry) (key : Bytes) : Registry :=
  ⟨r.entries.push (key, r.nextId.toUInt32), r.nextId + 1⟩

theorem idOf?_insert (r : Registry) (key other : Bytes) :
    (r.insert key).idOf? other =
      (r.idOf? other).or (if key = other then some r.nextId.toUInt32 else none) := by
  rw [idOf?, insert, idOf?, ← Array.find?_toList, ← Array.find?_toList, Array.toList_push,
    List.find?_append]
  cases r.entries.toList.find? (·.1 == other) with
  | some e => rfl
  | none =>
    by_cases h : key = other
    · simp [h]
    · simp [h]

/-- A path has a number already, gets the next one, or none is left for it. -/
theorem register_cases (r : Registry) (path : Bytes) :
    (∃ id, r.idOf? (Path.normal path) = some id ∧ r.register path = (id, r)) ∨
      r.idOf? (Path.normal path) = none ∧
        (r.nextId < UInt32.size ∧
            r.register path = (r.nextId.toUInt32, r.insert (Path.normal path)) ∨
          UInt32.size ≤ r.nextId ∧ r.register path = (0, r)) := by
  rw [register]
  cases r.idOf? (Path.normal path) with
  | some id => exact .inl ⟨id, rfl, rfl⟩
  | none =>
    refine .inr ⟨rfl, ?_⟩
    by_cases hnext : r.nextId < UInt32.size
    · exact .inl ⟨hnext, if_pos hnext⟩
    · exact .inr ⟨Nat.le_of_not_lt hnext, if_neg hnext⟩

theorem fst_register (r : Registry) (path : Bytes) :
    (r.register path).1 = ((r.register path).2.idOf? (Path.normal path)).getD 0 := by
  rcases register_cases r path with ⟨id, hid, h⟩ | ⟨hnone, ⟨-, h⟩ | ⟨-, h⟩⟩
  · rw [h, hid]
    rfl
  · rw [h, idOf?_insert, hnone, if_pos rfl]
    rfl
  · rw [h, hnone]
    rfl

def registerAll (r : Registry) (paths : List Bytes) : Registry :=
  paths.foldl (fun r path => (r.register path).2) r

theorem registerAll_append (r : Registry) (paths more : List Bytes) :
    r.registerAll (paths ++ more) = (r.registerAll paths).registerAll more := List.foldl_append

/-- Whatever is registered later, the number of the path is known or there will be none. -/
def Settled (r : Registry) (key : Bytes) : Prop :=
  (r.idOf? key).isSome ∨ UInt32.size ≤ r.nextId

theorem settled_register (r : Registry) (path : Bytes) :
    (r.register path).2.Settled (Path.normal path) := by
  rcases register_cases r path with ⟨id, hid, h⟩ | ⟨hnone, ⟨-, h⟩ | ⟨hnext, h⟩⟩
  · rw [h, Settled, hid]
    exact .inl rfl
  · rw [h, Settled, idOf?_insert, hnone, if_pos rfl]
    exact .inl rfl
  · rw [h]
    exact .inr hnext

theorem Settled.register {r : Registry} {key : Bytes} (h : r.Settled key) (path : Bytes) :
    (r.register path).2.Settled key ∧ (r.register path).2.idOf? key = r.idOf? key := by
  rcases register_cases r path with ⟨id, -, heq⟩ | ⟨-, ⟨hlt, heq⟩ | ⟨-, heq⟩⟩
  · rw [heq]
    exact ⟨h, rfl⟩
  · rw [heq]
    rcases h with h | h
    · obtain ⟨id, hid⟩ := Option.isSome_iff_exists.mp h
      have hkept : (r.insert (Path.normal path)).idOf? key = some id := by
        rw [idOf?_insert, hid, Option.some_or]
      exact ⟨.inl (by rw [hkept]; rfl), hkept.trans hid.symm⟩
    · omega
  · rw [heq]
    exact ⟨h, rfl⟩

theorem Settled.registerAll {r : Registry} {key : Bytes} (h : r.Settled key)
    (paths : List Bytes) : (r.registerAll paths).idOf? key = r.idOf? key := by
  induction paths generalizing r with
  | nil => rfl
  | cons path paths ih =>
    obtain ⟨hsettled, hid⟩ := h.register path
    exact (ih hsettled).trans hid

/-- Entries are numbered by their positions, no number is left out, and every entry is found under
its path, which is normal. -/
structure Numbered (r : Registry) : Prop where
  next : r.nextId = r.count + 1
  count_lt : r.count < UInt32.size
  ids : ∀ (i : Nat) (key : Bytes) (id : UInt32), r.entries[i]? = some (key, id) → id.toNat = i + 1
  found : ∀ (i : Nat) (key : Bytes) (id : UInt32), r.entries[i]? = some (key, id) →
    r.idOf? key = some id
  normal : ∀ (i : Nat) (key : Bytes) (id : UInt32), r.entries[i]? = some (key, id) →
    Path.normal key = key

theorem numbered_empty : empty.Numbered where
  next := rfl
  count_lt := by decide
  ids i key id h := by simp [empty] at h
  found i key id h := by simp [empty] at h
  normal i key id h := by simp [empty] at h

theorem count_insert (r : Registry) (key : Bytes) : (r.insert key).count = r.count + 1 :=
  Array.size_push _

theorem getElem?_insert {r : Registry} {key other : Bytes} {i : Nat} {id : UInt32}
    (h : (r.insert key).entries[i]? = some (other, id)) :
    i = r.count ∧ other = key ∧ id = r.nextId.toUInt32 ∨ r.entries[i]? = some (other, id) := by
  rw [insert, Array.getElem?_push] at h
  split_ifs at h with hi
  · cases h
    exact .inl ⟨hi, rfl, rfl⟩
  · exact .inr h

theorem Numbered.register {r : Registry} (h : r.Numbered) (path : Bytes) :
    (r.register path).2.Numbered := by
  rcases register_cases r path with ⟨id, -, hr⟩ | ⟨hnone, ⟨hlt, hr⟩ | ⟨-, hr⟩⟩
  · rwa [hr]
  · rw [hr]
    constructor
    case next => rw [count_insert, insert, h.next]
    case count_lt => rwa [count_insert, ← h.next]
    case ids =>
      intro i key id hentry
      rcases getElem?_insert hentry with ⟨hi, -, hid⟩ | hold
      · rw [hid, hi, Nat.toUInt32, UInt32.toNat_ofNat_of_lt' hlt, h.next]
      · exact h.ids i key id hold
    case found =>
      intro i key id hentry
      rcases getElem?_insert hentry with ⟨-, hkey, hid⟩ | hold
      · rw [idOf?_insert, hkey, hnone, if_pos rfl, hid, Option.none_or]
      · rw [idOf?_insert, h.found i key id hold, Option.some_or]
    case normal =>
      intro i key id hentry
      rcases getElem?_insert hentry with ⟨-, hkey, -⟩ | hold
      · rw [hkey, Path.normal_normal]
      · exact h.normal i key id hold
  · rwa [hr]

theorem numbered_registerAll (paths : List Bytes) : (empty.registerAll paths).Numbered := by
  induction paths using List.reverseRecOn with
  | nil => exact numbered_empty
  | append_singleton paths path ih =>
    rw [registerAll_append]
    exact ih.register path

theorem exists_entry {r : Registry} {key : Bytes} {id : UInt32} (hid : r.idOf? key = some id) :
    ∃ i : Nat, r.entries[i]? = some (key, id) := by
  obtain ⟨⟨key', id'⟩, hfind, rfl⟩ := Option.map_eq_some_iff.mp hid
  have hkey : key' = key := by simpa using Array.find?_some hfind
  subst hkey
  exact Array.getElem?_of_mem (Array.mem_of_find?_eq_some hfind)

section Numbered

variable {r : Registry} (h : r.Numbered)
include h

theorem Numbered.pathOf_entry {i : Nat} {key : Bytes} {id : UInt32}
    (hi : r.entries[i]? = some (key, id)) : r.pathOf id = key := by
  have hnumber := h.ids i key id hi
  have hne : id ≠ 0 := by
    rintro rfl
    cases hnumber
  rw [Registry.pathOf, if_neg hne, hnumber, Nat.add_sub_cancel, hi]
  rfl

theorem Numbered.id_mem {key : Bytes} {id : UInt32} (hid : r.idOf? key = some id) :
    1 ≤ id.toNat ∧ id.toNat ≤ r.count := by
  obtain ⟨i, hi⟩ := exists_entry hid
  obtain ⟨hlt, -⟩ := Array.getElem?_eq_some_iff.mp hi
  have hnumber := h.ids i key id hi
  rw [count]
  omega

theorem Numbered.ne_zero {key : Bytes} {id : UInt32} (hid : r.idOf? key = some id) : id ≠ 0 := by
  rintro rfl
  exact absurd (h.id_mem hid).1 (by decide)

theorem Numbered.pathOf {key : Bytes} {id : UInt32} (hid : r.idOf? key = some id) :
    r.pathOf id = key := by
  obtain ⟨i, hi⟩ := exists_entry hid
  exact h.pathOf_entry hi

end Numbered

end Registry

end TermRules

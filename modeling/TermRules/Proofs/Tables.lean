import Mathlib.Tactic.Common
import TermRules.Env.Table

/-!
# Laws of tables

What a table holds after an entry is inserted or modified. An insertion leaves
every older entry in its place, and a change that keeps the names of entries
finds the same positions.
-/

namespace TermRules.Table

variable {α : Type} [Named α]

theorem find?_eq_none_of_insert? {a : α} {t u : Table α} (h : t.insert? a = some u) :
    t.find? (Named.name a) = none := by
  cases hf : t.find? (Named.name a) with
  | none => rfl
  | some id => simp [insert?, hf] at h

theorem exists_insert? {t : Table α} {a : α} (h : t.find? (Named.name a) = none) :
    ∃ u, t.insert? a = some u :=
  ⟨_, by rw [insert?, h]; rfl⟩

theorem entries_of_insert? {t t' : Table α} {a : α} (h : t.insert? a = some t') :
    t'.entries = t.entries.push a := by
  simp only [insert?] at h
  split at h
  · simp at h
  · rw [← Option.some.inj h]

theorem size_of_insert? {t t' : Table α} {a : α} (h : t.insert? a = some t') :
    t'.size = t.size + 1 := by
  rw [size, entries_of_insert? h, Array.size_push]
  rfl

theorem find?_of_insert? {t t' : Table α} {a : α} (h : t.insert? a = some t') (name : Bytes) :
    t'.find? name = if Named.name a = name then some t.size else t.find? name := by
  rw [find?, entries_of_insert? h, Array.findIdx?_push]
  by_cases hname : (Named.name a : Bytes) = name
  · subst hname
    have hfree := find?_eq_none_of_insert? h
    rw [find?] at hfree
    simp [hfree, size]
  · simp [hname, find?]

theorem get?_of_insert? {t t' : Table α} {a : α} (h : t.insert? a = some t') (id : Nat) :
    t'.get? id = if id = t.size then some a else t.get? id := by
  simp only [get?, entries_of_insert? h, Array.getElem?_push, size]
  rfl

omit [Named α] in
theorem lt_size_of_get? {t : Table α} {i : Nat} {a : α} (h : t.get? i = some a) : i < t.size :=
  (Array.getElem?_eq_some_iff.mp h).1

theorem get?_insert?_of_some {t t' : Table α} {a b : α} (h : t.insert? a = some t') {id : Nat}
    (hb : t.get? id = some b) : t'.get? id = some b := by
  have hlt := lt_size_of_get? hb
  rw [get?_of_insert? h, if_neg (by omega), hb]

theorem find?_insert?_of_some {t t' : Table α} {a : α} (h : t.insert? a = some t') {name : Bytes}
    {id : Nat} (hid : t.find? name = some id) : t'.find? name = some id := by
  rw [find?_of_insert? h, if_neg, hid]
  intro hname
  rw [← hname, find?_eq_none_of_insert? h] at hid
  cases hid

theorem get?_of_find? {t : Table α} {name : Bytes} {id : Nat} (h : t.find? name = some id) :
    ∃ a, t.get? id = some a ∧ Named.name a = name := by
  obtain ⟨hlt, hn, -⟩ := Array.findIdx?_eq_some_iff_getElem.mp h
  exact ⟨t.entries[id], Array.getElem?_eq_getElem hlt, by simpa using hn⟩

theorem find?_lt_size {t : Table α} {name : Bytes} {i : Nat} (h : t.find? name = some i) :
    i < t.size := by
  obtain ⟨a, ha, -⟩ := get?_of_find? h
  exact lt_size_of_get? ha

theorem find?_inj {t : Table α} {name name' : Bytes} {id : Nat}
    (h : t.find? name = some id) (h' : t.find? name' = some id) : name = name' := by
  obtain ⟨a, ha, rfl⟩ := get?_of_find? h
  obtain ⟨a', ha', rfl⟩ := get?_of_find? h'
  rw [ha, Option.some.injEq] at ha'
  rw [ha']

omit [Named α] in
theorem get?_modify (t : Table α) (id j : Nat) (f : α → α) :
    (t.modify id f).get? j = if id = j then (t.get? j).map f else t.get? j := by
  simp only [get?, modify, Array.getElem?_modify]

omit [Named α] in
theorem size_modify (t : Table α) (id : Nat) (f : α → α) : (t.modify id f).size = t.size :=
  Array.size_modify

theorem find?_eq_findIdx?_names (t : Table α) (name : Bytes) :
    t.find? name = (t.entries.map Named.name).findIdx? (· == name) := by
  rw [find?, Array.findIdx?_map]
  rfl

theorem find?_modify (t : Table α) (id : Nat) {f : α → α}
    (hf : ∀ a, (Named.name (f a) : Bytes) = Named.name a) (name : Bytes) :
    (t.modify id f).find? name = t.find? name := by
  have hnames : (t.modify id f).entries.map (Named.name : α → Bytes) =
      t.entries.map Named.name := by
    apply Array.ext_getElem?
    intro j
    simp only [modify, Array.getElem?_map, Array.getElem?_modify]
    split_ifs
    · cases t.entries[j]? with
      | none => rfl
      | some a => simp [hf]
    · rfl
  rw [find?_eq_findIdx?_names, find?_eq_findIdx?_names, hnames]

def Keyed (t : Table α) : Prop :=
  ∀ (name : Bytes) (id : Nat), t.find? name = some id ↔ ∃ a, t.get? id = some a ∧
    Named.name a = name

theorem keyed_of_find? {t : Table α}
    (h : ∀ {id a}, t.get? id = some a → t.find? (Named.name a) = some id) : t.Keyed := by
  refine fun name id => ⟨get?_of_find?, ?_⟩
  rintro ⟨a, ha, rfl⟩
  exact h ha

theorem keyed_empty : (empty : Table α).Keyed :=
  keyed_of_find? fun h => by simp [empty, get?] at h

theorem Keyed.find? {t : Table α} (h : t.Keyed) {id : Nat} {a : α} (ha : t.get? id = some a) :
    t.find? (Named.name a) = some id :=
  (h _ id).mpr ⟨a, ha, rfl⟩

theorem Keyed.insert {t t' : Table α} (h : t.Keyed) {a : α} (hinsert : t.insert? a = some t') :
    t'.Keyed := by
  refine keyed_of_find? fun {id b} hb => ?_
  rw [get?_of_insert? hinsert] at hb
  split_ifs at hb with hid
  · cases hb
    rw [find?_of_insert? hinsert, if_pos rfl, hid]
  · exact find?_insert?_of_some hinsert (h.find? hb)

theorem Keyed.modify {t : Table α} (h : t.Keyed) (id : Nat) {f : α → α}
    (hf : ∀ a, (Named.name (f a) : Bytes) = Named.name a) : (t.modify id f).Keyed := by
  refine keyed_of_find? fun {j b} hb => ?_
  rw [find?_modify t id hf]
  rw [get?_modify] at hb
  split_ifs at hb
  · obtain ⟨a, ha, rfl⟩ := Option.map_eq_some_iff.mp hb
    rw [hf]
    exact h.find? ha
  · exact h.find? hb

omit [Named α] in
theorem ext_get? {t t' : Table α} (h : ∀ i, t.get? i = t'.get? i) : t = t' :=
  congrArg Table.mk (Array.ext_getElem? h)

omit [Named α] in
theorem modify_congr {t : Table α} {id : Nat} {a : α} (ha : t.get? id = some a) {f g : α → α}
    (hfg : f a = g a) : t.modify id f = t.modify id g := by
  refine ext_get? fun i => ?_
  rw [get?_modify, get?_modify]
  split_ifs with hi
  · rw [← hi, ha, Option.map_some, Option.map_some, hfg]
  · rfl

omit [Named α] in
theorem modify_eq_self {t : Table α} {id : Nat} {a : α} (ha : t.get? id = some a) {f : α → α}
    (hf : f a = a) : t.modify id f = t := by
  refine ext_get? fun i => ?_
  rw [get?_modify]
  split_ifs with hi
  · rw [← hi, ha, Option.map_some, hf]
  · rfl

omit [Named α] in
theorem modify_modify (t : Table α) (id : Nat) (f g : α → α) :
    (t.modify id f).modify id g = t.modify id (g ∘ f) := by
  refine ext_get? fun i => ?_
  rw [get?_modify, get?_modify, get?_modify]
  split_ifs
  · rw [Option.map_map]
  · rfl

omit [Named α] in
theorem modify_comm (t : Table α) {i j : Nat} (h : i ≠ j) (f g : α → α) :
    (t.modify i f).modify j g = (t.modify j g).modify i f := by
  refine ext_get? fun k => ?_
  rw [get?_modify, get?_modify, get?_modify, get?_modify]
  split_ifs with hj hi
  · exact absurd (hi.trans hj.symm) h
  · rfl
  · rfl
  · rfl

end TermRules.Table

import Mathlib.Data.List.Nodup
import TermRules.Proofs.ScannedText
import TermRules.Zig.Text

/-!
# Names in generated code

Parameters, locals and labels are named by a fixed word and a decimal number,
and the number can be read back. Identifiers are made from names of rule files
byte by byte: two names have the same identifier exactly if they are sanitized
alike, since quoting tells keywords from all other identifiers. Every name is
sanitized to an identifier, but one keyword and the lone underscore are not
quoted.
-/

namespace TermRules

theorem decimal_injective : Function.Injective decimal := by
  intro m n h
  obtain ⟨d, ds, hm, rfl⟩ := Numeral.digits_decimal m
  obtain ⟨e, es, hn, rfl⟩ := Numeral.digits_decimal n
  rw [h, hn] at hm
  rw [Option.some.inj hm]

theorem decimal_ne_nil (n : Nat) : decimal n ≠ [] := by
  obtain ⟨d, ds, hdigits, -⟩ := Numeral.digits_decimal n
  intro hnil
  rw [hnil] at hdigits
  cases hdigits

namespace Zig

theorem tempName_injective : Function.Injective tempName :=
  fun _ _ h => decimal_injective (List.append_cancel_left h)

def IsIdentifierByte (b : UInt8) : Prop := Byte.isAlphanumeric b = true ∨ b = Byte.underscore

theorem isIdentifierByte_identifierByte (b : UInt8) : IsIdentifierByte (identifierByte b) := by
  unfold identifierByte
  split_ifs with h
  · exact .inl h
  · exact .inr rfl

theorem isIdentifierByte_of_isDigit {b : UInt8} (h : Byte.isDigit b = true) :
    IsIdentifierByte b := .inl (by rw [Byte.isAlphanumeric, h]; rfl)

theorem forall_mem_sanitize (name : Bytes) : ∀ b ∈ sanitize name, IsIdentifierByte b := by
  have hclean : ∀ b ∈ name.map identifierByte, IsIdentifierByte b :=
    List.forall_mem_map.mpr fun b _ => isIdentifierByte_identifierByte b
  unfold sanitize
  dsimp only
  split
  · exact List.forall_mem_singleton.mpr (.inr rfl)
  · split_ifs
    · exact List.forall_mem_cons.mpr ⟨.inr rfl, hclean⟩
    · exact hclean

theorem all_isIdentifierByte {text : Bytes}
    (h : text.all (fun b => Byte.isAlphanumeric b || b == Byte.underscore) = true) :
    ∀ b ∈ text, IsIdentifierByte b := by
  intro b hb
  have hbyte := List.all_eq_true.mp h b hb
  rwa [Bool.or_eq_true, beq_iff_eq] at hbyte

theorem isLower_of_mem_keywords {k : Bytes} (hk : k ∈ keywords) :
    ∀ b ∈ k, Byte.isLower b = true := by
  have hall : keywords.all (·.all Byte.isLower) = true := by decide
  exact List.all_eq_true.mp (List.all_eq_true.mp hall k hk)

theorem not_mem_keywords {text : Bytes} {b : UInt8} (hb : b ∈ text)
    (hlower : Byte.isLower b = false) : text ∉ keywords := by
  intro hmem
  rw [isLower_of_mem_keywords hmem b hb] at hlower
  cases hlower

theorem identifier_eq_iff_of_not_mem {name text : Bytes} (hbytes : ∀ b ∈ text, IsIdentifierByte b)
    (htext : text ∉ keywords) : identifier name = text ↔ sanitize name = text := by
  unfold identifier
  dsimp only
  split_ifs with hkeyword
  · rw [List.contains_iff_mem] at hkeyword
    refine iff_of_false ?_ fun h => htext (h ▸ hkeyword)
    rintro rfl
    exact absurd (hbytes Byte.atSign List.mem_cons_self) (by unfold IsIdentifierByte; decide)
  · rfl

theorem identifier_eq_iff {a b : Bytes} :
    identifier a = identifier b ↔ sanitize a = sanitize b := by
  by_cases hb : sanitize b ∈ keywords
  · by_cases ha : sanitize a ∈ keywords
    · have hquoted : ∀ {c}, sanitize c ∈ keywords →
          identifier c = ascii "@\"" ++ sanitize c ++ ascii "\"" := fun hc =>
        if_pos (List.contains_iff_mem.mpr hc)
      rw [hquoted ha, hquoted hb, List.append_left_inj, List.append_right_inj]
    · have hplain : identifier a = sanitize a :=
        (identifier_eq_iff_of_not_mem (forall_mem_sanitize a) ha).mpr rfl
      rw [hplain, eq_comm, identifier_eq_iff_of_not_mem (forall_mem_sanitize a) ha, eq_comm]
  · have hplain : identifier b = sanitize b :=
      (identifier_eq_iff_of_not_mem (forall_mem_sanitize b) hb).mpr rfl
    rw [hplain, identifier_eq_iff_of_not_mem (forall_mem_sanitize b) hb]

section Lists

variable {α : Type} {name : α → Bytes} {l : List α}

theorem nodup_identifiers_iff (h : (l.map name).Nodup) :
    (l.map fun a => identifier (name a)).Nodup ↔
      ∀ a ∈ l, ∀ b ∈ l, sanitize (name a) = sanitize (name b) → name a = name b := by
  rw [← Function.comp_def, ← List.map_map, List.nodup_map_iff_inj_on h]
  simp only [List.forall_mem_map, identifier_eq_iff]

theorem nodup_of_nodup_identifiers (h : (l.map fun a => identifier (name a)).Nodup) :
    (l.map name).Nodup := by
  rw [← Function.comp_def, ← List.map_map] at h
  exact h.of_map

end Lists

/-- Letters, digits and underscores, of which there is one and the first is no digit. -/
structure IsIdentifier (text : Bytes) : Prop where
  bytes : ∀ b ∈ text, IsIdentifierByte b
  head : ∃ b, text.head? = some b ∧ Byte.isDigit b = false

theorem identifierByte_eq_self {b : UInt8} (h : IsIdentifierByte b) : identifierByte b = b := by
  unfold identifierByte
  rcases h with h | rfl
  · exact if_pos h
  · exact ite_self _

theorem isDigit_identifierByte (b : UInt8) :
    Byte.isDigit (identifierByte b) = Byte.isDigit b := by
  by_cases h : IsIdentifierByte b
  · rw [identifierByte_eq_self h]
  · have hdigit : Byte.isDigit b = false :=
      Bool.eq_false_iff.mpr fun hdigit => h (isIdentifierByte_of_isDigit hdigit)
    rw [identifierByte, if_neg fun halpha => h (.inl halpha), hdigit]
    rfl

theorem sanitize_cons (b : UInt8) (name : Bytes) :
    sanitize (b :: name) =
      if Byte.isDigit b then Byte.underscore :: b :: name.map identifierByte
      else identifierByte b :: name.map identifierByte := by
  simp only [sanitize, List.map_cons, isDigit_identifierByte]
  split_ifs with hdigit
  · rw [identifierByte_eq_self (isIdentifierByte_of_isDigit hdigit)]
  · rfl

theorem isIdentifier_sanitize (name : Bytes) : IsIdentifier (sanitize name) := by
  refine ⟨forall_mem_sanitize name, ?_⟩
  cases name with
  | nil => exact ⟨Byte.underscore, rfl, rfl⟩
  | cons b name =>
    rw [sanitize_cons]
    split_ifs with hdigit
    · exact ⟨Byte.underscore, rfl, rfl⟩
    · exact ⟨_, rfl, by rw [isDigit_identifierByte, Bool.eq_false_iff.mpr hdigit]⟩

theorem sanitize_eq_self_iff {name : Bytes} : sanitize name = name ↔ IsIdentifier name := by
  constructor
  · intro h
    rw [← h]
    exact isIdentifier_sanitize name
  · rintro ⟨hbytes, b, hhead, hdigit⟩
    obtain ⟨rest, rfl⟩ := List.head?_eq_some_iff.mp hhead
    obtain ⟨hb, hrest⟩ := List.forall_mem_cons.mp hbytes
    rw [sanitize_cons, hdigit, identifierByte_eq_self hb,
      List.map_congr_left fun c hc => identifierByte_eq_self (hrest c hc), List.map_id']
    rfl

theorem sanitize_eq_iff_of_not_mem {name text : Bytes} (htext : IsIdentifier text)
    (hunderscore : Byte.underscore ∉ text) : sanitize name = text ↔ name = text := by
  constructor
  · intro h
    -- No byte was replaced, since each replaced one has left an underscore.
    have hsame : ∀ b, identifierByte b ∈ text → identifierByte b = b := by
      intro b hb
      refine identifierByte_eq_self (.inl ?_)
      by_contra halpha
      rw [identifierByte, if_neg halpha] at hb
      exact hunderscore hb
    cases name with
    | nil => exact absurd (h ▸ List.mem_cons_self) hunderscore
    | cons b name =>
      rw [sanitize_cons] at h
      split_ifs at h
      · exact absurd (h ▸ List.mem_cons_self) hunderscore
      · rw [← List.map_cons] at h
        rw [← h]
        refine ((List.map_congr_left fun c hc => hsame c ?_).trans (List.map_id' _)).symm
        rw [← h]
        exact List.mem_map_of_mem hc
  · rintro rfl
    exact sanitize_eq_self_iff.mpr htext

theorem sanitize_eq_underscore_iff {name : Bytes} :
    sanitize name = [Byte.underscore] ↔
      name = [] ∨ ∃ b, name = [b] ∧ Byte.isAlphanumeric b = false := by
  cases name with
  | nil => exact iff_of_true rfl (.inl rfl)
  | cons b name =>
    have hbyte : identifierByte b = Byte.underscore ↔ Byte.isAlphanumeric b = false := by
      unfold identifierByte
      split_ifs with halpha
      · refine iff_of_false ?_ (by simp [halpha])
        rintro rfl
        exact absurd halpha (by decide)
      · simpa using halpha
    have hdigit (h : Byte.isDigit b = true) : Byte.isAlphanumeric b = true := by
      rw [Byte.isAlphanumeric, h]
      rfl
    rw [sanitize_cons]
    split_ifs with h
    · simp [hdigit h]
    · simp [hbyte, and_comm]

def reservedWords : List Bytes :=
  ["addrspace", "align", "allowzero", "and", "anyframe", "anytype", "asm", "async", "await",
   "break", "callconv", "catch", "comptime", "const", "continue", "defer", "else", "enum",
   "errdefer", "error", "export", "extern", "fn", "for", "if", "inline", "linksection",
   "noalias", "noinline", "nosuspend", "opaque", "or", "orelse", "packed", "pub", "resume",
   "return", "struct", "suspend", "switch", "test", "threadlocal", "try", "union",
   "unreachable", "usingnamespace", "var", "volatile", "while"].map ascii

/-- An identifier that is not reserved, nor the lone underscore that discards a value, or else any
identifier in quotes. -/
def IsName (text : Bytes) : Prop :=
  (IsIdentifier text ∧ text ∉ reservedWords ∧ text ≠ [Byte.underscore]) ∨
    ∃ word, IsIdentifier word ∧ text = ascii "@\"" ++ word ++ ascii "\""

theorem mem_keywords_of_reserved {word : Bytes} (h : word ∈ reservedWords) :
    word ∈ keywords ∨ word = ascii "volatile" := by
  have hall : ∀ word ∈ reservedWords, word ∈ keywords ∨ word = ascii "volatile" := by
    decide +kernel
  exact hall word h

theorem isName_identifier_iff (name : Bytes) :
    IsName (identifier name) ↔
      sanitize name ≠ ascii "volatile" ∧ sanitize name ≠ [Byte.underscore] := by
  by_cases hkeyword : sanitize name ∈ keywords
  · have hquoted : identifier name = ascii "@\"" ++ sanitize name ++ ascii "\"" :=
      if_pos (List.contains_iff_mem.mpr hkeyword)
    refine iff_of_true (.inr ⟨_, isIdentifier_sanitize name, hquoted⟩) ⟨?_, ?_⟩
    · exact fun h => absurd (h ▸ hkeyword) (by decide)
    · exact fun h => absurd (h ▸ hkeyword) (by decide)
  · have hplain : identifier name = sanitize name :=
      (identifier_eq_iff_of_not_mem (forall_mem_sanitize name) hkeyword).mpr rfl
    rw [hplain]
    constructor
    · rintro (⟨-, hreserved, hunderscore⟩ | ⟨word, -, hquoted⟩)
      · exact ⟨fun h => hreserved (h ▸ by decide), hunderscore⟩
      · have hat : Byte.atSign ∈ sanitize name := hquoted ▸ List.mem_cons_self
        exact absurd (forall_mem_sanitize name _ hat) (by unfold IsIdentifierByte; decide)
    · rintro ⟨hvolatile, hunderscore⟩
      refine .inl ⟨isIdentifier_sanitize name, fun hreserved => ?_, hunderscore⟩
      exact (mem_keywords_of_reserved hreserved).elim hkeyword hvolatile

/-- Every name is sanitized to an identifier, and identifiers stay as they are. The spelling of a
name is the identifier or its quoted form, and it is legal but for the name that is one reserved
word and the names that leave nothing but an underscore. -/
theorem spelling_legal_iff (name : Bytes) :
    IsIdentifier (sanitize name) ∧ sanitize (sanitize name) = sanitize name ∧
      (sanitize name = name ↔ IsIdentifier name) ∧
      (identifier name = sanitize name ∨
        identifier name = ascii "@\"" ++ sanitize name ++ ascii "\"") ∧
      (IsName (identifier name) ↔
        name ≠ ascii "volatile" ∧ name ≠ [] ∧ ∀ b, name = [b] → Byte.isAlphanumeric b = true) := by
  have hvolatile : IsIdentifier (ascii "volatile") :=
    ⟨all_isIdentifierByte rfl, _, rfl, rfl⟩
  refine ⟨isIdentifier_sanitize name, sanitize_eq_self_iff.mpr (isIdentifier_sanitize name),
    sanitize_eq_self_iff, ?_, ?_⟩
  · unfold identifier
    dsimp only
    split_ifs
    · exact .inr rfl
    · exact .inl rfl
  · rw [isName_identifier_iff, ne_eq, ne_eq, sanitize_eq_iff_of_not_mem hvolatile (by decide),
      sanitize_eq_underscore_iff]
    simp

/-- Of three words that may not stand for a name only the first is quoted. -/
example : [ascii "while", ascii "volatile", ascii "?"].map identifier =
    [ascii "@\"while\"", ascii "volatile", ascii "_"] := by decide

end Zig

end TermRules

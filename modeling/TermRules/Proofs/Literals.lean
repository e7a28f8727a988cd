import Mathlib.Data.List.Forall2
import Mathlib.Tactic.Common
import TermRules.IntLiteral

/-!
# String literals of generated code

Between its quotes a literal has plain characters, which stand for themselves,
and escapes behind backslashes, each of which is longer than what it stands for.
So a text in quotes is a literal of that text exactly if all of its characters
are plain.
-/

namespace TermRules.Zig.Literal

def IsPlain (c : Char) : Prop := 32 ≤ c.toNat ∧ c.toNat ∉ [34, 92, 127, 133, 8232, 8233]

instance : DecidablePred IsPlain := fun _ => inferInstanceAs (Decidable (_ ∧ _))

def IsPlainText (text : Bytes) : Prop :=
  ∃ cs : List Char, (∀ c ∈ cs, IsPlain c) ∧ cs.flatMap String.utf8EncodeChar = text

def IsHex (digits : Bytes) (values : List Nat) : Prop :=
  List.Forall₂ (fun b n => Numeral.digit? 16 b = some n) digits values

/-- What may follow a backslash, and the bytes that the two of them stand for. -/
inductive Escape : Bytes → Bytes → Prop
  | newline : Escape (ascii "n") [Byte.newline]
  | carriageReturn : Escape (ascii "r") [Byte.carriageReturn]
  | tab : Escape (ascii "t") [Byte.tab]
  | apostrophe : Escape (ascii "'") (ascii "'")
  | quote : Escape (ascii "\"") (ascii "\"")
  | backslash : Escape (ascii "\\") (ascii "\\")
  | byte {digits : Bytes} {high low : Nat} (hex : IsHex digits [high, low]) :
      Escape (ascii "x" ++ digits) [UInt8.ofNat (Numeral.ofDigits 16 [high, low])]
  | character {digits : Bytes} {high : Nat} {values : List Nat} {c : Char}
      (hex : IsHex digits (high :: values))
      (value : Numeral.ofDigits 16 (high :: values) = c.toNat) :
      Escape (ascii "u\x7b" ++ digits ++ ascii "\x7d") (String.utf8EncodeChar c)

/-- What stands between the quotes of a literal, and the bytes that it stands for. -/
inductive Denotes : Bytes → Bytes → Prop
  | nil : Denotes [] []
  | plain {c : Char} {body value : Bytes} (plain : IsPlain c) (rest : Denotes body value) :
      Denotes (String.utf8EncodeChar c ++ body) (String.utf8EncodeChar c ++ value)
  | escape {e v body value : Bytes} (escape : Escape e v) (rest : Denotes body value) :
      Denotes (ascii "\\" ++ e ++ body) (v ++ value)

def IsLiteral (text value : Bytes) : Prop :=
  ∃ body, text = ascii "\"" ++ body ++ ascii "\"" ∧ Denotes body value

theorem Escape.length_le {e v : Bytes} (h : Escape e v) : v.length ≤ e.length := by
  cases h with
  | byte hex =>
    rw [List.length_append, hex.length_eq]
    exact Nat.le_add_left 1 2
  | @character digits high values c hex value =>
    have hsize : c.utf8Size ≤ 4 := Char.utf8Size_le_four c
    have hone : 1 ≤ digits.length := by simp [hex.length_eq]
    have hopen : (ascii "u\x7b").length = 2 := rfl
    have hclose : (ascii "\x7d").length = 1 := rfl
    rw [String.length_utf8EncodeChar, List.length_append, List.length_append, hopen, hclose]
    omega
  | _ => decide

theorem IsPlainText.cons {c : Char} {text : Bytes} (hc : IsPlain c) (h : IsPlainText text) :
    IsPlainText (String.utf8EncodeChar c ++ text) := by
  obtain ⟨cs, hplain, rfl⟩ := h
  exact ⟨c :: cs, List.forall_mem_cons.mpr ⟨hc, hplain⟩, List.flatMap_cons⟩

theorem Denotes.length_le {body value : Bytes} (h : Denotes body value) :
    value.length ≤ body.length ∧ (value.length = body.length → IsPlainText body) := by
  induction h with
  | nil => exact ⟨Nat.le_refl _, fun _ => ⟨[], by simp, rfl⟩⟩
  | plain hc _ ih =>
    rw [List.length_append, List.length_append]
    exact ⟨Nat.add_le_add_left ih.1 _, fun h => .cons hc (ih.2 (Nat.add_left_cancel h))⟩
  | @escape e v body value he _ ih =>
    -- The backslash is the byte by which the body is longer.
    have hescape := he.length_le
    have hbackslash : (ascii "\\").length = 1 := rfl
    rw [List.length_append, List.length_append, List.length_append, hbackslash]
    exact ⟨by omega, fun h => absurd h (by omega)⟩

theorem denotes_self_iff {text : Bytes} : Denotes text text ↔ IsPlainText text := by
  constructor
  · exact fun h => h.length_le.2 rfl
  · rintro ⟨cs, hplain, rfl⟩
    induction cs with
    | nil => exact .nil
    | cons c cs ih =>
      obtain ⟨hc, hcs⟩ := List.forall_mem_cons.mp hplain
      exact .plain hc (ih hcs)

theorem isLiteral_quoted_iff {text value : Bytes} :
    IsLiteral (ascii "\"" ++ text ++ ascii "\"") value ↔ Denotes text value := by
  constructor
  · rintro ⟨body, hbody, h⟩
    rwa [List.append_cancel_left (List.append_cancel_right hbody)]
  · exact fun h => ⟨text, rfl, h⟩

theorem utf8EncodeChar_of_head {c : Char} {b : UInt8} {rest : Bytes} (hb : b.toNat < 128)
    (h : String.utf8EncodeChar c = b :: rest) : rest = [] ∧ c.toNat = b.toNat := by
  have hvalue : c.val.toNat = c.toNat := rfl
  rw [String.utf8EncodeChar, hvalue] at h
  split_ifs at h with h1 h2 h3
  · obtain ⟨rfl, rfl⟩ := List.cons.inj h
    rw [UInt8.toNat_ofNat']
    exact ⟨rfl, (Nat.mod_eq_of_lt (by omega)).symm⟩
  all_goals
    obtain ⟨rfl, -⟩ := List.cons.inj h
    rw [UInt8.toNat_ofNat'] at hb
    omega

def IsPlainByte (b : UInt8) : Prop := 32 ≤ b.toNat ∧ b.toNat ∉ [34, 92, 127]

instance : DecidablePred IsPlainByte := fun _ => inferInstanceAs (Decidable (_ ∧ _))

theorem isPlain_iff_isPlainByte {c : Char} {b : UInt8} (hb : b.toNat < 128)
    (h : c.toNat = b.toNat) : IsPlain c ↔ IsPlainByte b := by
  rw [IsPlain, IsPlainByte, h]
  simp only [List.mem_cons, List.not_mem_nil, or_false]
  omega

theorem isPlainText_cons_iff {b : UInt8} {text : Bytes} (hb : b.toNat < 128) :
    IsPlainText (b :: text) ↔ IsPlainByte b ∧ IsPlainText text := by
  constructor
  · rintro ⟨cs, hplain, h⟩
    cases cs with
    | nil => cases h
    | cons c cs =>
      obtain ⟨hc, hcs⟩ := List.forall_mem_cons.mp hplain
      obtain ⟨a, as, hencode⟩ := List.exists_cons_of_ne_nil (String.utf8EncodeChar_ne_nil (c := c))
      rw [List.flatMap_cons, hencode, List.cons_append] at h
      obtain ⟨rfl, htext⟩ := List.cons.inj h
      obtain ⟨rfl, hvalue⟩ := utf8EncodeChar_of_head hb hencode
      exact ⟨(isPlain_iff_isPlainByte hb hvalue).mp hc, cs, hcs, htext⟩
  · rintro ⟨hplain, htext⟩
    let c : Char := Char.ofNatAux b.toNat (.inl (by omega))
    have hle : c.val ≤ 127 := by
      rw [UInt32.le_iff_toNat_le]
      exact Nat.le_of_lt_succ hb
    have hbyte : c.val.toUInt8 = b := by
      rw [← UInt8.toNat_inj, UInt32.toNat_toUInt8]
      exact Nat.mod_eq_of_lt b.toNat_lt
    have hcons := htext.cons ((isPlain_iff_isPlainByte (c := c) hb rfl).mpr hplain)
    rwa [String.utf8EncodeChar_eq_singleton (Char.utf8Size_eq_one_iff.mpr hle), hbyte] at hcons

theorem isPlainText_append_iff {front text : Bytes}
    (h : front.all (fun b => b.toNat < 128) = true) :
    IsPlainText (front ++ text) ↔ (front.all fun b => IsPlainByte b) = true ∧ IsPlainText text := by
  induction front with
  | nil => simp
  | cons b front ih =>
    rw [List.all_cons, Bool.and_eq_true, decide_eq_true_eq] at h
    rw [List.cons_append, isPlainText_cons_iff h.1, ih h.2, List.all_cons, Bool.and_eq_true,
      decide_eq_true_eq, and_assoc]

theorem isPlainText_iff_of_all {text : Bytes} (h : text.all (fun b => b.toNat < 128) = true) :
    IsPlainText text ↔ (text.all fun b => IsPlainByte b) = true := by
  have hnil : IsPlainText [] := ⟨[], by simp, rfl⟩
  rw [← List.append_nil text, isPlainText_append_iff h, and_iff_left hnil, List.append_nil]

end TermRules.Zig.Literal

import Mathlib.Data.Nat.Digits.Defs
import TermRules.Proofs.Drafts
import TermRules.Proofs.Checking
import TermRules.Proofs.IntegerLiterals
import TermRules.Zig.Text

/-!
# Written tokens

Tokens that are written with single spaces between them are read back as they
were, without an error: a symbol ends at the space behind it, and a literal is
read from its decimal text. The same text is written for a constant in generated
code, so it denotes what the source spelled in any radix.
-/

namespace TermRules

namespace Numeral

structure DecimalOf (s : Bytes) (n : Nat) : Prop where
  digits : ∀ b ∈ s, Byte.isDigit b = true
  ne_nil : s ≠ []
  no_leading_zero : s.head? = some Byte.zero → s = [Byte.zero]
  value : Nat.ofDigits 10 (s.map fun b => b.toNat - 48).reverse = n

def Denotes (text : Bytes) (i : Int) : Prop :=
  ∃ digits, DecimalOf digits i.natAbs ∧
    text = if i < 0 then Byte.minus :: digits else digits

theorem toNat_decimalDigit : ∀ d < 10, (decimalDigit d).toNat - 48 = d := by decide

theorem decimalOf_decimal (n : Nat) : DecimalOf (decimal n) n := by
  induction n using Nat.strongRecOn with
  | ind n ih =>
    have hdigits := isDigit_decimal n
    rw [decimal_eq] at hdigits ⊢
    split_ifs at hdigits ⊢ with hn
    · constructor
      case digits => exact hdigits
      case ne_nil => exact List.cons_ne_nil _ _
      case no_leading_zero => exact fun h => congrArg (fun b => [b]) (Option.some.inj h)
      case value => simp [toNat_decimalDigit n hn]
    · have hfront := ih (n / 10) (by omega)
      constructor
      case digits => exact hdigits
      case ne_nil => simp
      case no_leading_zero =>
        -- The first digit is that of the quotient, which is not zero.
        intro h
        rw [List.head?_append_of_ne_nil _ hfront.ne_nil] at h
        have hzero := hfront.value
        rw [hfront.no_leading_zero h] at hzero
        have : n / 10 = 0 := hzero.symm
        omega
      case value =>
        rw [List.map_append, List.reverse_append, List.map_singleton, List.reverse_singleton,
          List.singleton_append, Nat.ofDigits_cons, hfront.value,
          toNat_decimalDigit (n % 10) (by omega)]
        exact Nat.mod_add_div n 10

theorem denotes_text (n : IntLiteral) : Denotes n.text n.value := by
  obtain ⟨negative, magnitude⟩ := n
  have hdecimal := decimalOf_decimal magnitude.toNat
  cases negative with
  | false =>
    have hvalue : IntLiteral.value ⟨false, magnitude⟩ = magnitude.toNat := rfl
    rw [hvalue]
    exact ⟨_, hdecimal, (if_neg (by omega)).symm⟩
  | true =>
    have hvalue : IntLiteral.value ⟨true, magnitude⟩ = -magnitude.toNat := rfl
    rw [hvalue, IntLiteral.text, Bool.true_and]
    refine ⟨decimal magnitude.toNat, by rwa [Int.natAbs_neg], ?_⟩
    have hzero : (magnitude != 0) = true ↔ -(magnitude.toNat : Int) < 0 := by
      rw [bne_iff_ne, ne_eq, ← UInt64.toNat_inj]
      simp
    exact if_congr hzero rfl rfl

theorem Denotes.unique {text : Bytes} {i j : Int} (hi : Denotes text i) (hj : Denotes text j) :
    j = i := by
  have not_digit {s : Bytes} {n : Nat} (h : DecimalOf (Byte.minus :: s) n) : False :=
    absurd (h.digits Byte.minus List.mem_cons_self) (by decide)
  obtain ⟨s, hs, rfl⟩ := hi
  obtain ⟨t, ht, htext⟩ := hj
  split_ifs at htext
  · cases htext
    have := hs.value.symm.trans ht.value
    omega
  · exact (not_digit (htext ▸ ht)).elim
  · exact (not_digit (htext ▸ hs)).elim
  · cases htext
    have := hs.value.symm.trans ht.value
    omega

theorem denotes_text_iff (n : IntLiteral) (j : Int) : Denotes n.text j ↔ j = n.value :=
  ⟨(denotes_text n).unique, fun h => h ▸ denotes_text n⟩

theorem DigitByte.inSymbol {b : UInt8} {d : Nat} (h : DigitByte b d) : Byte.inSymbol b = true := by
  have decimal : ∀ d < 10, Byte.inSymbol (UInt8.ofNat (48 + d)) = true := by decide
  have lower : ∀ d < 6, Byte.inSymbol (UInt8.ofNat (97 + d)) = true := by decide
  have upper : ∀ d < 6, Byte.inSymbol (UInt8.ofNat (65 + d)) = true := by decide
  cases h with
  | decimal lt => exact decimal _ lt
  | lower lt => exact lower _ lt
  | upper lt => exact upper _ lt

theorem Mark.inSymbol {b : UInt8} {radix : Nat} (h : Mark b radix) : Byte.inSymbol b = true := by
  cases h <;> rfl

theorem Body.inSymbol {radix : Nat} {s : Bytes} {ds : List Nat} (h : Body radix s ds) :
    ∀ b ∈ s, Byte.inSymbol b = true := by
  induction h with
  | nil => exact fun _ h => absurd h List.not_mem_nil
  | separator _ ih => exact List.forall_mem_cons.mpr ⟨rfl, ih⟩
  | digit byte _ _ ih => exact List.forall_mem_cons.mpr ⟨byte.inSymbol, ih⟩

theorem Unsigned.inSymbol {s : Bytes} {n : Nat} (h : Unsigned s n) :
    ∀ b ∈ s, Byte.inSymbol b = true := by
  cases h with
  | decimal byte _ rest => exact List.forall_mem_cons.mpr ⟨byte.inSymbol, rest.inSymbol⟩
  | marked mark body _ =>
    exact List.forall_mem_cons.mpr ⟨rfl, List.forall_mem_cons.mpr ⟨mark.inSymbol, body.inSymbol⟩⟩

theorem Spells.run {spelling : Bytes} {negative : Bool} {n : Nat}
    (h : Spells spelling negative n) : ∃ b s, spelling = b :: s ∧ Byte.inSymbol b = true ∧
      (∀ c ∈ s, Byte.inSymbol c = true) ∧ Byte.startsNumber b s = true := by
  cases h with
  | positive magnitude =>
    obtain ⟨b, s, rfl, hb⟩ := magnitude.exists_digit
    have hall := List.forall_mem_cons.mp magnitude.inSymbol
    exact ⟨b, s, rfl, hall.1, hall.2, by rw [Byte.startsNumber, hb, Bool.true_or]⟩
  | negative magnitude =>
    obtain ⟨b, s, rfl, hb⟩ := magnitude.exists_digit
    exact ⟨Byte.minus, b :: s, rfl, rfl, magnitude.inSymbol, by simp [Byte.startsNumber, hb]⟩

theorem scans_of_spells {spelling : Bytes} {negative : Bool} {n : Nat}
    (h : Spells spelling negative n) (hlt : n < 2 ^ 64) {u : Bytes} (hu : Ends u) :
    Scans (spelling ++ u) [.int ⟨negative, n.toUInt64⟩] u := by
  have hread : read spelling = .ok ⟨negative, n.toUInt64⟩ := (read_of_spells h).trans (if_pos hlt)
  obtain ⟨b, s, rfl, hb, hs, hstart⟩ := h.run
  exact scans_number hb hs hstart hread hu

end Numeral

/-- A number spelled so is read as one literal. A pattern that starts with it becomes a line that
compares with the numeral of the integer, and an expression that starts with it becomes the numeral,
wherever the type has numbers. -/
structure Constant (spelling : Bytes) (n : IntLiteral) (i : Int) : Prop where
  value : n.value = i
  scans : ∀ u, Ends u → Scans (spelling ++ u) [.int n] u
  numeral : ∀ j, Numeral.Denotes n.text j ↔ j = i
  pattern : ∀ (s : Zig.Setting) loc rest endLoc depth type scope v d index,
    (s.ruleSet.typeInfo type).shape.isPrimitive = true →
    ∃ p c, Parse.pattern.run ⟨⟨.int n, loc⟩ :: rest, endLoc, depth⟩ =
        .ok p ⟨rest, endLoc, depth⟩ ∧
      (Check.pattern s.ruleSet p type).run scope = .ok c scope ∧
      ((Zig.Lower.matchPattern s.ruleSet c v).run d).2.body.map (s.statementText index) =
        d.body.map (s.statementText index) ++ [ascii "if (" ++ s.valueText v ++ ascii " != " ++
          n.text ++ ascii ") " ++ Zig.Setting.breakText index ++ ascii ";"]
  expr : ∀ (s : Zig.Setting) loc rest endLoc depth type scope d,
    (s.ruleSet.typeInfo type).shape.isPrimitive = true →
    ∃ e c, Parse.expr.run ⟨⟨.int n, loc⟩ :: rest, endLoc, depth⟩ = .ok e ⟨rest, endLoc, depth⟩ ∧
      (Check.expr s.ruleSet e (some type)).run scope = .ok c scope ∧
      s.valueText ((Zig.Lower.expr s.ruleSet c).run d).1 = n.text

theorem checkPattern_int {rs : RuleSet} {type : TypeId}
    (h : (rs.typeInfo type).shape.isPrimitive = true) (loc : Loc) (n : IntLiteral) (scope : Scope) :
    (Check.pattern rs (.int loc n) type).run scope = .ok (.int ⟨type, loc⟩ n) scope := by
  have hinside : Check.pattern rs (.int loc n) type =
      (do Check.ensurePrimitive rs loc type; return .int ⟨type, loc⟩ n) := by
    rw [Check.pattern]
    cases rs.terms.size <;> rfl
  rw [hinside, Check.run_bind_ok]
  exact ⟨(), scope, Check.run_ensurePrimitive_ok.mpr ⟨h, rfl⟩, rfl⟩

theorem checkExpr_int {rs : RuleSet} {type : TypeId}
    (h : (rs.typeInfo type).shape.isPrimitive = true) (loc : Loc) (n : IntLiteral) (scope : Scope) :
    (Check.expr rs (.int loc n) (some type)).run scope = .ok (.int ⟨type, loc⟩ n) scope := by
  rw [Check.expr, Check.run_bind_ok]
  exact ⟨(), scope, Check.run_ensurePrimitive_ok.mpr ⟨h, rfl⟩, rfl⟩

theorem matchPattern_int (s : Zig.Setting) (site : Site) (n : IntLiteral) (v : Zig.Value)
    (d : Zig.Draft) (index : Nat) :
    ((Zig.Lower.matchPattern s.ruleSet (.int site n) v).run d).2.body.map (s.statementText index) =
      d.body.map (s.statementText index) ++ [ascii "if (" ++ s.valueText v ++ ascii " != " ++
        n.text ++ ascii ") " ++ Zig.Setting.breakText index ++ ascii ";"] := by
  have hnumeral : s.valueText (.int n) = n.text := by rw [Zig.Setting.valueText]
  rw [Zig.Lower.matchPattern, Zig.Lower.run_bind, Zig.Lower.run_use, Zig.Lower.run_emit,
    Zig.Draft.emit_body, Zig.Draft.mark_body, List.map_append, List.map_singleton,
    Zig.Setting.statementText, Zig.Setting.conditionText, hnumeral]
  simp only [List.append_assoc]

theorem constant_of_spells {spelling : Bytes} {negative : Bool} {value : Nat}
    (h : Numeral.Spells spelling negative value) (hlt : value < 2 ^ 64) :
    Constant spelling ⟨negative, value.toUInt64⟩ (if negative then -(value : Int) else value) := by
  have hvalue : IntLiteral.value ⟨negative, value.toUInt64⟩ =
      if negative then -(value : Int) else value := by
    have hmagnitude : value.toUInt64.toNat = value := UInt64.toNat_ofNat_of_lt' hlt
    rw [IntLiteral.value, hmagnitude]
  constructor
  case value => exact hvalue
  case scans => exact fun u hu => Numeral.scans_of_spells h hlt hu
  case numeral => exact fun j => hvalue ▸ Numeral.denotes_text_iff _ j
  case pattern =>
    intro s loc rest endLoc depth type scope v d index htype
    exact ⟨.int loc _, .int ⟨type, loc⟩ _, rfl, checkPattern_int htype loc _ scope,
      matchPattern_int s _ _ v d index⟩
  case expr =>
    intro s loc rest endLoc depth type scope d htype
    exact ⟨.int loc _, .int ⟨type, loc⟩ _, rfl, checkExpr_int htype loc _ scope, rfl⟩

theorem Reader.drains_of_faultless (file : UInt32) {text : Bytes} (h : lexicalFaults text = []) :
    ∃ readings last, Drains (ofSource file text) readings [] last ∧
      readings.map (·.token.lexeme) = lexemes text ∧ (∀ r ∈ readings, r.faults = []) ∧
      last.next = ([], none, last) := by
  let scan := Scan.ofSource file text
  have hdrains : Drains (ofSource file text) scan.readings scan.endFaults
      ⟨[], (Loc.start file).after text, none⟩ := drains_ofPieces _ _
  have hlexemes : scan.tokens.map Token.lexeme = lexemes text := lexemes_tokens_ofSource file text
  rw [Scan.tokens, List.map_map] at hlexemes
  have hnone := (diagnostics_ofSource file text).mpr h
  rw [Scan.diagnostics, Scan.faults, List.flatten_append, List.append_eq_nil_iff,
    List.flatten_singleton, List.flatten_eq_nil_iff, List.forall_mem_map] at hnone
  rw [show scan.endFaults = [] from hnone.2] at hdrains
  exact ⟨scan.readings, _, hdrains, hlexemes, hnone.1, rfl⟩

namespace Lexeme

def text : Lexeme → Bytes
  | .lparen => [Byte.lparen]
  | .rparen => [Byte.rparen]
  | .atSign => [Byte.atSign]
  | .symbol name => name
  | .int n => n.text

/-- Symbols start like symbols and hold no byte that ends one; zero has no sign. -/
def Writable : Lexeme → Prop
  | .symbol name => name.head?.any Byte.startsSymbol = true ∧ ∀ b ∈ name, Byte.inSymbol b = true
  | .int n => n ≠ ⟨true, 0⟩
  | .lparen | .rparen | .atSign => True

instance : DecidablePred Writable
  | .symbol name =>
      inferInstanceAs (Decidable (name.head?.any Byte.startsSymbol = true ∧ ∀ b ∈ name, _))
  | .int n => inferInstanceAs (Decidable (n ≠ ⟨true, 0⟩))
  | .lparen | .rparen | .atSign => isTrue trivial

def write (ls : List Lexeme) : Bytes := joinWith [Byte.space] (ls.map text)

theorem text_eq_spelling {n : IntLiteral} (h : n ≠ ⟨true, 0⟩) : n.text = n.spelling := by
  obtain ⟨negative, magnitude⟩ := n
  cases negative with
  | false => rfl
  | true =>
    have hne : (magnitude != 0) = true := by
      rw [bne_iff_ne]
      rintro rfl
      exact h rfl
    rw [IntLiteral.text, hne]
    rfl

theorem Writable.scans {l : Lexeme} (h : l.Writable) {u : Bytes}
    (hu : ∀ b ∈ u.head?, b = Byte.space) : Scans (l.text ++ u) [l] u := by
  have hends : Ends u := fun b hb => by rw [hu b hb]; rfl
  cases l with
  | lparen =>
    refine scans_lparen fun hhead => ?_
    cases hu Byte.semicolon hhead
  | rparen => exact scans_rparen u
  | atSign => exact scans_atSign u
  | symbol name => exact scans_symbol (isSymbol_iff.mpr h) hends
  | int n =>
    rw [text, text_eq_spelling h]
    exact scans_spelling n hends

theorem scans_write : ∀ {ls : List Lexeme}, (∀ l ∈ ls, l.Writable) → Scans (write ls) ls []
  | [], _ => .refl []
  | [l], h => by
    have hl := (h l (List.mem_singleton_self l)).scans (u := []) (by simp)
    rwa [List.append_nil] at hl
  | l :: l' :: ls, h => by
    rw [List.forall_mem_cons] at h
    have hjoin : write (l :: l' :: ls) = l.text ++ [Byte.space] ++ write (l' :: ls) := rfl
    rw [hjoin, List.append_assoc, List.singleton_append]
    exact (h.1.scans (by simp)).trans ((scans_blank rfl _).trans (scans_write h.2))

/-- Written lexemes are read back, each without an error, and then comes the end. A constant spelled
in any radix is written in generated code as the decimal numeral of its integer. -/
theorem reads_write (file : UInt32) {ls : List Lexeme} (h : ∀ l ∈ ls, l.Writable) :
    (∃ readings last, Reader.Drains (.ofSource file (write ls)) readings [] last ∧
      readings.map (·.token.lexeme) = ls ∧ (∀ r ∈ readings, r.faults = []) ∧
      last.next = ([], none, last)) ∧
    ∀ {spelling negative value}, Numeral.Spells spelling negative value → value < 2 ^ 64 →
      ∃ n, Constant spelling n (if negative then -(value : Int) else value) := by
  refine ⟨?_, fun hspells hlt => ⟨_, constant_of_spells hspells hlt⟩⟩
  have hscans := scans_write h
  have hempty : lexemes [] = [] ∧ lexicalFaults [] = [] := by
    simp [lexemes, lexicalFaults, pieces]
  have hlexemes : lexemes (write ls) = ls := by
    rw [hscans.lexemes, hempty.1, List.append_nil]
  have hdrains := Reader.drains_of_faultless file (hscans.faults.trans hempty.2)
  rwa [hlexemes] at hdrains

def everyKind : List Lexeme :=
  [.lparen, .symbol (ascii "x-1"), .atSign, .int ⟨true, 0xFFFF_FFFF_FFFF_FFFF⟩, .int ⟨false, 0⟩,
    .rparen]

theorem reads_write_everyKind :
    (∀ l ∈ everyKind, l.Writable) ∧ write everyKind = ascii "( x-1 @ -18446744073709551615 0 )" ∧
      (∃ readings last, Reader.Drains (.ofSource 1 (write everyKind)) readings [] last ∧
        readings.map (·.token.lexeme) = everyKind ∧ (∀ r ∈ readings, r.faults = []) ∧
        last.next = ([], none, last)) ∧
      ∃ n, Constant (ascii "0b101") n 5 := by
  have hwritable : ∀ l ∈ everyKind, l.Writable := by decide +kernel
  obtain ⟨hreads, hconstants⟩ := reads_write 1 hwritable
  have hspells : Numeral.Spells (ascii "0b101") false (Nat.ofDigits 2 [1, 0, 1]) :=
    .positive (.marked .binary (.digit (.decimal (d := 1) (by decide)) (by decide)
      (.digit (.decimal (d := 0) (by decide)) (by decide)
        (.digit (.decimal (d := 1) (by decide)) (by decide) .nil))) (List.cons_ne_nil _ _))
  exact ⟨hwritable, by decide +kernel, hreads, hconstants hspells (by decide)⟩

end Lexeme

end TermRules

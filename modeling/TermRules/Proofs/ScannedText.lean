import TermRules.Proofs.Reading

/-!
# Text that is scanned

A numeral is read back from its spelling. A text that starts with some lexemes is
scanned as these and what follows, as long as no symbol and no number goes on in
what follows.
-/

namespace TermRules

def IntLiteral.spelling (n : IntLiteral) : Bytes :=
  (if n.negative then [Byte.minus] else []) ++ decimal n.magnitude.toNat

namespace Numeral

theorem digit_decimalDigit :
    ∀ d < 10, Byte.isDigit (decimalDigit d) = true ∧ digits? 10 [decimalDigit d] = some [d] := by
  decide

theorem isDigit_decimal (n : Nat) : ∀ b ∈ decimal n, Byte.isDigit b = true := by
  induction n using Nat.strongRecOn with
  | ind n ih =>
    rw [decimal_eq]
    split_ifs with hn
    · exact List.forall_mem_singleton.mpr (digit_decimalDigit n hn).1
    · rw [List.forall_mem_append, List.forall_mem_singleton]
      exact ⟨ih (n / 10) (by omega), (digit_decimalDigit (n % 10) (by omega)).1⟩

theorem digits_append (radix : Nat) (s t : Bytes) :
    digits? radix (s ++ t) = do return (← digits? radix s) ++ (← digits? radix t) := by
  rw [digits?, List.filter_append, List.mapM_append]
  rfl

theorem ofDigits_append (radix : Nat) (ds : List Nat) (d : Nat) :
    ofDigits radix (ds ++ [d]) = ofDigits radix ds * radix + d :=
  List.foldl_append

theorem digits_decimal (n : Nat) :
    ∃ d ds, digits? 10 (decimal n) = some (d :: ds) ∧ ofDigits 10 (d :: ds) = n := by
  induction n using Nat.strongRecOn with
  | ind n ih =>
    rw [decimal_eq]
    split_ifs with hn
    · exact ⟨n, [], (digit_decimalDigit n hn).2, Nat.zero_add n⟩
    · obtain ⟨d, ds, hdigits, hvalue⟩ := ih (n / 10) (by omega)
      refine ⟨d, ds ++ [n % 10], ?_, ?_⟩
      · rw [digits_append, hdigits, (digit_decimalDigit (n % 10) (by omega)).2]
        rfl
      · rw [← List.cons_append, ofDigits_append, hvalue]
        omega

theorem markedRadix_digit {b : UInt8} (h : Byte.isDigit b = true) : markedRadix? b = none := by
  rw [markedRadix?, if_neg, if_neg, if_neg] <;> rintro (rfl | rfl) <;> exact absurd h (by decide)

theorem splitRadix_digits {text : Bytes} (h : ∀ b ∈ text, Byte.isDigit b = true) :
    splitRadix text = (10, text) := by
  fun_cases splitRadix text with
  | case1 mark rest radix hradix =>
    rw [markedRadix_digit (h mark (by simp))] at hradix
    cases hradix
  | case2 => rfl
  | case3 => rfl

theorem magnitude_decimal {n : UInt64} : magnitude (decimal n.toNat) = .ok n := by
  obtain ⟨d, ds, hdigits, hvalue⟩ := digits_decimal n.toNat
  rw [magnitude, splitRadix_digits (isDigit_decimal _)]
  dsimp only
  rw [hdigits]
  dsimp only
  rw [hvalue, if_pos n.toNat_lt_size]
  simp

theorem splitSign_digits {text : Bytes} (h : ∀ b ∈ text, Byte.isDigit b = true) :
    splitSign text = (false, text) := by
  fun_cases splitSign text with
  | case1 rest => exact absurd (h Byte.minus List.mem_cons_self) (by decide)
  | case2 => rfl

theorem splitSign_spelling (n : IntLiteral) :
    splitSign n.spelling = (n.negative, decimal n.magnitude.toNat) := by
  obtain ⟨negative, magnitude⟩ := n
  cases negative with
  | true => rfl
  | false => exact splitSign_digits (isDigit_decimal magnitude.toNat)

theorem read_spelling (n : IntLiteral) : read n.spelling = .ok n := by
  rw [read, isNegative, splitSign_spelling, magnitude_decimal]
  rfl

end Numeral

def IsSymbol (name : Bytes) : Prop := lexemes name = [.symbol name]

def Ends (text : Bytes) : Prop := ∀ b ∈ text.head?, Byte.isSymbolEnd b = true

/-- The text starts with the lexemes, free of errors, and `rest` follows. -/
structure Scans (text : Bytes) (ls : List Lexeme) (rest : Bytes) : Prop where
  lexemes : lexemes text = ls ++ lexemes rest
  faults : lexicalFaults text = lexicalFaults rest

namespace Scans

theorem refl (text : Bytes) : Scans text [] text := ⟨rfl, rfl⟩

theorem trans {text rest rest' : Bytes} {ls ls' : List Lexeme} (h : Scans text ls rest)
    (h' : Scans rest ls' rest') : Scans text (ls ++ ls') rest' where
  lexemes := by rw [h.lexemes, h'.lexemes, List.append_assoc]
  faults := h.faults.trans h'.faults

theorem of_piece {b : UInt8} {s rest : Bytes} {p : Piece} (h : cutPiece b s = (p, rest))
    (hfault : p.fault? = none) : Scans (b :: s) p.lexeme?.toList rest := by
  have hpieces : pieces (b :: s) = p :: pieces rest := by rw [pieces, h]
  constructor
  · rw [TermRules.lexemes, hpieces, List.filterMap_cons]
    cases p.lexeme? <;> rfl
  · rw [lexicalFaults, hpieces, List.filterMap_cons, hfault]
    rfl

end Scans

theorem cutPiece_inSymbol {b : UInt8} (hb : Byte.inSymbol b = true) (s : Bytes) :
    cutPiece b s =
      if Byte.startsNumber b s then
        (.number (b :: s.takeWhile Byte.inSymbol), s.dropWhile Byte.inSymbol)
      else if Byte.startsSymbol b then
        (.symbol (b :: s.takeWhile Byte.inSymbol), s.dropWhile Byte.inSymbol)
      else (.stray b, s) := by
  simp only [Byte.inSymbol, Byte.isSymbolEnd, Bool.not_eq_true', Bool.or_eq_false_iff,
    beq_eq_false_iff_ne] at hb
  obtain ⟨⟨⟨⟨⟨hl, hr⟩, hsemi⟩, hat⟩, hblank⟩, hzero⟩ := hb
  rw [cutPiece, if_neg (by simp [hblank]), if_neg hsemi, if_neg hl, if_neg hr, if_neg hat]

theorem length_of_mem_pieces {p : Piece} {s : Bytes} (h : p ∈ pieces s) :
    p.text.length ≤ s.length := by
  have hsub : p.text.Sublist ((pieces s).map Piece.text).flatten :=
    List.sublist_flatten_of_mem (List.mem_map_of_mem h)
  rw [← List.flatMap_def, pieces_text] at hsub
  exact hsub.length_le

theorem cutParen_ne_symbol (s spelling : Bytes) : (cutParen s).1 ≠ .symbol spelling := by
  fun_cases cutParen s <;> simp

theorem cutPiece_symbol {b : UInt8} {s spelling rest : Bytes}
    (h : cutPiece b s = (.symbol spelling, rest)) :
    Byte.startsSymbol b = true ∧ spelling = b :: s.takeWhile Byte.inSymbol := by
  rw [cutPiece] at h
  split_ifs at h with hblank hsemicolon hopen hclose hat hnumber hstarts
  any_goals cases h
  · exact absurd (congrArg Prod.fst h) (cutParen_ne_symbol s spelling)
  · exact ⟨hstarts, rfl⟩

theorem inSymbol_of_startsSymbol {b : UInt8} (h : Byte.startsSymbol b = true) :
    Byte.inSymbol b = true := by
  rw [Byte.startsSymbol, Bool.and_eq_true, Bool.and_eq_true] at h
  exact h.1.1

theorem span_ends {s u : Bytes} (hs : ∀ c ∈ s, Byte.inSymbol c = true) (hu : Ends u) :
    (s ++ u).takeWhile Byte.inSymbol = s ∧ (s ++ u).dropWhile Byte.inSymbol = u := by
  rw [List.takeWhile_append_of_pos hs, List.dropWhile_append_of_pos hs]
  cases u with
  | nil => simp
  | cons b u =>
    have hb : ¬Byte.inSymbol b = true := by simp [Byte.inSymbol, hu b rfl]
    rw [List.takeWhile_cons_of_neg hb, List.dropWhile_cons_of_neg hb, List.append_nil]
    exact ⟨rfl, rfl⟩

theorem cutPiece_of_startsSymbol {b : UInt8} {s u : Bytes} (hb : Byte.startsSymbol b = true)
    (hs : ∀ c ∈ s, Byte.inSymbol c = true) (hu : Ends u) :
    cutPiece b (s ++ u) = (.symbol (b :: s), u) := by
  obtain ⟨htake, hdrop⟩ := span_ends hs hu
  have hnumber : ¬Byte.startsNumber b (s ++ u) = true := by
    rw [Byte.startsSymbol, Bool.and_eq_true, Bool.and_eq_true, bne_iff_ne, Bool.not_eq_true'] at hb
    simp [Byte.startsNumber, hb.1.2, hb.2]
  rw [cutPiece_inSymbol (inSymbol_of_startsSymbol hb), if_neg hnumber, if_pos hb, htake, hdrop]

theorem isSymbol_iff {name : Bytes} :
    IsSymbol name ↔ name.head?.any Byte.startsSymbol ∧ ∀ b ∈ name, Byte.inSymbol b = true := by
  cases name with
  | nil => simp [IsSymbol, lexemes, pieces]
  | cons b s =>
    have hpieces : pieces (b :: s) = (cutPiece b s).1 :: pieces (cutPiece b s).2 := by rw [pieces]
    rw [List.head?_cons, Option.any_some, List.forall_mem_cons]
    constructor
    · intro h
      have hmem : .symbol (b :: s) ∈ lexemes (b :: s) := by
        rw [h]
        exact List.mem_singleton_self _
      obtain ⟨p, hp, hlexeme⟩ := List.mem_filterMap.mp hmem
      have hp' : p = .symbol (b :: s) := by
        cases p <;> simp_all [Piece.lexeme?]
      subst hp'
      rw [hpieces, List.mem_cons] at hp
      rcases hp with hfirst | hlater
      · obtain ⟨hstarts, hs⟩ := cutPiece_symbol (Prod.ext hfirst.symm rfl)
        refine ⟨hstarts, inSymbol_of_startsSymbol hstarts, List.all_eq_true.mp ?_⟩
        rw [(List.cons.inj hs).2]
        exact List.all_takeWhile
      -- A later piece is too short to be the whole text.
      · have hlength := length_of_mem_pieces hlater
        have hcut := length_cutPiece b s
        simp only [Piece.text, List.length_cons] at hlength
        omega
    · rintro ⟨hstarts, -, hs⟩
      have hcut := cutPiece_of_startsSymbol hstarts hs (u := []) (by simp [Ends])
      rw [List.append_nil] at hcut
      rw [IsSymbol, lexemes, hpieces, hcut, pieces]
      rfl

instance : DecidablePred IsSymbol := fun name =>
  decidable_of_iff (name.head?.any Byte.startsSymbol ∧ name.all Byte.inSymbol) (by
    rw [List.all_eq_true]
    exact isSymbol_iff.symm)

theorem scans_symbol {name : Bytes} (h : IsSymbol name) {u : Bytes} (hu : Ends u) :
    Scans (name ++ u) [.symbol name] u := by
  obtain ⟨hstarts, hs⟩ := isSymbol_iff.mp h
  cases name with
  | nil => cases hstarts
  | cons b s =>
    have hcut := cutPiece_of_startsSymbol hstarts (fun c hc => hs c (List.mem_cons_of_mem _ hc)) hu
    exact Scans.of_piece hcut rfl

theorem inSymbol_of_isDigit {b : UInt8} (h : Byte.isDigit b = true) : Byte.inSymbol b = true := by
  by_contra hb
  simp only [Byte.inSymbol, Byte.isSymbolEnd, Byte.isBlank, Bool.not_eq_true, Bool.not_eq_false',
    Bool.or_eq_true, beq_iff_eq] at hb
  rcases hb with ((((rfl | rfl) | rfl) | rfl) | ((rfl | rfl) | rfl) | rfl) | rfl <;>
    exact absurd h (by decide)

theorem spelling_eq_cons (n : IntLiteral) :
    ∃ b s, n.spelling = b :: s ∧ (∀ c ∈ s, Byte.isDigit c = true) ∧
      (Byte.isDigit b = true ∨ b = Byte.minus ∧ s ≠ []) := by
  obtain ⟨negative, magnitude⟩ := n
  have hdigits := Numeral.isDigit_decimal magnitude.toNat
  have hne : decimal magnitude.toNat ≠ [] := by
    rw [decimal_eq]
    split_ifs <;> simp
  cases negative with
  | true => exact ⟨Byte.minus, decimal magnitude.toNat, rfl, hdigits, .inr ⟨rfl, hne⟩⟩
  | false =>
    obtain ⟨b, s, hs⟩ := List.exists_cons_of_ne_nil hne
    rw [hs, List.forall_mem_cons] at hdigits
    exact ⟨b, s, hs, hdigits.2, .inl hdigits.1⟩

theorem startsNumber_append_of {b : UInt8} {s : Bytes} (h : Byte.startsNumber b s = true)
    (u : Bytes) : Byte.startsNumber b (s ++ u) = true := by
  rw [Byte.startsNumber, Bool.or_eq_true, Bool.and_eq_true] at h
  rcases h with hb | ⟨hb, hhead⟩
  · rw [Byte.startsNumber, hb, Bool.true_or]
  · cases s with
    | nil => cases hhead
    | cons c s =>
      rw [Byte.startsNumber, hb, Bool.true_and, List.cons_append, List.head?_cons]
      exact Bool.or_eq_true_iff.mpr (.inr hhead)

theorem scans_number {b : UInt8} {s : Bytes} (hb : Byte.inSymbol b = true)
    (hs : ∀ c ∈ s, Byte.inSymbol c = true) (hstart : Byte.startsNumber b s = true)
    {n : IntLiteral} (hread : Numeral.read (b :: s) = .ok n) {u : Bytes} (hu : Ends u) :
    Scans (b :: s ++ u) [.int n] u := by
  obtain ⟨htake, hdrop⟩ := span_ends hs hu
  have hcut : cutPiece b (s ++ u) = (.number (b :: s), u) := by
    rw [cutPiece_inSymbol hb, if_pos (startsNumber_append_of hstart u), htake, hdrop]
  have hlexeme : (Piece.number (b :: s)).lexeme? = some (.int n) := by
    rw [Piece.lexeme?, Numeral.readOrZero, hread]
  have hscan := Scans.of_piece hcut (by rw [Piece.fault?, hread])
  rwa [hlexeme] at hscan

theorem scans_spelling (n : IntLiteral) {u : Bytes} (hu : Ends u) :
    Scans (n.spelling ++ u) [.int n] u := by
  obtain ⟨b, s, hspelling, hs, hb⟩ := spelling_eq_cons n
  have hfirst : Byte.inSymbol b = true ∧ Byte.startsNumber b s = true := by
    rcases hb with hb | ⟨rfl, hne⟩
    · exact ⟨inSymbol_of_isDigit hb, by rw [Byte.startsNumber, hb, Bool.true_or]⟩
    · obtain ⟨c, s, rfl⟩ := List.exists_cons_of_ne_nil hne
      have hc := hs c List.mem_cons_self
      exact ⟨rfl, by simp [Byte.startsNumber, hc]⟩
  have hread := Numeral.read_spelling n
  rw [hspelling] at hread ⊢
  exact scans_number hfirst.1 (fun c hc => inSymbol_of_isDigit (hs c hc)) hfirst.2 hread hu

end TermRules

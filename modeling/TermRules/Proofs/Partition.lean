import Mathlib.Data.List.DropRight
import TermRules.Proofs.Pieces
import TermRules.Proofs.Rendering
import TermRules.Token.Reader

/-!
# Pieces of a source

A source is cut into blanks, comments, tokens and rejected bytes in one way
only: what a piece may be is said by its own bytes and by what follows it, and
comments nest. Reading to the end of the source answers with the tokens and the
errors of the pieces, each where its first byte stands.
-/

namespace TermRules

structure Loc.Behind (loc : Loc) (file : UInt32) (before : Bytes) : Prop where
  file : loc.file = file
  line : loc.line.toNat = 1 + before.count Byte.newline
  column : loc.column.toNat = 1 + (before.rtakeWhile (· != Byte.newline)).length

theorem Loc.after_start (file : UInt32) (s : Bytes) :
    (Loc.start file).after s = ⟨file, UInt32.ofNat (1 + s.count Byte.newline),
      UInt32.ofNat (1 + (s.rtakeWhile (· != Byte.newline)).length)⟩ := by
  induction s using List.reverseRecOn with
  | nil => rfl
  | append_singleton s b ih =>
    rw [Loc.after_append, ih, Loc.after_cons, Loc.after_nil, Loc.afterByte]
    by_cases hb : b = Byte.newline
    · have hline : 1 + (s ++ [b]).count Byte.newline = 1 + s.count Byte.newline + 1 := by
        rw [hb, List.count_append, List.count_singleton_self, Nat.add_assoc]
      have hcolumn : (s ++ [b]).rtakeWhile (· != Byte.newline) = [] := by
        rw [List.rtakeWhile_concat, if_neg (by simp [hb])]
      rw [if_pos hb, hline, hcolumn, UInt32.ofNat_add _ 1]
      rfl
    · have hline : (s ++ [b]).count Byte.newline = s.count Byte.newline := by
        rw [List.count_append, List.count_singleton, beq_eq_false_iff_ne.mpr hb]
        rfl
      have hcolumn : 1 + ((s ++ [b]).rtakeWhile (· != Byte.newline)).length =
          1 + (s.rtakeWhile (· != Byte.newline)).length + 1 := by
        rw [List.rtakeWhile_concat, if_pos (by simp [hb]), List.length_append,
          List.length_singleton, Nat.add_assoc]
      rw [if_neg hb, hline, hcolumn, UInt32.ofNat_add _ 1]
      rfl

theorem Loc.after_start_behind {s : Bytes} (file : UInt32) (h : s.length + 1 < UInt32.size) :
    ((Loc.start file).after s).Behind file s := by
  have hline : s.count Byte.newline ≤ s.length := List.count_le_length
  have hcolumn : (s.rtakeWhile (· != Byte.newline)).length ≤ s.length :=
    (List.rtakeWhile_suffix _ s).length_le
  rw [Loc.after_start]
  exact ⟨rfl, UInt32.toNat_ofNat_of_lt' (by omega), UInt32.toNat_ofNat_of_lt' (by omega)⟩

namespace PlacedPiece

theorem map_piece_place (loc : Loc) (ps : List Piece) : (place loc ps).map piece = ps := by
  induction ps generalizing loc with
  | nil => rfl
  | cons p ps ih => rw [place, List.map_cons, ih]

theorem loc_of_place {loc : Loc} {ps : List Piece} {before after : List PlacedPiece}
    {p : PlacedPiece} (h : place loc ps = before ++ p :: after) :
    p.loc = loc.after (before.flatMap (·.piece.text)) := by
  induction before generalizing loc ps with
  | nil =>
    cases ps with
    | nil => cases h
    | cons q ps => exact congrArg PlacedPiece.loc (List.cons.inj h).1.symm
  | cons q before ih =>
    cases ps with
    | nil => cases h
    | cons q' ps =>
      obtain ⟨rfl, htail⟩ := List.cons.inj h
      rw [List.flatMap_cons, Loc.after_append]
      exact ih htail

inductive Yields : PlacedPiece → Option Token → List Diagnostic → Prop
  | blank (b : UInt8) (loc : Loc) : Yields ⟨.blank b, loc⟩ none []
  | lineComment (text : Bytes) (loc : Loc) : Yields ⟨.lineComment text, loc⟩ none []
  | blockComment (text : Bytes) (loc : Loc) : Yields ⟨.blockComment text, loc⟩ none []
  | openComment (text : Bytes) (loc : Loc) :
      Yields ⟨.openComment text, loc⟩ none [.error loc (ascii "unterminated block comment")]
  | stray (b : UInt8) (loc : Loc) :
      Yields ⟨.stray b, loc⟩ none [.error loc (ascii "unexpected character " ++ quoted [b])]
  | lparen (loc : Loc) : Yields ⟨.lparen, loc⟩ (some ⟨.lparen, loc⟩) []
  | rparen (loc : Loc) : Yields ⟨.rparen, loc⟩ (some ⟨.rparen, loc⟩) []
  | atSign (loc : Loc) : Yields ⟨.atSign, loc⟩ (some ⟨.atSign, loc⟩) []
  | symbol (spelling : Bytes) (loc : Loc) :
      Yields ⟨.symbol spelling, loc⟩ (some ⟨.symbol spelling, loc⟩) []
  | number {spelling : Bytes} {n : IntLiteral} (value : Numeral.read spelling = .ok n) (loc : Loc) :
      Yields ⟨.number spelling, loc⟩ (some ⟨.int n, loc⟩) []
  | malformed {spelling : Bytes} (value : Numeral.read spelling = .error .malformed) (loc : Loc) :
      Yields ⟨.number spelling, loc⟩ (some ⟨.int ⟨Numeral.isNegative spelling, 0⟩, loc⟩)
        [.error loc (ascii "invalid integer literal " ++ quoted spelling)]
  | outOfRange {spelling : Bytes} (value : Numeral.read spelling = .error .outOfRange)
      (loc : Loc) :
      Yields ⟨.number spelling, loc⟩ (some ⟨.int ⟨Numeral.isNegative spelling, 0⟩, loc⟩)
        [.error loc (ascii "integer literal out of range " ++ quoted spelling)]

theorem yields (p : PlacedPiece) : p.Yields p.token? p.diagnostics := by
  obtain ⟨piece, loc⟩ := p
  cases piece with
  | number spelling =>
    have hvalue := Numeral.readOrZero.eq_1 spelling
    cases hread : Numeral.read spelling with
    | ok n =>
      rw [hread] at hvalue
      simp only [token?, diagnostics, Piece.lexeme?, Piece.fault?, hread, hvalue]
      exact .number hread loc
    | error e =>
      rw [hread] at hvalue
      simp only [token?, diagnostics, Piece.lexeme?, Piece.fault?, hread, hvalue]
      cases e with
      | malformed => exact .malformed hread loc
      | outOfRange => exact .outOfRange hread loc
  | blank b => exact .blank b loc
  | lineComment text => exact .lineComment text loc
  | blockComment text => exact .blockComment text loc
  | openComment text => exact .openComment text loc
  | lparen => exact .lparen loc
  | rparen => exact .rparen loc
  | atSign => exact .atSign loc
  | symbol spelling => exact .symbol spelling loc
  | stray b => exact .stray b loc

end PlacedPiece

namespace Reader

/-- Reading on until the end of the file: the tokens, each with the errors met on the way to it,
the errors met on the way to the end, and the reader that stands there. -/
inductive Drains : Reader → List Reading → List Diagnostic → Reader → Prop
  | stop {r last : Reader} {faults : List Diagnostic} (next : r.next = (faults, none, last)) :
      Drains r [] faults last
  | read {r r' last : Reader} {faults endFaults : List Diagnostic} {token : Token}
      {readings : List Reading} (next : r.next = (faults, some token, r'))
      (rest : Drains r' readings endFaults last) :
      Drains r (⟨faults, token⟩ :: readings) endFaults last

theorem next_of_token {p : PlacedPiece} {t : Token} (h : p.token? = some t)
    (ps : List PlacedPiece) (endLoc : Loc) :
    next ⟨p :: ps, endLoc, none⟩ = (p.diagnostics, some t, ⟨ps, endLoc, none⟩) := by
  simp only [next, readToken, h]

theorem next_of_trivia {p : PlacedPiece} (h : p.token? = none) (ps : List PlacedPiece)
    (endLoc : Loc) :
    next ⟨p :: ps, endLoc, none⟩ =
      (p.diagnostics ++ (next ⟨ps, endLoc, none⟩).1, (next ⟨ps, endLoc, none⟩).2) := by
  simp only [next, readToken, h]

theorem Drains.cons_trivia {p : PlacedPiece} (hp : p.token? = none) {ps : List PlacedPiece}
    {scan : Scan} {endLoc : Loc} {last : Reader}
    (h : Drains ⟨ps, endLoc, none⟩ scan.readings scan.endFaults last) :
    Drains ⟨p :: ps, endLoc, none⟩ (scan.prepend p.diagnostics).readings
      (scan.prepend p.diagnostics).endFaults last := by
  obtain ⟨readings, endFaults, scanEnd⟩ := scan
  have hnext := next_of_trivia hp ps endLoc
  cases h with
  | stop next =>
    rw [next] at hnext
    exact .stop hnext
  | read next rest =>
    rw [next] at hnext
    exact .read hnext rest

/-- Reading piece by piece finds what a scan finds at once. -/
theorem drains_ofPieces (ps : List PlacedPiece) (endLoc : Loc) :
    Drains ⟨ps, endLoc, none⟩ (Scan.ofPieces endLoc ps).readings
      (Scan.ofPieces endLoc ps).endFaults ⟨[], endLoc, none⟩ := by
  induction ps with
  | nil => exact .stop rfl
  | cons p ps ih =>
    have hcons : Scan.ofPieces endLoc (p :: ps) = (Scan.ofPieces endLoc ps).cons p := rfl
    rw [hcons, Scan.cons]
    cases hp : p.token? with
    | none => exact ih.cons_trivia hp
    | some t => exact .read (next_of_token hp ps endLoc) ih

/-- The source is cut in one way into pieces, each standing for what it yields at the place of its
first byte; reading to the end answers with their tokens and errors in order, and stays there. -/
structure Lexes (file : UInt32) (source : Bytes) (ps : List PlacedPiece) (readings : List Reading)
    (endFaults : List Diagnostic) (last : Reader) : Prop where
  drains : Drains (ofSource file source) readings endFaults last
  partition : ∀ qs, Piece.Partition qs source ↔ qs = ps.map PlacedPiece.piece
  places : ∀ before p after, ps = before ++ p :: after →
    p.loc.Behind file (before.flatMap (·.piece.text))
  yields : ∀ p ∈ ps, p.Yields p.token? p.diagnostics
  tokens : readings.map Reading.token = ps.filterMap PlacedPiece.token?
  faults : readings.flatMap Reading.faults ++ endFaults = ps.flatMap PlacedPiece.diagnostics
  stays : last.next = ([], none, last)
  endLoc : last.endLoc = ⟨file, UInt32.ofNat (1 + source.count Byte.newline),
    UInt32.ofNat (1 + (source.rtakeWhile (· != Byte.newline)).length)⟩

theorem loc_behind {file : UInt32} {source : Bytes} (h : source.length < UInt32.size)
    {before after : List PlacedPiece} {p : PlacedPiece}
    (hps : PlacedPiece.place (Loc.start file) (TermRules.pieces source) = before ++ p :: after) :
    p.loc.Behind file (before.flatMap (·.piece.text)) := by
  have hpieces := PlacedPiece.map_piece_place (Loc.start file) (TermRules.pieces source)
  rw [hps] at hpieces
  -- The piece has a byte, so what stands before it is shorter than the source.
  have hmem : p.piece ∈ TermRules.pieces source := by simp [← hpieces]
  have hpos := List.length_pos_iff.mpr (text_ne_nil_of_mem_pieces hmem)
  have hlength := congrArg List.length (pieces_text source)
  rw [← hpieces, List.flatMap_map, List.flatMap_append, List.flatMap_cons] at hlength
  simp only [List.length_append] at hlength
  rw [PlacedPiece.loc_of_place hps]
  apply Loc.after_start_behind
  omega

/-- Every source is read to its end, where reading stays. -/
theorem lexes_ofSource (file : UInt32) (source : Bytes) (h : source.length < UInt32.size) :
    ∃ ps readings endFaults last, Lexes file source ps readings endFaults last := by
  refine ⟨PlacedPiece.place (Loc.start file) (TermRules.pieces source),
    (Scan.ofSource file source).readings, (Scan.ofSource file source).endFaults,
    ⟨[], (Loc.start file).after source, none⟩, ?_⟩
  constructor
  case drains => exact drains_ofPieces _ _
  case partition =>
    intro qs
    rw [PlacedPiece.map_piece_place]
    exact ⟨Piece.Partition.eq_pieces, fun hqs => hqs ▸ Piece.partition_pieces source⟩
  case places => exact fun before p after hps => loc_behind h hps
  case yields => exact fun p _ => p.yields
  case tokens => exact Scan.tokens_ofPieces _ _
  case faults =>
    rw [Scan.ofSource, ← Scan.diagnostics_ofPieces ((Loc.start file).after source),
      Scan.diagnostics, Scan.faults, List.flatten_append, List.flatMap_def, List.flatten_singleton]
  case stays => rfl
  case endLoc => exact Loc.after_start file source

/-- A stray byte, a sign before no digit and a comment left open behind a nested one. -/
theorem lexes_open_comment :
    (ascii "(f\t-x\n007) -(;(;;)").length < UInt32.size ∧
      ∃ ps readings endFaults last,
        Lexes 3 (ascii "(f\t-x\n007) -(;(;;)") ps readings endFaults last :=
  ⟨by decide, lexes_ofSource 3 (ascii "(f\t-x\n007) -(;(;;)") (by decide)⟩

end Reader

end TermRules

import TermRules.Proofs.LiteralSpellings

/-!
# Integer literals

A literal is spelled by an optional sign, an optional radix mark and digits with
separators among them. A number takes the longest run of symbol bytes, and the
run is a literal if it is spelled in this way and its value fits into 64 bits.
A loop over the bytes that counts in 64 bits finds the same, since it looks at
the limit before it would pass it.
-/

namespace TermRules

namespace Numeral

/-- What a loop over the digits knows: the value so far, whether it has seen a digit, and whether
it has met a byte that is out of place or a digit too many. -/
structure Accumulator where
  value : UInt64
  sawDigit : Bool
  bad : Bool
  overflow : Bool

namespace Accumulator

def empty : Accumulator := ⟨0, false, false, false⟩

def push (radix : Nat) (a : Accumulator) (d : Nat) : Accumulator :=
  if radix ≤ d then { a with bad := true }
  else if (UInt64.ofNat (UInt64.size - 1) - UInt64.ofNat d) / UInt64.ofNat radix < a.value then
    { a with sawDigit := true, overflow := true }
  else { a with sawDigit := true, value := a.value * UInt64.ofNat radix + UInt64.ofNat d }

def scan (radix : Nat) (a : Accumulator) : Bytes → Accumulator
  | [] => a
  | b :: s =>
      if b = Byte.underscore then scan radix a s
      else
        match digitValue? b with
        | some d => scan radix (a.push radix d) s
        | none => { a with bad := true }

def verdict (a : Accumulator) : Except Fault UInt64 :=
  if !a.sawDigit || a.bad then .error .malformed
  else if a.overflow then .error .outOfRange
  else .ok a.value

/-- The loop has passed the digits, and nothing was out of place. -/
structure Counts (radix : Nat) (a : Accumulator) (ds : List Nat) : Prop where
  sawDigit : a.sawDigit = true ↔ ds ≠ []
  bad : a.bad = false
  overflow : a.overflow = true ↔ UInt64.size ≤ ofDigits radix ds
  value : a.overflow = false → a.value.toNat = ofDigits radix ds

theorem counts_empty (radix : Nat) : empty.Counts radix [] where
  sawDigit := by simp [empty]
  bad := rfl
  overflow := by simp [empty, ofDigits, UInt64.size]
  value _ := rfl

section Step

variable {radix d : Nat}

theorem toNat_ofNat_of_le {n : Nat} (h : n ≤ 16) : (UInt64.ofNat n).toNat = n :=
  UInt64.toNat_ofNat_of_lt' (Nat.lt_of_le_of_lt h (by decide))

theorem limit_lt_iff (hradix : 0 < radix) (hsize : radix ≤ 16) (hd : d < radix) (v : UInt64) :
    (UInt64.ofNat (UInt64.size - 1) - UInt64.ofNat d) / UInt64.ofNat radix < v ↔
      UInt64.size ≤ v.toNat * radix + d := by
  have hlimit : (UInt64.ofNat (UInt64.size - 1)).toNat = UInt64.size - 1 :=
    UInt64.toNat_ofNat_of_lt' (by decide)
  have hdigit : (UInt64.ofNat d).toNat = d := toNat_ofNat_of_le (by omega)
  have hroom : 16 < UInt64.size := by decide
  have hle : UInt64.ofNat d ≤ UInt64.ofNat (UInt64.size - 1) := by
    rw [UInt64.le_iff_toNat_le, hlimit, hdigit]
    omega
  rw [UInt64.lt_iff_toNat_lt, UInt64.toNat_div, UInt64.toNat_sub_of_le _ _ hle, hlimit, hdigit,
    toNat_ofNat_of_le hsize, Nat.div_lt_iff_lt_mul hradix]
  omega

theorem toNat_step (hsize : radix ≤ 16) (hd : d < radix) {v : UInt64}
    (h : v.toNat * radix + d < UInt64.size) :
    (v * UInt64.ofNat radix + UInt64.ofNat d).toNat = v.toNat * radix + d := by
  rw [UInt64.toNat_add, UInt64.toNat_mul, toNat_ofNat_of_le hsize,
    toNat_ofNat_of_le (by omega : d ≤ 16), Nat.mod_add_mod]
  exact Nat.mod_eq_of_lt h

theorem Counts.push {a : Accumulator} {ds : List Nat} (h : a.Counts radix ds)
    (hsize : radix ≤ 16) (hd : d < radix) : (a.push radix d).Counts radix (ds ++ [d]) := by
  have hradix : 0 < radix := Nat.zero_lt_of_lt hd
  have hvalue : ofDigits radix (ds ++ [d]) = ofDigits radix ds * radix + d := List.foldl_append
  have hgrows : ofDigits radix ds ≤ ofDigits radix (ds ++ [d]) := by
    rw [hvalue]
    exact Nat.le_add_right_of_le (Nat.le_mul_of_pos_right _ hradix)
  have hlimit := limit_lt_iff hradix hsize hd a.value
  rw [Accumulator.push, if_neg (Nat.not_le.mpr hd)]
  -- A value that is too large stays so, whatever the loop does with what it has kept.
  cases hoverflow : a.overflow with
  | true =>
    have hlarge := Nat.le_trans (h.overflow.mp hoverflow) hgrows
    split_ifs
    · exact ⟨by simp, h.bad, by simp [hlarge], by simp⟩
    · exact ⟨by simp, h.bad, by simp [hlarge], by simp⟩
  | false =>
    rw [h.value hoverflow, ← hvalue] at hlimit
    split_ifs with hpassed
    · exact ⟨by simp, h.bad, by simp [hlimit.mp hpassed], by simp⟩
    · have hsmall := mt hlimit.mpr hpassed
      refine ⟨by simp, h.bad, by simp [hsmall], fun _ => ?_⟩
      have hstep := toNat_step (v := a.value) hsize hd
      rw [h.value hoverflow, ← hvalue] at hstep
      exact hstep (Nat.lt_of_not_le hsmall)

end Step

theorem bad_scan {radix : Nat} {a : Accumulator} (h : a.bad = true) (s : Bytes) :
    (a.scan radix s).bad = true := by
  induction s generalizing a with
  | nil => exact h
  | cons b s ih =>
    rw [scan]
    split_ifs
    · exact ih h
    · cases digitValue? b with
      | none => rfl
      | some d =>
        apply ih
        rw [push]
        split_ifs <;> first | rfl | exact h

theorem Counts.scan {radix : Nat} (hsize : radix ≤ 16) {a : Accumulator} {ds : List Nat}
    (h : a.Counts radix ds) (s : Bytes) :
    (∃ es, digits? radix s = some es ∧ (a.scan radix s).Counts radix (ds ++ es)) ∨
      digits? radix s = none ∧ (a.scan radix s).bad = true := by
  induction s generalizing a ds with
  | nil => exact .inl ⟨[], rfl, by rwa [List.append_nil]⟩
  | cons b s ih =>
    rw [Accumulator.scan]
    split_ifs with hb
    · subst hb
      exact ih h
    · rw [digits?_cons hb]
      cases hd : digitValue? b with
      | none => exact .inr ⟨by simp [digit?, hd], rfl⟩
      | some d =>
        dsimp only
        by_cases hlt : d < radix
        · have hdigit : digit? radix b = some d := by simp [digit?, hd, hlt]
          rw [hdigit, Option.bind_some]
          rcases ih (h.push hsize hlt) with ⟨es, hes, hcounts⟩ | ⟨hnone, hbad⟩
          · rw [List.append_assoc] at hcounts
            exact .inl ⟨d :: es, by rw [hes]; rfl, hcounts⟩
          · exact .inr ⟨by rw [hnone]; rfl, hbad⟩
        · have hdigit : digit? radix b = none := by simpa [digit?, hd] using hlt
          refine .inr ⟨by rw [hdigit]; rfl, bad_scan ?_ s⟩
          rw [Accumulator.push, if_pos (Nat.le_of_not_lt hlt)]

end Accumulator

def accumulate (text : Bytes) : Except Fault UInt64 :=
  let (radix, body) := splitRadix text
  (Accumulator.empty.scan radix body).verdict

theorem Mark.radix_le {b : UInt8} {radix : Nat} (h : Mark b radix) : radix ≤ 16 := by
  cases h <;> decide

theorem radix_le {text body : Bytes} {radix : Nat} (h : splitRadix text = (radix, body)) :
    radix ≤ 16 := by
  rcases splitRadix_cases text with ⟨b, radix', s, -, hmark, hsplit⟩ | hsplit
  · cases h.symm.trans hsplit
    exact hmark.radix_le
  · cases h.symm.trans hsplit
    decide

/-- Counting in 64 bits finds the magnitude, or what is wrong with the spelling. -/
theorem accumulate_eq (text : Bytes) : accumulate text = magnitude text := by
  rcases hsplit : splitRadix text with ⟨radix, body⟩
  rw [accumulate, magnitude, hsplit]
  dsimp only
  rcases (Accumulator.counts_empty radix).scan (radix_le hsplit) body with
    ⟨ds, hds, hcounts⟩ | ⟨hnone, hbad⟩
  · rw [List.nil_append] at hcounts
    rw [hds, Accumulator.verdict, hcounts.bad, Bool.or_false]
    cases ds with
    | nil =>
      have hsaw : (Accumulator.empty.scan radix body).sawDigit = false := by
        simpa using hcounts.sawDigit
      rw [hsaw]
      rfl
    | cons d ds =>
      have hsaw := hcounts.sawDigit.mpr (List.cons_ne_nil d ds)
      rw [hsaw]
      dsimp only [Bool.not_true]
      cases hoverflow : (Accumulator.empty.scan radix body).overflow with
      | true =>
        have hlarge := hcounts.overflow.mp hoverflow
        rw [if_neg (Nat.not_lt.mpr hlarge)]
        rfl
      | false =>
        have hsmall : ofDigits radix (d :: ds) < UInt64.size := by
          have hnot := mt hcounts.overflow.mpr (by simp [hoverflow])
          exact Nat.lt_of_not_le hnot
        rw [if_pos hsmall, ← hcounts.value hoverflow]
        exact congrArg Except.ok UInt64.ofNat_toNat.symm
  · rw [hnone, Accumulator.verdict, hbad, Bool.or_true]
    rfl

end Numeral

namespace Reader

structure ReadsNumber (loc : Loc) (run : Bytes) (n : IntLiteral) (faults : List Diagnostic) :
    Prop where
  accepted_iff : faults = [] ↔ ∃ negative value, Numeral.Spells run negative value ∧ value < 2 ^ 64
  accepted : ∀ {negative value}, Numeral.Spells run negative value → value < 2 ^ 64 →
    n.negative = negative ∧ n.magnitude.toNat = value
  outOfRange : ∀ {negative value}, Numeral.Spells run negative value → 2 ^ 64 ≤ value →
    faults = [.error loc (ascii "integer literal out of range " ++ quoted run)] ∧ n.magnitude = 0
  malformed : (∀ negative value, ¬Numeral.Spells run negative value) →
    faults = [.error loc (ascii "invalid integer literal " ++ quoted run)] ∧ n.magnitude = 0

theorem readsNumber {b : UInt8} {s : Bytes} (hstart : Byte.startsNumber b s = true) (loc : Loc) :
    ∃ n, PlacedPiece.token? ⟨.number (b :: s), loc⟩ = some ⟨.int n, loc⟩ ∧
      ReadsNumber loc (b :: s) n (PlacedPiece.diagnostics ⟨.number (b :: s), loc⟩) := by
  have small {negative : Bool} {value : Nat} (h : Numeral.Spells (b :: s) negative value)
      (hlt : value < 2 ^ 64) : Numeral.read (b :: s) = .ok ⟨negative, value.toUInt64⟩ := by
    rw [Numeral.read_of_spells h]
    exact if_pos hlt
  have large {negative : Bool} {value : Nat} (h : Numeral.Spells (b :: s) negative value)
      (hle : 2 ^ 64 ≤ value) : Numeral.read (b :: s) = .error .outOfRange := by
    rw [Numeral.read_of_spells h]
    exact if_neg (Nat.not_lt.mpr hle)
  have wrong (h : ∀ negative value, ¬Numeral.Spells (b :: s) negative value) :
      Numeral.read (b :: s) = .error .malformed := Numeral.read_of_not_spells hstart h
  have hyields := PlacedPiece.yields ⟨.number (b :: s), loc⟩
  generalize PlacedPiece.token? _ = token at hyields ⊢
  generalize PlacedPiece.diagnostics _ = faults at hyields ⊢
  cases hyields with
  | @number _ n value =>
    refine ⟨n, rfl, ?_, fun h hlt => ?_, fun h hle => ?_, fun h => ?_⟩
    · exact iff_of_true rfl (Numeral.exists_spells_of_read hstart value)
    · cases value.symm.trans (small h hlt)
      exact ⟨rfl, UInt64.toNat_ofNat_of_lt' hlt⟩
    · cases value.symm.trans (large h hle)
    · cases value.symm.trans (wrong h)
  | malformed value =>
    refine ⟨_, rfl, ?_, fun h hlt => ?_, fun h hle => ?_, fun h => ⟨rfl, rfl⟩⟩
    · refine iff_of_false (List.cons_ne_nil _ _) ?_
      rintro ⟨negative, n, h, hlt⟩
      cases value.symm.trans (small h hlt)
    · cases value.symm.trans (small h hlt)
    · cases value.symm.trans (large h hle)
  | outOfRange value =>
    refine ⟨_, rfl, ?_, fun h hlt => ?_, fun h hle => ⟨rfl, rfl⟩, fun h => ?_⟩
    · refine iff_of_false (List.cons_ne_nil _ _) ?_
      rintro ⟨negative, n, h, hlt⟩
      cases value.symm.trans (small h hlt)
    · cases value.symm.trans (small h hlt)
    · cases value.symm.trans (wrong h)

theorem inSymbol_of_startsNumber {b : UInt8} {s : Bytes} (h : Byte.startsNumber b s = true) :
    Byte.inSymbol b = true := by
  rw [Byte.startsNumber, Bool.or_eq_true, Bool.and_eq_true, beq_iff_eq] at h
  rcases h with hb | ⟨rfl, -⟩
  · exact inSymbol_of_isDigit hb
  · rfl

theorem exists_run {b : UInt8} {s : Bytes} (h : Byte.startsNumber b s = true) :
    ∃ run after, s = run ++ after ∧ IsRun (b :: run) after ∧ Byte.startsNumber b run = true ∧
      TermRules.pieces (b :: s) = .number (b :: run) :: TermRules.pieces after := by
  have hrun := isRun_takeWhile (inSymbol_of_startsNumber h) s
  have hstart := (startsNumber_takeWhile b s).trans h
  have hfits : (Piece.number (b :: s.takeWhile Byte.inSymbol)).Fits (s.dropWhile Byte.inSymbol) :=
    ⟨hrun, b, _, rfl, hstart⟩
  have hsplit := List.takeWhile_append_dropWhile (p := Byte.inSymbol) (l := s)
  refine ⟨_, _, hsplit.symm, hrun, hstart, ?_⟩
  have hpieces := hfits.pieces_append
  rw [Piece.text, List.cons_append, hsplit] at hpieces
  exact hpieces

/-- The next token is a number: behind the bytes `before` of the source it takes the run with which
`text` starts. The errors found on the way to it come first. -/
structure TakesNumber (file : UInt32) (source text : Bytes) (r : Reader) (skipped : List Diagnostic)
    (before run after : Bytes) (n : IntLiteral) (faults : List Diagnostic) : Prop where
  source_eq : source = before ++ run ++ after
  text_eq : text = run ++ after
  isRun : IsRun run after
  next : r.next = (skipped ++ faults, some ⟨.int n, (Loc.start file).after before⟩,
    between file (before ++ run) after)
  reads : ReadsNumber ((Loc.start file).after before) run n faults
  counted : (Numeral.accumulate (Numeral.splitSign run).2).map
    (IntLiteral.mk (Numeral.isNegative run)) = Numeral.read run

/-- Wherever reading a token comes to a number, behind pieces that are no tokens, it takes the
longest run of symbol bytes. The run gives its literal if it is spelled right and fits, and else
one error and no magnitude; a loop that counts in 64 bits finds the same. -/
theorem next_number {file : UInt32} {source : Bytes} {readings : List Reading} {r : Reader}
    (h : Advances (ofSource file source) readings r) {gap : List Piece} {b : UInt8} {s : Bytes}
    (hpieces : r.pieces.map PlacedPiece.piece = gap ++ TermRules.pieces (b :: s))
    (hgap : ∀ p ∈ gap, p.lexeme? = none) (hstart : Byte.startsNumber b s = true) :
    ∃ before run after n faults, TakesNumber file source (b :: s) r
      ((r.pieces.take gap.length).flatMap PlacedPiece.diagnostics) before run after n faults := by
  obtain ⟨ps, rest, -, hsource, -, rfl⟩ := h.exists_between
  obtain ⟨run, after, rfl, hrun, hstart', hnumber⟩ := exists_run hstart
  -- What is skipped and the number are cut off in front of what follows.
  rw [between, PlacedPiece.map_piece_place, hnumber] at hpieces
  have hrest : rest = gap.flatMap Piece.text ++ (b :: run ++ after) := by
    rw [← pieces_text rest, hpieces, List.flatMap_append, List.flatMap_cons, pieces_text]
    rfl
  let start := (Loc.start file).after (ps.flatMap Piece.text)
  let loc := start.after (gap.flatMap Piece.text)
  obtain ⟨n, htoken, hreads⟩ := readsNumber hstart' loc
  have hloc : (Loc.start file).after (ps.flatMap Piece.text ++ gap.flatMap Piece.text) = loc :=
    Loc.after_append _ _ _
  have hplace : (between file (ps.flatMap Piece.text) rest).pieces =
      PlacedPiece.place start gap ++ ⟨.number (b :: run), loc⟩ ::
        PlacedPiece.place (loc.after (b :: run)) (TermRules.pieces after) := by
    rw [between, hpieces, PlacedPiece.place_append]
    rfl
  have hbehind : between file (ps.flatMap Piece.text ++ gap.flatMap Piece.text ++ b :: run) after =
      ⟨PlacedPiece.place (loc.after (b :: run)) (TermRules.pieces after), start.after rest,
        none⟩ := by
    rw [between, Loc.after_append, hloc, hrest, Loc.after_append start, Loc.after_append loc]
  have hlength : (PlacedPiece.place start gap).length = gap.length := by
    rw [← List.length_map, PlacedPiece.map_piece_place]
  have hquiet : ∀ q ∈ PlacedPiece.place start gap, q.token? = none := fun q hq => by
    have hmem := List.mem_map_of_mem (f := PlacedPiece.piece) hq
    rw [PlacedPiece.map_piece_place] at hmem
    rw [PlacedPiece.token?, hgap q.piece hmem]
    rfl
  refine ⟨ps.flatMap Piece.text ++ gap.flatMap Piece.text, b :: run, after, n, _, ?_, rfl, hrun,
    ?_, hloc ▸ hreads, ?_⟩
  · rw [hsource, hrest, ← List.append_assoc, ← List.append_assoc]
  · rw [hplace, ← hlength, List.take_left, hloc]
    change next ⟨(between file (ps.flatMap Piece.text) rest).pieces, _, none⟩ = _
    rw [hplace, next_of_no_token hquiet, next_of_token htoken, hbehind]
  · rw [Numeral.accumulate_eq]
    rfl

/-- The largest magnitude with a sign, behind a symbol and a byte that is rejected. -/
theorem next_number_largest :
    let digits := ascii "0xFFFF_FFFF_FFFF_FFFF)"
    let source := ascii "x\x00-" ++ digits
    ∃ readings r, Advances (ofSource 0 source) readings r ∧
      r.pieces.map PlacedPiece.piece = [.stray 0] ++ TermRules.pieces (Byte.minus :: digits) ∧
      (∀ p ∈ [Piece.stray 0], p.lexeme? = none) ∧
      Byte.startsNumber Byte.minus digits = true ∧
      ∃ before run after n faults, TakesNumber 0 source (Byte.minus :: digits) r
        [.error ⟨0, 1, 2⟩ (LexicalFault.unexpectedByte 0).message] before run after n faults := by
  intro digits source
  let r := (ofSource 0 source).next.2.2
  have h : Advances (ofSource 0 source) [⟨[], .symbol (ascii "x"), 0, 1, 1⟩] r :=
    .read (by decide +kernel) (.stay _)
  have hpieces : r.pieces.map PlacedPiece.piece =
      [.stray 0] ++ TermRules.pieces (Byte.minus :: digits) := by
    decide +kernel
  have hgap : ∀ p ∈ [Piece.stray 0], p.lexeme? = none := by decide
  have hskipped : (r.pieces.take 1).flatMap PlacedPiece.diagnostics =
      [.error ⟨0, 1, 2⟩ (LexicalFault.unexpectedByte 0).message] := by
    decide +kernel
  have hstart : Byte.startsNumber Byte.minus digits = true := by decide
  have hnumber := next_number h hpieces hgap hstart
  exact ⟨_, r, h, hpieces, hgap, hstart, hskipped ▸ hnumber⟩

end Reader

end TermRules

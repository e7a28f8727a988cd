import TermRules.Proofs.Partition

/-!
# Between two tokens

Reading tokens one by one walks over a source from the left. Between two tokens
the reader stands behind a part of the source that is cut like every source, and
it knows nothing of that part but the place where it ends. The part behind it is
cut as if it stood alone.
-/

namespace TermRules

namespace Piece

theorem AllFit.append_right {ps qs : List Piece} (h : AllFit (ps ++ qs)) : AllFit qs := by
  induction ps with
  | nil => exact h
  | cons p ps ih => exact ih h.2

theorem eq_pieces_of_append {source : Bytes} {ps qs : List Piece}
    (h : pieces source = ps ++ qs) : qs = pieces (qs.flatMap text) := by
  have hfit := (partition_pieces source).fit
  rw [h] at hfit
  exact Partition.eq_pieces ⟨rfl, hfit.append_right⟩

theorem Fits.pieces_append {p : Piece} {rest : Bytes} (h : p.Fits rest) :
    pieces (p.text ++ rest) = p :: pieces rest := by
  have hpartition : Partition (p :: pieces rest) (p.text ++ rest) := by
    refine ⟨?_, ?_, (partition_pieces rest).fit⟩
    · rw [List.flatMap_cons, pieces_text]
    · rwa [pieces_text]
  exact hpartition.eq_pieces.symm

end Piece

namespace PlacedPiece

theorem place_append (loc : Loc) (ps qs : List Piece) :
    place loc (ps ++ qs) = place loc ps ++ place (loc.after (ps.flatMap Piece.text)) qs := by
  induction ps generalizing loc with
  | nil => rfl
  | cons p ps ih =>
    rw [List.cons_append, place, place, ih, List.flatMap_cons, Loc.after_append]
    rfl

theorem place_eq_append {loc : Loc} {ps : List Piece} {qs rs : List PlacedPiece}
    (h : place loc ps = qs ++ rs) :
    ∃ front back, ps = front ++ back ∧ qs = place loc front ∧
      rs = place (loc.after (front.flatMap Piece.text)) back := by
  induction qs generalizing loc ps with
  | nil => exact ⟨[], ps, rfl, rfl, h.symm⟩
  | cons q qs ih =>
    cases ps with
    | nil => cases h
    | cons p ps =>
      obtain ⟨rfl, htail⟩ := List.cons.inj h
      obtain ⟨front, back, rfl, rfl, rfl⟩ := ih htail
      refine ⟨p :: front, back, rfl, rfl, ?_⟩
      rw [List.flatMap_cons, Loc.after_append]

end PlacedPiece

namespace Reader

theorem next_of_no_token {qs : List PlacedPiece} (h : ∀ q ∈ qs, q.token? = none)
    (ps : List PlacedPiece) (endLoc : Loc) :
    next ⟨qs ++ ps, endLoc, none⟩ =
      (qs.flatMap PlacedPiece.diagnostics ++ (next ⟨ps, endLoc, none⟩).1,
        (next ⟨ps, endLoc, none⟩).2) := by
  induction qs with
  | nil => rfl
  | cons q qs ih =>
    obtain ⟨hq, hqs⟩ := List.forall_mem_cons.mp h
    rw [List.cons_append, next_of_trivia hq, ih hqs, List.flatMap_cons, List.append_assoc]

inductive Delivers : List PlacedPiece → Reading → Prop
  | token {p : PlacedPiece} {t : Token} (token : p.token? = some t) :
      Delivers [p] ⟨p.diagnostics, t⟩
  | skip {p : PlacedPiece} {ps : List PlacedPiece} {faults : List Diagnostic} {t : Token}
      (trivia : p.token? = none) (rest : Delivers ps ⟨faults, t⟩) :
      Delivers (p :: ps) ⟨p.diagnostics ++ faults, t⟩

theorem next_of_delivers {qs : List PlacedPiece} {reading : Reading} (h : Delivers qs reading)
    (rest : List PlacedPiece) (endLoc : Loc) :
    next ⟨qs ++ rest, endLoc, none⟩ =
      (reading.faults, some reading.token, ⟨rest, endLoc, none⟩) := by
  induction h with
  | token token => exact next_of_token token rest endLoc
  | skip trivia _ ih => rw [List.cons_append, next_of_trivia trivia, ih]

theorem delivers_of_next {ps : List PlacedPiece} {endLoc : Loc} {faults : List Diagnostic}
    {t : Token} {r : Reader} (h : next ⟨ps, endLoc, none⟩ = (faults, some t, r)) :
    ∃ qs rest, ps = qs ++ rest ∧ Delivers qs ⟨faults, t⟩ ∧ r = ⟨rest, endLoc, none⟩ := by
  induction ps generalizing faults with
  | nil => cases h
  | cons p ps ih =>
    cases hp : p.token? with
    | some t' =>
      rw [next_of_token hp] at h
      cases h
      exact ⟨[p], ps, rfl, .token hp, rfl⟩
    | none =>
      rw [next_of_trivia hp] at h
      rcases hnext : next ⟨ps, endLoc, none⟩ with ⟨faults', token', r'⟩
      rw [hnext] at h
      cases h
      obtain ⟨qs, rest, rfl, hqs, rfl⟩ := ih hnext
      exact ⟨p :: qs, rest, rfl, .skip hp hqs, rfl⟩

/-- Reading tokens one by one, with the errors met on the way to each of them. -/
inductive Advances : Reader → List Reading → Reader → Prop
  | stay (r : Reader) : Advances r [] r
  | read {r r' last : Reader} {faults : List Diagnostic} {token : Token} {readings : List Reading}
      (next : r.next = (faults, some token, r')) (rest : Advances r' readings last) :
      Advances r (⟨faults, token⟩ :: readings) last

inductive DeliversAll : List PlacedPiece → List Reading → Prop
  | nil : DeliversAll [] []
  | cons {ps qs : List PlacedPiece} {reading : Reading} {readings : List Reading}
      (first : Delivers ps reading) (rest : DeliversAll qs readings) :
      DeliversAll (ps ++ qs) (reading :: readings)

theorem DeliversAll.advances {qs : List PlacedPiece} {readings : List Reading}
    (h : DeliversAll qs readings) (rest : List PlacedPiece) (endLoc : Loc) :
    Advances ⟨qs ++ rest, endLoc, none⟩ readings ⟨rest, endLoc, none⟩ := by
  induction h with
  | nil => exact .stay _
  | cons first _ ih =>
    rw [List.append_assoc]
    exact .read (next_of_delivers first _ endLoc) ih

theorem Advances.deliversAll {ps : List PlacedPiece} {endLoc : Loc} {readings : List Reading}
    {r : Reader} (h : Advances ⟨ps, endLoc, none⟩ readings r) :
    ∃ qs rest, ps = qs ++ rest ∧ DeliversAll qs readings ∧ r = ⟨rest, endLoc, none⟩ := by
  generalize hr : (⟨ps, endLoc, none⟩ : Reader) = start at h
  induction h generalizing ps with
  | stay r => exact ⟨[], ps, rfl, .nil, hr.symm⟩
  | read next _ ih =>
    subst hr
    obtain ⟨qs, rest, rfl, hqs, rfl⟩ := delivers_of_next next
    obtain ⟨qs', rest', rfl, hqs', rfl⟩ := ih rfl
    exact ⟨qs ++ qs', rest', (List.append_assoc _ _ _).symm, .cons hqs hqs', rfl⟩

theorem Delivers.exists_last {qs : List PlacedPiece} {reading : Reading}
    (h : Delivers qs reading) : ∃ ps p, qs = ps ++ [p] ∧ p.token? = some reading.token := by
  induction h with
  | @token p t token => exact ⟨[], p, rfl, token⟩
  | @skip p _ _ _ _ _ ih =>
    obtain ⟨ps, q, rfl, hq⟩ := ih
    exact ⟨p :: ps, q, rfl, hq⟩

theorem DeliversAll.exists_last {qs : List PlacedPiece} {readings : List Reading}
    (h : DeliversAll qs readings) :
    qs = [] ∧ readings = [] ∨ ∃ ps p reading, qs = ps ++ [p] ∧
      readings.getLast? = some reading ∧ p.token? = some reading.token := by
  induction h with
  | nil => exact .inl ⟨rfl, rfl⟩
  | @cons ps qs reading readings first _ ih =>
    right
    rw [List.getLast?_cons]
    rcases ih with ⟨rfl, rfl⟩ | ⟨qs', p, last, rfl, hlast, hp⟩
    · obtain ⟨ps', p, rfl, hp⟩ := first.exists_last
      exact ⟨ps', p, reading, List.append_nil _, rfl, hp⟩
    · exact ⟨ps ++ qs', p, last, (List.append_assoc _ _ _).symm, by rw [hlast]; rfl, hp⟩

def between (file : UInt32) (before after : Bytes) : Reader where
  pieces := PlacedPiece.place ((Loc.start file).after before) (TermRules.pieces after)
  endLoc := ((Loc.start file).after before).after after
  ahead := none

theorem Advances.exists_between {file : UInt32} {source : Bytes} {readings : List Reading}
    {r : Reader} (h : Advances (ofSource file source) readings r) :
    ∃ ps after, TermRules.pieces source = ps ++ TermRules.pieces after ∧
      source = ps.flatMap Piece.text ++ after ∧
      DeliversAll (PlacedPiece.place (Loc.start file) ps) readings ∧
      r = between file (ps.flatMap Piece.text) after := by
  obtain ⟨qs, rest, hplace, hqs, rfl⟩ := h.deliversAll
  obtain ⟨ps, back, hpieces, rfl, rfl⟩ := PlacedPiece.place_eq_append hplace
  have hback := Piece.eq_pieces_of_append hpieces
  have hsource : source = ps.flatMap Piece.text ++ back.flatMap Piece.text := by
    rw [← pieces_text source, hpieces, List.flatMap_append]
  refine ⟨ps, back.flatMap Piece.text, hback ▸ hpieces, hsource, hqs, ?_⟩
  rw [between, ← hback, ← Loc.after_append, ← hsource]

end Reader

end TermRules

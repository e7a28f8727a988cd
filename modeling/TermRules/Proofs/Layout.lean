import TermRules.Proofs.Reading
import TermRules.Proofs.TokenBoundaries

/-!
# Layout

Blanks and closed comments may be put between any two tokens. They are cut into
pieces of their own, since no token goes on into them and nothing behind them
sees what stands before; only a semicolon right behind an opening parenthesis
would make a comment of it. What is read stays the same, and everything behind
moves by what was put in.
-/

namespace TermRules

/-- Blanks, line comments with the ends of their lines, and block comments, in any number. -/
inductive Trivia : Bytes → Prop
  | nil : Trivia []
  | blank {b : UInt8} {t : Bytes} (blank : Byte.isBlank b = true) (rest : Trivia t) :
      Trivia (b :: t)
  | lineComment {body t : Bytes} {b : UInt8} (inLine : ∀ c ∈ body, Byte.endsLine c = false)
      (lineEnd : Byte.endsLine b = true) (rest : Trivia t) :
      Trivia (Byte.semicolon :: (body ++ b :: t))
  | blockComment {body t : Bytes} (inside : Comment.Inside body) (rest : Trivia t) :
      Trivia (Comment.opener ++ body ++ Comment.closer ++ t)

structure Piece.IsSilent (p : Piece) : Prop where
  lexeme : p.lexeme? = none
  fault : p.fault? = none

namespace Trivia

theorem isBlank_of_endsLine {b : UInt8} (h : Byte.endsLine b = true) : Byte.isBlank b = true := by
  simp only [Byte.endsLine, Byte.isBlank, Bool.or_eq_true] at h ⊢
  exact h.imp .inr id

theorem pieces_append {t : Bytes} (h : Trivia t) (after : Bytes) :
    ∃ ts, ts.flatMap Piece.text = t ∧ (∀ p ∈ ts, p.IsSilent) ∧
      pieces (t ++ after) = ts ++ pieces after := by
  have isSilent_cons {p : Piece} {ts : List Piece} (hp : p.IsSilent)
      (hts : ∀ p ∈ ts, p.IsSilent) : ∀ q ∈ p :: ts, q.IsSilent :=
    List.forall_mem_cons.mpr ⟨hp, hts⟩
  induction h with
  | nil => exact ⟨[], rfl, by simp, rfl⟩
  | @blank b t blank _ ih =>
    obtain ⟨ts, htext, hsilent, hts⟩ := ih
    have hcut : pieces ([b] ++ (t ++ after)) = .blank b :: pieces (t ++ after) :=
      Piece.Fits.pieces_append (p := .blank b) blank
    refine ⟨.blank b :: ts, congrArg (b :: ·) htext, isSilent_cons ⟨rfl, rfl⟩ hsilent, ?_⟩
    exact hcut.trans (congrArg _ hts)
  | @lineComment body t b inLine lineEnd _ ih =>
    obtain ⟨ts, htext, hsilent, hts⟩ := ih
    have hblank : pieces ([b] ++ (t ++ after)) = .blank b :: pieces (t ++ after) :=
      Piece.Fits.pieces_append (p := .blank b) (isBlank_of_endsLine lineEnd)
    have hcut : pieces (Byte.semicolon :: body ++ ([b] ++ (t ++ after))) =
        .lineComment (Byte.semicolon :: body) :: pieces ([b] ++ (t ++ after)) :=
      Piece.Fits.pieces_append (p := .lineComment (Byte.semicolon :: body))
        ⟨body, rfl, inLine, fun c hc => Option.some.inj hc ▸ lineEnd⟩
    refine ⟨.lineComment (Byte.semicolon :: body) :: .blank b :: ts, ?_,
      isSilent_cons ⟨rfl, rfl⟩ (isSilent_cons ⟨rfl, rfl⟩ hsilent), ?_⟩
    · rw [List.flatMap_cons, List.flatMap_cons, htext]
      rfl
    · rw [List.cons_append, List.append_assoc]
      exact hcut.trans (congrArg _ (hblank.trans (congrArg _ hts)))
  | @blockComment body t inside _ ih =>
    obtain ⟨ts, htext, hsilent, hts⟩ := ih
    have hfits : (Piece.blockComment (Comment.opener ++ body ++ Comment.closer)).Fits
        (t ++ after) := ⟨body, inside, rfl⟩
    have hcut := hfits.pieces_append
    refine ⟨.blockComment (Comment.opener ++ body ++ Comment.closer) :: ts, ?_,
      isSilent_cons ⟨rfl, rfl⟩ hsilent, ?_⟩
    · rw [List.flatMap_cons, htext]
      rfl
    · rw [List.append_assoc]
      exact hcut.trans (congrArg _ hts)

theorem ends {t after : Bytes} (h : Trivia t) (hafter : Ends after) : Ends (t ++ after) := by
  cases h with
  | nil => exact hafter
  | blank blank _ =>
    intro c hc
    cases hc
    simp [Byte.isSymbolEnd, blank]
  | lineComment _ _ _ =>
    intro c hc
    cases hc
    rfl
  | blockComment _ _ =>
    intro c hc
    cases hc
    rfl

end Trivia

theorem Ends.congr {s t : Bytes} (h : Ends s) (hhead : t.head? = s.head?) : Ends t := by
  rwa [Ends, hhead]

namespace Piece

theorem Fits.congr {p : Piece} {rest rest' : Bytes} (h : p.Fits rest)
    (hhead : rest'.head? = rest.head?) : p.Fits rest' := by
  cases p with
  | blank b => exact h
  | lineComment text =>
    obtain ⟨body, htext, hbody, hrest⟩ := h
    exact ⟨body, htext, hbody, hhead ▸ hrest⟩
  | blockComment text => exact h
  | openComment text =>
    obtain ⟨hrest, hbody⟩ := h
    rw [hrest] at hhead
    exact ⟨List.head?_eq_none_iff.mp hhead, hbody⟩
  | lparen => exact fun hs => h (hhead ▸ hs)
  | rparen => trivial
  | atSign => trivial
  | number s =>
    obtain ⟨hrun, hstart⟩ := h
    exact ⟨⟨hrun.all, hrun.longest.congr hhead⟩, hstart⟩
  | symbol s =>
    obtain ⟨hrun, hstart⟩ := h
    exact ⟨⟨hrun.all, hrun.longest.congr hhead⟩, hstart⟩
  | stray b => exact h.imp id fun h => ⟨h.1, hhead ▸ h.2⟩

theorem AllFit.replace {ps rest rest' : List Piece} {p : Piece} (h : AllFit (ps ++ p :: rest))
    (hp : p.text ≠ []) (hfits : p.Fits (rest'.flatMap text)) (hrest : AllFit rest') :
    AllFit (ps ++ p :: rest') := by
  induction ps with
  | nil => exact ⟨hfits, hrest⟩
  | cons q ps ih =>
    have hhead : ((ps ++ p :: rest').flatMap text).head? =
        ((ps ++ p :: rest).flatMap text).head? := by
      obtain ⟨b, s, hs⟩ := List.exists_cons_of_ne_nil hp
      rw [List.flatMap_append, List.flatMap_append, List.flatMap_cons, List.flatMap_cons, hs]
      cases ps.flatMap text <;> rfl
    exact ⟨h.1.congr hhead, ih h.2⟩

theorem fits_trivia {p : Piece} {t after : Bytes} {l : Lexeme} (h : p.Fits after)
    (hl : p.lexeme? = some l) (ht : Trivia t)
    (hparen : l = .lparen → t.head? ≠ some Byte.semicolon) : p.Fits (t ++ after) := by
  cases p with
  | lparen =>
    cases t with
    | nil => exact h
    | cons b t => exact hparen (Option.some.inj hl).symm
  | rparen => trivial
  | atSign => trivial
  | number s => exact ⟨⟨h.1.all, ht.ends h.1.longest⟩, h.2⟩
  | symbol s => exact ⟨⟨h.1.all, ht.ends h.1.longest⟩, h.2⟩
  | _ => cases hl

end Piece

section Moved

-- How places of one reading answer to places of another one.
variable (moved : Loc → Loc → Prop)

structure Diagnostic.Moved (d d' : Diagnostic) : Prop where
  severity : d'.severity = d.severity
  message : d'.message = d.message
  loc : moved d.loc d'.loc

structure Token.Moved (t t' : Token) : Prop where
  lexeme : t'.lexeme = t.lexeme
  loc : moved t.loc t'.loc

structure Reading.Moved (r r' : Reading) : Prop where
  faults : List.Forall₂ (Diagnostic.Moved moved) r.faults r'.faults
  token : r.token.Moved moved r'.token

structure Scan.Moved (a b : Scan) : Prop where
  readings : List.Forall₂ (Reading.Moved moved) a.readings b.readings
  endFaults : List.Forall₂ (Diagnostic.Moved moved) a.endFaults b.endFaults

variable {moved}

theorem Scan.Moved.prepend {a b : Scan} {faults faults' : List Diagnostic} (h : a.Moved moved b)
    (hfaults : List.Forall₂ (Diagnostic.Moved moved) faults faults') :
    (a.prepend faults).Moved moved (b.prepend faults') := by
  obtain ⟨readings, endFaults, endLoc⟩ := a
  obtain ⟨readings', endFaults', endLoc'⟩ := b
  obtain ⟨hreadings, hend⟩ := h
  dsimp only at hreadings hend
  cases hreadings with
  | nil => exact ⟨.nil, List.rel_append hfaults hend⟩
  | cons hfirst hrest =>
    exact ⟨.cons ⟨List.rel_append hfaults hfirst.faults, hfirst.token⟩ hrest, hend⟩

theorem Scan.moved_place {ps : List Piece} {l l' : Loc}
    (h : ∀ mid rest, ps.flatMap Piece.text = mid ++ rest → moved (l.after mid) (l'.after mid))
    (endLoc endLoc' : Loc) :
    (ofPieces endLoc (PlacedPiece.place l ps)).Moved moved
      (ofPieces endLoc' (PlacedPiece.place l' ps)) := by
  induction ps generalizing l l' with
  | nil => exact ⟨.nil, .nil⟩
  | cons p ps ih =>
    have hhere : moved l l' := h [] _ rfl
    have hbehind (mid rest : Bytes) (hmid : ps.flatMap Piece.text = mid ++ rest) :
        moved ((l.after p.text).after mid) ((l'.after p.text).after mid) := by
      have hmid' := h (p.text ++ mid) rest (by rw [List.flatMap_cons, hmid, List.append_assoc])
      rwa [Loc.after_append, Loc.after_append] at hmid'
    have hrest := ih hbehind
    have hfaults : List.Forall₂ (Diagnostic.Moved moved) (PlacedPiece.diagnostics ⟨p, l⟩)
        (PlacedPiece.diagnostics ⟨p, l'⟩) := by
      rw [PlacedPiece.diagnostics, PlacedPiece.diagnostics]
      cases p.fault? with
      | none => exact .nil
      | some fault => exact .cons ⟨rfl, rfl, hhere⟩ .nil
    change (Scan.cons _ _).Moved moved (Scan.cons _ _)
    rw [Scan.cons, Scan.cons, PlacedPiece.token?, PlacedPiece.token?]
    cases p.lexeme? with
    | none => exact hrest.prepend hfaults
    | some lexeme =>
      exact ⟨.cons ⟨hfaults, rfl, hhere⟩ hrest.readings, hrest.endFaults⟩

end Moved

namespace Reader

theorem Advances.drains {r r' last : Reader} {readings more : List Reading}
    {endFaults : List Diagnostic} (h : Advances r readings r')
    (hrest : Drains r' more endFaults last) : Drains r (readings ++ more) endFaults last := by
  induction h with
  | stay r => exact hrest
  | read next _ ih => exact .read next (ih hrest)

theorem next_silent {ts : List Piece} (h : ∀ p ∈ ts, p.IsSilent) (loc endLoc : Loc)
    (ps : List PlacedPiece) :
    next ⟨PlacedPiece.place loc ts ++ ps, endLoc, none⟩ = next ⟨ps, endLoc, none⟩ := by
  have hsilent : ∀ q ∈ PlacedPiece.place loc ts, q.piece.IsSilent := fun q hq =>
    h q.piece (PlacedPiece.map_piece_place loc ts ▸ List.mem_map_of_mem hq)
  have htokens : ∀ q ∈ PlacedPiece.place loc ts, q.token? = none := fun q hq => by
    rw [PlacedPiece.token?, (hsilent q hq).lexeme]
    rfl
  have hfaults : (PlacedPiece.place loc ts).flatMap PlacedPiece.diagnostics = [] := by
    refine List.flatMap_eq_nil_iff.mpr fun q hq => ?_
    rw [PlacedPiece.diagnostics, (hsilent q hq).fault]
    rfl
  rw [next_of_no_token htokens, hfaults]
  rfl

theorem Drains.of_next_eq {r r' last : Reader} {readings : List Reading}
    {endFaults : List Diagnostic} (h : Drains r readings endFaults last)
    (hnext : r'.next = r.next) : Drains r' readings endFaults last := by
  cases h with
  | stop next => exact .stop (hnext.trans next)
  | read next rest => exact .read (hnext.trans next) rest

theorem pieces_put {source t after : Bytes} {ps : List Piece} {loc : Loc}
    {readings : List Reading} (hpieces : TermRules.pieces source = ps ++ TermRules.pieces after)
    (hall : DeliversAll (PlacedPiece.place loc ps) readings) (ht : Trivia t)
    (hparen : ∀ reading, readings.getLast? = some reading → reading.token.lexeme = .lparen →
      t.head? ≠ some Byte.semicolon) :
    TermRules.pieces (ps.flatMap Piece.text ++ t ++ after) =
      ps ++ TermRules.pieces (t ++ after) := by
  have hfit := (Piece.partition_pieces source).fit
  rw [hpieces] at hfit
  have hrest := (Piece.partition_pieces (t ++ after)).fit
  have hpartition : Piece.Partition (ps ++ TermRules.pieces (t ++ after))
      (ps.flatMap Piece.text ++ t ++ after) := by
    constructor
    · rw [List.flatMap_append, pieces_text, List.append_assoc]
    rcases hall.exists_last with ⟨hnil, -⟩ | ⟨qs, p, reading, hplace, hlast, htoken⟩
    · cases ps with
      | nil => exact hrest
      | cons p ps => cases hnil
    · -- The piece before the trivia is the token that was read last.
      obtain ⟨front, back, rfl, -, hback⟩ := PlacedPiece.place_eq_append hplace
      obtain ⟨q, rfl, rfl⟩ : ∃ q, back = [q] ∧ p.piece = q := by
        cases back with
        | nil => cases hback
        | cons q back =>
          obtain ⟨rfl, hnil⟩ := List.cons.inj hback
          cases back with
          | nil => exact ⟨q, rfl, rfl⟩
          | cons => cases hnil
      rw [List.append_assoc, List.singleton_append] at hpieces hfit ⊢
      obtain ⟨l, hl, htoken⟩ := Option.map_eq_some_iff.mp htoken
      have hfits := hfit.append_right.1
      rw [pieces_text] at hfits
      have hmem : p.piece ∈ TermRules.pieces source := by simp [hpieces]
      refine hfit.replace (text_ne_nil_of_mem_pieces hmem) ?_ hrest
      rw [pieces_text]
      exact Piece.fits_trivia hfits hl ht fun hlparen =>
        hparen reading hlast ((congrArg Token.lexeme htoken).symm.trans hlparen)
  exact hpartition.eq_pieces.symm

end Reader

/-- The second place is behind the same bytes as the first one and some more, put in behind
`before`. -/
def Loc.Shifted (file : UInt32) (before put after : Bytes) (l l' : Loc) : Prop :=
  ∃ mid rest, after = mid ++ rest ∧ l = (start file).after (before ++ mid) ∧
    l' = (start file).after (before ++ put ++ mid)

namespace Reader

/-- The bytes put in behind `before` are passed over: the readings before them are the same, and
those behind them have the same lexemes and messages at places moved by those bytes. -/
structure PassesOver (file : UInt32) (before put after : Bytes) (readings : List Reading) :
    Prop where
  advances : Advances (ofSource file (before ++ put ++ after)) readings
    (between file before (put ++ after))
  drains : ∃ more endFaults last more' endFaults' last',
    Drains (ofSource file (before ++ after)) (readings ++ more) endFaults last ∧
      Drains (ofSource file (before ++ put ++ after)) (readings ++ more') endFaults' last' ∧
      List.Forall₂ (Reading.Moved (Loc.Shifted file before put after)) more more' ∧
      List.Forall₂ (Diagnostic.Moved (Loc.Shifted file before put after)) endFaults endFaults' ∧
      Loc.Shifted file before put after last.endLoc last'.endLoc

/-- Trivia between two tokens changes no token, no literal and no message. What is read before it
stays where it was, and what is read behind it moves by its length. -/
theorem advances_trivia {file : UInt32} {source t : Bytes} {readings : List Reading} {r : Reader}
    (h : Advances (ofSource file source) readings r) (ht : Trivia t)
    (hparen : ∀ reading, readings.getLast? = some reading → reading.token.lexeme = .lparen →
      t.head? ≠ some Byte.semicolon) :
    ∃ before after, source = before ++ after ∧ r = between file before after ∧
      PassesOver file before t after readings := by
  obtain ⟨ps, after, hpieces, hsource, hall, rfl⟩ := h.exists_between
  let before := ps.flatMap Piece.text
  have hput := pieces_put hpieces hall ht hparen
  obtain ⟨ts, htext, hsilent, hts⟩ := ht.pieces_append after
  have hadvances : Advances (ofSource file (before ++ t ++ after)) readings
      (between file before (t ++ after)) := by
    rw [ofSource, hput, PlacedPiece.place_append, List.append_assoc, Loc.after_append]
    exact hall.advances _ _
  refine ⟨before, after, hsource, rfl, hadvances, ?_⟩
  subst hsource
  let start := (Loc.start file).after before
  have hbehind (mid rest : Bytes)
      (hmid : (TermRules.pieces after).flatMap Piece.text = mid ++ rest) :
      Loc.Shifted file before t after (start.after mid) ((start.after t).after mid) := by
    rw [pieces_text] at hmid
    refine ⟨mid, rest, hmid, (Loc.after_append _ before mid).symm, ?_⟩
    rw [Loc.after_append, Loc.after_append]
  have hmoved := Scan.moved_place hbehind (start.after after) (start.after (t ++ after))
  have hnext : (between file before (t ++ after)).next =
      next ⟨PlacedPiece.place (start.after t) (TermRules.pieces after),
        start.after (t ++ after), none⟩ := by
    rw [between, hts, PlacedPiece.place_append, htext]
    exact next_silent hsilent _ _ _
  refine ⟨_, _, _, _, _, _, h.drains (drains_ofPieces _ _),
    hadvances.drains ((drains_ofPieces _ _).of_next_eq hnext), hmoved.readings, hmoved.endFaults,
    after, [], (List.append_nil _).symm, (Loc.after_append _ before after).symm, ?_⟩
  rw [List.append_assoc]
  exact (Loc.after_append _ before (t ++ after)).symm

/-- A blank, a nested comment and a line comment between a parenthesis and a number. -/
theorem advances_trivia_nested :
    let nested : Bytes := Comment.opener ++ [98] ++ Comment.closer
    let comment : Bytes := Comment.opener ++ (97 :: nested) ++ Comment.closer
    let line : Bytes := Byte.semicolon :: [120, Byte.newline]
    let t : Bytes := Byte.space :: (comment ++ line)
    ∃ readings r, Advances (ofSource 0 (ascii "(-7")) readings r ∧ Trivia t ∧
      (∀ reading, readings.getLast? = some reading → reading.token.lexeme = .lparen →
        t.head? ≠ some Byte.semicolon) ∧
      ∃ before after, ascii "(-7" = before ++ after ∧ r = between 0 before after ∧
        PassesOver 0 before t after readings := by
  intro nested comment line t
  have h : Advances (ofSource 0 (ascii "(-7")) [⟨[], .lparen, 0, 1, 1⟩]
      ⟨[⟨.number (ascii "-7"), 0, 1, 2⟩], ⟨0, 1, 4⟩, none⟩ :=
    .read (by decide +kernel) (.stay _)
  have hbyte {b : UInt8} (hb : b ≠ Byte.lparen) (hb' : b ≠ Byte.semicolon) (s : Bytes) :
      ¬Comment.StartsMark (b :: s) := by
    simp [Comment.StartsMark, Comment.opener, Comment.closer, hb.symm, hb'.symm]
  have hnested : Comment.Inside nested :=
    .comment (.byte (hbyte (by decide) (by decide) _) .nil) .nil
  have hinside : Comment.Inside (97 :: nested) := .byte (hbyte (by decide) (by decide) _) hnested
  have hbody : ∀ c ∈ [(120 : UInt8)], Byte.endsLine c = false := by
    intro c hc
    rw [List.mem_singleton.mp hc]
    rfl
  have hline : Trivia line := .lineComment hbody rfl .nil
  have ht : Trivia t := .blank rfl (.blockComment hinside hline)
  have hparen : ∀ reading, [(⟨[], .lparen, 0, 1, 1⟩ : Reading)].getLast? = some reading →
      reading.token.lexeme = .lparen → t.head? ≠ some Byte.semicolon := by
    intro _ _ _
    decide
  exact ⟨_, _, h, ht, hparen, advances_trivia h ht hparen⟩

end Reader

end TermRules

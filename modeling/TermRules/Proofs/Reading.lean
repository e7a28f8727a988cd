import TermRules.Proofs.Recovery

/-!
# What a text stands for

A text without errors stands for a list of definitions, which depends on its
lexemes alone and not on the places where they stand. Two such texts with a
newline between them stand for the definitions of both: no piece, no item and no
comment crosses the newline.
-/

namespace TermRules

namespace Scan

theorem tokens_ofPieces (endLoc : Loc) (ps : List PlacedPiece) :
    (ofPieces endLoc ps).tokens = ps.filterMap PlacedPiece.token? := by
  induction ps with
  | nil => rfl
  | cons p ps ih =>
    have hcons : ofPieces endLoc (p :: ps) = (ofPieces endLoc ps).cons p := rfl
    rw [hcons, List.filterMap_cons, ← ih, cons]
    cases p.token? with
    | some t => rfl
    | none =>
      rw [prepend]
      cases hr : (ofPieces endLoc ps).readings <;> simp [tokens, hr]

theorem diagnostics_ofPieces (endLoc : Loc) (ps : List PlacedPiece) :
    (ofPieces endLoc ps).diagnostics = ps.flatMap PlacedPiece.diagnostics := by
  induction ps with
  | nil => rfl
  | cons p ps ih =>
    have hcons : ofPieces endLoc (p :: ps) = (ofPieces endLoc ps).cons p := rfl
    rw [hcons, List.flatMap_cons, ← ih, cons]
    cases p.token? with
    | some t => rfl
    | none =>
      rw [prepend]
      cases hr : (ofPieces endLoc ps).readings <;> simp [diagnostics, faults, hr]

end Scan

def lexemes (text : Bytes) : List Lexeme := (pieces text).filterMap Piece.lexeme?

def lexicalFaults (text : Bytes) : List LexicalFault := (pieces text).filterMap Piece.fault?

theorem lexemes_place (loc : Loc) (ps : List Piece) :
    ((PlacedPiece.place loc ps).filterMap PlacedPiece.token?).map Token.lexeme =
      ps.filterMap Piece.lexeme? := by
  induction ps generalizing loc with
  | nil => rfl
  | cons p ps ih =>
    rw [PlacedPiece.place, List.filterMap_cons, List.filterMap_cons, ← ih (loc.after p.text)]
    cases h : p.lexeme? <;> simp [PlacedPiece.token?, h]

theorem diagnostics_place (loc : Loc) (ps : List Piece) :
    (PlacedPiece.place loc ps).flatMap PlacedPiece.diagnostics = [] ↔
      ps.filterMap Piece.fault? = [] := by
  induction ps generalizing loc with
  | nil => simp [PlacedPiece.place]
  | cons p ps ih =>
    rw [PlacedPiece.place, List.flatMap_cons, List.filterMap_cons, List.append_eq_nil_iff, ih]
    cases h : p.fault? <;> simp [PlacedPiece.diagnostics, h]

theorem lexemes_tokens_ofSource (file : UInt32) (text : Bytes) :
    (Scan.ofSource file text).tokens.map Token.lexeme = lexemes text := by
  rw [Scan.ofSource, Scan.tokens_ofPieces, lexemes_place, lexemes]

theorem diagnostics_ofSource (file : UInt32) (text : Bytes) :
    (Scan.ofSource file text).diagnostics = [] ↔ lexicalFaults text = [] := by
  rw [Scan.ofSource, Scan.diagnostics_ofPieces, diagnostics_place, lexicalFaults]

theorem interleave_eq_nil (scanned : List (Nat × List Diagnostic)) (failures : List SyntaxFailure) :
    interleave scanned failures = [] ↔ (∀ p ∈ scanned, p.2 = []) ∧ failures = [] := by
  induction scanned generalizing failures with
  | nil => simp [interleave]
  | cons p scanned ih =>
    obtain ⟨remaining, faults⟩ := p
    rw [interleave, List.append_eq_nil_iff, List.append_eq_nil_iff, List.map_eq_nil_iff, ih,
      List.forall_mem_cons]
    constructor
    · rintro ⟨⟨hfaults, htake⟩, hscanned, hdrop⟩
      refine ⟨⟨hfaults, hscanned⟩, ?_⟩
      rw [← List.takeWhile_append_dropWhile (p := (·.remaining = remaining)) (l := failures),
        htake, hdrop]
      rfl
    · rintro ⟨⟨hfaults, hscanned⟩, rfl⟩
      exact ⟨⟨hfaults, rfl⟩, hscanned, rfl⟩

theorem faultsByRemaining_eq_nil (scan : Scan) :
    (∀ p ∈ scan.faultsByRemaining, p.2 = []) ↔ scan.diagnostics = [] := by
  rw [Scan.diagnostics, List.flatten_eq_nil_iff, Scan.faultsByRemaining]
  have hfst :
      ((List.range scan.faults.length).reverse.zip scan.faults).map Prod.snd = scan.faults :=
    List.map_snd_zip (by simp)
  constructor
  · intro h faults hfaults
    rw [← hfst] at hfaults
    obtain ⟨p, hp, rfl⟩ := List.mem_map.mp hfaults
    exact h p hp
  · intro h p hp
    exact h p.2 (hfst ▸ List.mem_map_of_mem hp)

namespace Parse

section Relocation

variable (move : Loc → Loc)

theorem splitGroup_relocate (d : Int) (ts : List Token) :
    splitGroup d (ts.map (Token.relocate move)) =
      (splitGroup d ts).map (Prod.map (List.map (Token.relocate move))
        (List.map (Token.relocate move))) := by
  induction ts generalizing d with
  | nil => rfl
  | cons t ts ih =>
    rw [List.map_cons, splitGroup, splitGroup]
    change (if Cursor.depthAfter d t.lexeme = 0 then _ else _) = _
    split_ifs
    · rfl
    · change Option.map _ (splitGroup (Cursor.depthAfter d t.lexeme) _) = _
      rw [ih, Option.map_map, Option.map_map]
      rfl

def Item.relocate : Item → Item
  | .stray t => .stray (t.relocate move)
  | .group tokens => .group (tokens.map (Token.relocate move))
  | .unclosed tokens => .unclosed (tokens.map (Token.relocate move))

theorem cut_relocate (ts : List Token) :
    cut (ts.map (Token.relocate move)) = (cut ts).map (Item.relocate move) := by
  induction ts using cut_induction with
  | nil => rw [List.map_nil, cut_nil, List.map_nil]
  | stray t ts ht ih =>
    rw [List.map_cons, cut_stray (t := t.relocate move) ht, cut_stray ht, ih, List.map_cons]
    rfl
  | group t g rest ht hs ih =>
    have hs' := splitGroup_relocate move 1 (g ++ rest)
    rw [hs] at hs'
    rw [List.map_cons, cut_group (t := t.relocate move) ht hs', cut_group ht hs, List.map_cons]
    exact congrArg (_ :: ·) ih
  | unclosed t ts ht hs =>
    have hs' := splitGroup_relocate move 1 ts
    rw [hs] at hs'
    rw [List.map_cons, cut_unclosed (t := t.relocate move) ht hs', cut_unclosed ht hs,
      List.map_singleton]
    rfl

theorem outcome_relocate (ts : List Token) (endLoc : Loc) :
    ∀ i ∈ cut ts, (i.relocate move).outcome (move endLoc) = (i.outcome endLoc).relocate move := by
  intro i hi
  have hi := yields_outcome ts endLoc i hi
  generalize ho : i.outcome endLoc = o at hi
  rw [← ho]
  cases hi with
  | stray ht =>
    rename_i t
    have ht' : (t.relocate move).lexeme ≠ .lparen := ht
    rw [Item.relocate, Item.outcome, Item.outcome, Item.tokens, Item.tokens, Cursor.ofTokens,
      Cursor.ofTokens, item_stray ht, item_stray ht']
    rfl
  | @group t ts _ ht closed =>
    obtain ⟨-, hsame⟩ := item_group (toTheEnd move 0 endLoc) rfl ht closed
    rw [left_toTheEnd, right_toTheEnd] at hsame
    exact hsame
  | @unclosed t ts _ level ht hlevel still_open =>
    obtain ⟨-, e, hleft, hright⟩ := item_unclosed (toTheEnd move level endLoc) hlevel ht still_open
    rw [left_toTheEnd] at hleft
    rw [right_toTheEnd] at hright
    exact hright.trans (congrArg (Outcome.relocate move) hleft).symm

theorem outcomes_relocate (ts : List Token) (endLoc : Loc) :
    outcomes (ts.map (Token.relocate move)) (move endLoc) =
      (outcomes ts endLoc).map (Outcome.relocate move) := by
  rw [outcomes_eq, outcomes_eq, cut_relocate, List.map_map, List.map_map]
  exact List.map_congr_left (outcome_relocate move ts endLoc)

end Relocation

def Closed (ts : List Token) : Prop := ∀ us, Item.unclosed us ∉ cut ts

theorem Closed.cut_append {ts : List Token} (h : Closed ts) (us : List Token) :
    cut (ts ++ us) = cut ts ++ cut us := by
  induction ts using cut_induction with
  | nil => rw [cut_nil]; rfl
  | stray t ts ht ih =>
    rw [Closed, cut_stray ht] at h
    rw [List.cons_append, cut_stray ht, cut_stray ht, List.cons_append,
      ih fun us hus => h us (List.mem_cons_of_mem _ hus)]
  | group t g rest ht hs ih =>
    rw [Closed, cut_group ht hs] at h
    have hs' := splitGroup_of_inside (by decide) (inside_of_splitGroup (by decide) hs) (rest ++ us)
    rw [List.cons_append, List.append_assoc, cut_group ht hs', cut_group ht hs, List.cons_append,
      ih fun us hus => h us (List.mem_cons_of_mem _ hus)]
  | unclosed t ts ht hs =>
    rw [Closed, cut_unclosed ht hs] at h
    exact absurd (List.mem_singleton_self _) (h _)

theorem closed_of_outcomes {ts : List Token} (endLoc : Loc)
    (h : ∀ o ∈ outcomes ts endLoc, ∃ d, o = .ok d) : Closed ts := by
  intro us hus
  have hyields := yields_outcome ts endLoc _ hus
  obtain ⟨d, hd⟩ := h ((Item.unclosed us).outcome endLoc) (by
    rw [outcomes_eq]
    exact List.mem_map_of_mem hus)
  rw [hd] at hyields
  cases hyields

end Parse

def nowhere : Loc → Loc := fun _ => .unknown

def bareTokens (text : Bytes) : List Token := (lexemes text).map (Token.mk · .unknown)

/-- The text has no error and stands for the definitions, their places left open. -/
structure Reads (text : Bytes) (ds : List Definition) : Prop where
  lexical : lexicalFaults text = []
  syntactic : Parse.outcomes (bareTokens text) .unknown = ds.map .ok

theorem relocate_tokens_ofSource (file : UInt32) (text : Bytes) :
    (Scan.ofSource file text).tokens.map (Token.relocate nowhere) = bareTokens text := by
  rw [bareTokens, ← lexemes_tokens_ofSource file text, List.map_map]
  rfl

theorem outcomes_ofSource (file : UInt32) (text : Bytes) :
    let scan := Scan.ofSource file text
    Parse.outcomes (bareTokens text) .unknown =
      (Parse.outcomes scan.tokens scan.endLoc).map (Parse.Outcome.relocate nowhere) := by
  intro scan
  rw [← relocate_tokens_ofSource file text]
  exact Parse.outcomes_relocate nowhere scan.tokens scan.endLoc

theorem diagnostics_parseFile (file : UInt32) (text : Bytes) :
    (parseFile file text).diagnostics = [] ↔
      lexicalFaults text = [] ∧ (parseFile file text).failures = [] := by
  rw [parseFile, interleave_eq_nil, faultsByRemaining_eq_nil, diagnostics_ofSource]

theorem map_relocate_eq_map_ok {os : List Parse.Outcome} {ds : List Definition} (move : Loc → Loc) :
    os.map (Parse.Outcome.relocate move) = ds.map .ok ↔
      (¬∃ e, .error e ∈ os) ∧
        (os.filterMap Except.toOption).map (Definition.relocate move) = ds := by
  induction os generalizing ds with
  | nil => simp [eq_comm]
  | cons o os ih =>
    cases o with
    | error e =>
      refine iff_of_false (fun h => ?_) fun h => h.1 ⟨e, List.mem_cons_self⟩
      cases ds with
      | nil => cases h
      | cons d ds => cases (List.cons.inj h).1
    | ok d =>
      cases ds with
      | nil => simp [Except.toOption]
      | cons d' ds =>
        rw [List.map_cons, List.map_cons, List.cons.injEq, ih]
        simp [Except.toOption, Parse.Outcome.relocate, and_left_comm]

theorem parseFile_iff_reads (file : UInt32) (text : Bytes) (ds : List Definition) :
    ((parseFile file text).diagnostics = [] ∧
      (parseFile file text).definitions.map (Definition.relocate nowhere) = ds) ↔
      Reads text ds := by
  let scan := Scan.ofSource file text
  let results := (Parse.items (.ofTokens scan.tokens scan.endLoc)).1
  have hfailures : (parseFile file text).failures = [] ↔
      ¬∃ e, .error e ∈ Parse.outcomes scan.tokens scan.endLoc :=
    not_iff_not.mp (by rw [not_not]; exact Parse.failuresOf_ne_nil results)
  have hdefinitions : (parseFile file text).definitions =
      (Parse.outcomes scan.tokens scan.endLoc).filterMap Except.toOption :=
    Parse.definitionsOf_eq results
  rw [diagnostics_parseFile, hfailures, hdefinitions, and_assoc, ← map_relocate_eq_map_ok,
    ← outcomes_ofSource file text]
  exact ⟨fun ⟨hl, hs⟩ => ⟨hl, hs⟩, fun h => ⟨h.lexical, h.syntactic⟩⟩

theorem splitComment_append {depth : Nat} {s c t : Bytes}
    (h : splitComment depth s = some (c, t)) (u : Bytes) :
    splitComment depth (s ++ u) = some (c, t ++ u) := by
  fun_induction splitComment depth s generalizing c t with
  | case1 s =>
    cases h
    cases s <;> cases u <;> rfl
  | case2 => cases h
  | case3 depth s ih =>
    obtain ⟨⟨c', t'⟩, h', he⟩ := Option.map_eq_some_iff.mp h
    cases he
    rw [List.cons_append, List.cons_append, splitComment, ih h']
    rfl
  | case4 depth s ih =>
    obtain ⟨⟨c', t'⟩, h', he⟩ := Option.map_eq_some_iff.mp h
    cases he
    rw [List.cons_append, List.cons_append, splitComment, ih h']
    rfl
  | case5 depth b s hopen hclose ih =>
    obtain ⟨⟨c', t'⟩, h', he⟩ := Option.map_eq_some_iff.mp h
    cases he
    cases s with
    | nil => cases h'
    | cons b' s =>
      rw [List.cons_append, splitComment, ih h']
      · rfl
      · intro v hb hv
        cases hv
        exact hopen s hb rfl
      · intro v hb hv
        cases hv
        exact hclose s hb rfl

section Seam

variable {p : UInt8 → Bool}

theorem takeWhile_append_newline (hp : p Byte.newline = false) (s u : Bytes) :
    (s ++ Byte.newline :: u).takeWhile p = s.takeWhile p := by
  induction s with
  | nil => exact List.takeWhile_cons_of_neg (by simp [hp])
  | cons b s ih => rw [List.cons_append, List.takeWhile_cons, List.takeWhile_cons, ih]

theorem dropWhile_append_newline (hp : p Byte.newline = false) (s u : Bytes) :
    (s ++ Byte.newline :: u).dropWhile p = s.dropWhile p ++ Byte.newline :: u := by
  induction s with
  | nil => exact List.dropWhile_cons_of_neg (by simp [hp])
  | cons b s ih =>
    rw [List.cons_append, List.dropWhile_cons, List.dropWhile_cons, ih]
    split_ifs <;> rfl

end Seam

theorem cutParen_append {s : Bytes} (h : (cutParen s).1.fault? ≠ some .unterminatedComment)
    (u : Bytes) :
    cutParen (s ++ Byte.newline :: u) = ((cutParen s).1, (cutParen s).2 ++ Byte.newline :: u) := by
  fun_cases cutParen s with
  | case1 s c t hc =>
    rw [List.cons_append, cutParen, splitComment_append hc]
  | case2 s hc =>
    rw [cutParen, hc] at h
    exact absurd rfl h
  | case3 s hs =>
    cases s with
    | nil => rfl
    | cons b s =>
      refine cutParen.eq_2 _ fun v hv => ?_
      cases hv
      exact hs s rfl

theorem startsNumber_append (b : UInt8) (s u : Bytes) :
    Byte.startsNumber b (s ++ Byte.newline :: u) = Byte.startsNumber b s := by
  cases s <;> rfl

theorem cutPiece_append {b : UInt8} {s : Bytes}
    (h : (cutPiece b s).1.fault? ≠ some .unterminatedComment) (u : Bytes) :
    cutPiece b (s ++ Byte.newline :: u) =
      ((cutPiece b s).1, (cutPiece b s).2 ++ Byte.newline :: u) := by
  rw [cutPiece] at h ⊢
  rw [cutPiece, startsNumber_append, takeWhile_append_newline rfl, takeWhile_append_newline rfl,
    dropWhile_append_newline rfl, dropWhile_append_newline rfl]
  split_ifs at h ⊢ with hblank hsemicolon hparen
  all_goals try rfl
  exact cutParen_append h u

theorem pieces_append {s : Bytes} (h : .unterminatedComment ∉ lexicalFaults s) (u : Bytes) :
    pieces (s ++ Byte.newline :: u) = pieces s ++ .blank Byte.newline :: pieces u := by
  fun_induction pieces s with
  | case1 =>
    rw [List.nil_append, pieces]
    rfl
  | case2 b s ih =>
    have hpieces : pieces (b :: s) = (cutPiece b s).1 :: pieces (cutPiece b s).2 := by rw [pieces]
    rw [lexicalFaults, hpieces, List.mem_filterMap] at h
    have hfirst : (cutPiece b s).1.fault? ≠ some .unterminatedComment := fun hf =>
      h ⟨_, List.mem_cons_self, hf⟩
    have hrest : .unterminatedComment ∉ lexicalFaults (cutPiece b s).2 := fun hf => by
      obtain ⟨p, hp, hpf⟩ := List.mem_filterMap.mp hf
      exact h ⟨p, List.mem_cons_of_mem _ hp, hpf⟩
    rw [List.cons_append, pieces, cutPiece_append hfirst, ih hrest, List.cons_append]

section Pair

variable {s : Bytes} (h : .unterminatedComment ∉ lexicalFaults s) (u : Bytes)
include h

theorem lexemes_append : lexemes (s ++ Byte.newline :: u) = lexemes s ++ lexemes u := by
  rw [lexemes, pieces_append h, List.filterMap_append]
  rfl

theorem lexicalFaults_append :
    lexicalFaults (s ++ Byte.newline :: u) = lexicalFaults s ++ lexicalFaults u := by
  rw [lexicalFaults, pieces_append h, List.filterMap_append]
  rfl

end Pair

theorem Reads.append {s t : Bytes} {ds es : List Definition} (hs : Reads s ds) (ht : Reads t es) :
    Reads (s ++ Byte.newline :: t) (ds ++ es) := by
  have hcomment : .unterminatedComment ∉ lexicalFaults s := by
    rw [hs.lexical]
    exact List.not_mem_nil
  have hclosed : Parse.Closed (bareTokens s) := by
    refine Parse.closed_of_outcomes .unknown fun o ho => ?_
    rw [hs.syntactic] at ho
    obtain ⟨d, -, rfl⟩ := List.mem_map.mp ho
    exact ⟨d, rfl⟩
  constructor
  · rw [lexicalFaults_append hcomment, hs.lexical, ht.lexical]
    rfl
  · have htokens : bareTokens (s ++ Byte.newline :: t) = bareTokens s ++ bareTokens t := by
      rw [bareTokens, lexemes_append hcomment, List.map_append, bareTokens, bareTokens]
    rw [htokens, Parse.outcomes_eq, hclosed.cut_append, List.map_append, List.map_append,
      ← hs.syntactic, ← ht.syntactic, Parse.outcomes_eq, Parse.outcomes_eq]

theorem Reads.joinWith {texts : List Bytes} {dss : List (List Definition)}
    (h : List.Forall₂ Reads texts dss) (hne : texts ≠ []) :
    Reads (joinWith [Byte.newline] texts) dss.flatten := by
  induction h with
  | nil => exact absurd rfl hne
  | @cons text ds texts dss hfirst hrest ih =>
    cases hrest with
    | nil => simpa [TermRules.joinWith] using hfirst
    | cons hsecond hrest =>
      simpa [TermRules.joinWith] using hfirst.append (ih (List.cons_ne_nil _ _))

end TermRules

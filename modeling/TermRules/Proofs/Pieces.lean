import Mathlib.Data.List.TakeWhile
import TermRules.Proofs.ScannedText

/-!
# Pieces

What a piece may be is said by its own bytes and by what follows it, and comments
nest. There is one way to cut a source into such pieces, and it is the one that
the scanner takes.
-/

namespace TermRules

namespace Comment

def opener : Bytes := [Byte.lparen, Byte.semicolon]

def closer : Bytes := [Byte.semicolon, Byte.rparen]

def StartsMark (s : Bytes) : Prop := opener <+: s ∨ closer <+: s

/-- The text between the two marks of a comment: nested comments and other bytes, none of which
opens or closes a comment together with the byte behind it. -/
inductive Inside : Bytes → Prop
  | nil : Inside []
  | byte {b : UInt8} {s : Bytes} (noMark : ¬StartsMark (b :: s ++ closer)) (rest : Inside s) :
      Inside (b :: s)
  | comment {s t : Bytes} (first : Inside s) (rest : Inside t) :
      Inside (opener ++ s ++ closer ++ t)

theorem startsMark_opener (s : Bytes) : StartsMark (Byte.lparen :: Byte.semicolon :: s) :=
  .inl ⟨s, rfl⟩

theorem startsMark_closer (s : Bytes) : StartsMark (Byte.semicolon :: Byte.rparen :: s) :=
  .inr ⟨s, rfl⟩

theorem startsMark_append {b : UInt8} {s : Bytes} (hs : s ≠ []) (t : Bytes) :
    StartsMark (b :: s ++ t) ↔ StartsMark (b :: s) := by
  cases s with
  | nil => exact absurd rfl hs
  | cons c s => simp [StartsMark, opener, closer]

theorem splitComment_opener (depth : Nat) (s : Bytes) :
    splitComment (depth + 1) (opener ++ s) =
      (splitComment (depth + 2) s).map fun (c, t) => (opener ++ c, t) := rfl

theorem splitComment_closer (depth : Nat) (s : Bytes) :
    splitComment (depth + 1) (closer ++ s) =
      (splitComment depth s).map fun (c, t) => (closer ++ c, t) := rfl

theorem splitComment_byte {b : UInt8} {s : Bytes} (h : ¬StartsMark (b :: s)) (depth : Nat) :
    splitComment (depth + 1) (b :: s) =
      (splitComment (depth + 1) s).map fun (c, t) => (b :: c, t) := by
  apply splitComment.eq_5
  · intro rest hb hs
    subst hb hs
    exact h (startsMark_opener rest)
  · intro rest hb hs
    subst hb hs
    exact h (startsMark_closer rest)

theorem splitComment_inside {s : Bytes} (h : Inside s) (depth : Nat) (rest : Bytes) :
    splitComment (depth + 1) (s ++ closer ++ rest) =
      (splitComment depth rest).map fun (c, t) => (s ++ closer ++ c, t) := by
  induction h generalizing depth rest with
  | nil => rfl
  | @byte b s noMark _ ih =>
    have hne : s ++ closer ≠ [] := by simp [closer]
    have hmark : ¬StartsMark (b :: (s ++ closer ++ rest)) := fun h =>
      noMark ((startsMark_append hne rest).mp h)
    have hbyte := splitComment_byte hmark depth
    rw [ih, Option.map_map] at hbyte
    exact hbyte
  | @comment s t _ _ ihs iht =>
    have hopen : opener ++ s ++ closer ++ t ++ closer ++ rest =
        opener ++ (s ++ closer ++ (t ++ closer ++ rest)) := by
      simp only [List.append_assoc]
    rw [hopen, splitComment_opener, ihs, iht, Option.map_map, Option.map_map]
    congr 1
    funext p
    simp only [Function.comp_apply, List.append_assoc]

theorem exists_inside {depth : Nat} {s c t : Bytes}
    (h : splitComment (depth + 1) s = some (c, t)) :
    ∃ u w, Inside u ∧ c = u ++ closer ++ w ∧ splitComment depth (w ++ t) = some (w, t) := by
  generalize hn : s.length = n
  -- A nested comment is split off first, and then the rest behind it, which is shorter.
  induction n using Nat.strongRecOn generalizing depth s c with
  | ind n ih =>
    have htext := splitComment_text h
    cases s with
    | nil => cases h
    | cons b s =>
      by_cases hmark : StartsMark (b :: s)
      · rcases hmark with ⟨v, hv⟩ | ⟨v, hv⟩
        · rw [← hv, splitComment_opener] at h
          obtain ⟨⟨c', t'⟩, h', he⟩ := Option.map_eq_some_iff.mp h
          cases he
          have hv' : v.length < n := by
            rw [← hn, ← hv, List.length_append, opener, List.length_cons]
            omega
          obtain ⟨u, w, hu, rfl, hw⟩ := ih v.length hv' h' rfl
          have hlength := congrArg List.length (splitComment_text h')
          simp only [List.length_append] at hlength
          have hw' : (w ++ t).length < n := by
            rw [List.length_append]
            omega
          obtain ⟨u', w', hu', rfl, hrest⟩ := ih (w ++ t).length hw' hw rfl
          refine ⟨opener ++ u ++ closer ++ u', w', .comment hu hu', ?_, hrest⟩
          simp only [List.append_assoc]
        · rw [← hv, splitComment_closer] at h
          obtain ⟨⟨c', t'⟩, h', he⟩ := Option.map_eq_some_iff.mp h
          cases he
          exact ⟨[], c', .nil, rfl, by rw [splitComment_text h', h']⟩
      · rw [splitComment_byte hmark] at h
        obtain ⟨⟨c', t'⟩, h', he⟩ := Option.map_eq_some_iff.mp h
        cases he
        simp only [List.length_cons] at hn
        obtain ⟨u, w, hu, rfl, hw⟩ := ih s.length (by omega) h' rfl
        refine ⟨b :: u, w, .byte (fun hu => hmark ?_) hu, rfl, hw⟩
        have hs := splitComment_text h'
        have hne : u ++ closer ≠ [] := by simp [closer]
        have happend := (startsMark_append hne (w ++ t)).mpr hu
        rw [← hs]
        simpa using happend

theorem splitComment_one {s c t : Bytes} :
    splitComment 1 s = some (c, t) ↔ ∃ u, Inside u ∧ c = u ++ closer ∧ s = c ++ t := by
  constructor
  · intro h
    obtain ⟨u, w, hu, rfl, hw⟩ := exists_inside h
    rw [splitComment] at hw
    cases hw
    exact ⟨u, hu, List.append_nil _, (splitComment_text h).symm⟩
  · rintro ⟨u, hu, rfl, rfl⟩
    rw [splitComment_inside hu, splitComment]
    simp

theorem splitComment_one_eq_none {s : Bytes} :
    splitComment 1 s = none ↔ ∀ u v, s = u ++ closer ++ v → ¬Inside u := by
  rw [Option.eq_none_iff_forall_ne_some]
  constructor
  · intro h u v hs hu
    exact h (u ++ closer, v) (splitComment_one.mpr ⟨u, hu, rfl, hs⟩)
  · rintro h ⟨c, t⟩ hc
    obtain ⟨u, hu, rfl, hs⟩ := splitComment_one.mp hc
    exact h u t hs hu

end Comment

structure IsRun (s rest : Bytes) : Prop where
  all : ∀ b ∈ s, Byte.inSymbol b = true
  longest : Ends rest

namespace Piece

/-- The piece may stand in front of the rest. -/
def Fits : Piece → Bytes → Prop
  | .blank b, _ => Byte.isBlank b = true
  | .lineComment text, rest => ∃ body, text = Byte.semicolon :: body ∧
      (∀ b ∈ body, Byte.endsLine b = false) ∧ ∀ b ∈ rest.head?, Byte.endsLine b = true
  | .blockComment text, _ => ∃ body, Comment.Inside body ∧
      text = Comment.opener ++ body ++ Comment.closer
  | .openComment text, rest => rest = [] ∧ ∃ body, text = Comment.opener ++ body ∧
      ∀ u v, body = u ++ Comment.closer ++ v → ¬Comment.Inside u
  | .lparen, rest => rest.head? ≠ some Byte.semicolon
  | .rparen, _ => True
  | .atSign, _ => True
  | .number s, rest => IsRun s rest ∧ ∃ b t, s = b :: t ∧ Byte.startsNumber b t = true
  | .symbol s, rest => IsRun s rest ∧ ∃ b t, s = b :: t ∧ Byte.startsSymbol b = true
  | .stray b, rest => b = 0 ∨ b = Byte.minus ∧ ∀ c ∈ rest.head?, Byte.isDigit c = false

def AllFit : List Piece → Prop
  | [] => True
  | p :: ps => p.Fits (ps.flatMap text) ∧ AllFit ps

/-- The pieces are the source, one after the other, and each fits where it stands. -/
structure Partition (ps : List Piece) (source : Bytes) : Prop where
  text_eq : ps.flatMap text = source
  fit : AllFit ps

end Piece

section Runs

variable {p : UInt8 → Bool}

theorem head_dropWhile (s : Bytes) : ∀ b ∈ (s.dropWhile p).head?, p b = false := by
  intro b hb
  have h := List.head?_dropWhile_not p s
  rw [Option.mem_def.mp hb] at h
  exact h

theorem isRun_takeWhile {b : UInt8} (hb : Byte.inSymbol b = true) (s : Bytes) :
    IsRun (b :: s.takeWhile Byte.inSymbol) (s.dropWhile Byte.inSymbol) where
  all c hc := by
    rcases List.mem_cons.mp hc with rfl | hc
    · exact hb
    · exact List.mem_takeWhile_imp hc
  longest c hc := by
    have h := head_dropWhile s c hc
    rwa [Byte.inSymbol, Bool.not_eq_false'] at h

theorem takeWhile_append_of_head {s rest : Bytes} (hs : ∀ b ∈ s, p b = true)
    (hrest : ∀ b ∈ rest.head?, p b = false) :
    (s ++ rest).takeWhile p = s ∧ (s ++ rest).dropWhile p = rest := by
  rw [List.takeWhile_append_of_pos hs, List.dropWhile_append_of_pos hs]
  cases rest with
  | nil => simp
  | cons b rest =>
    have hb := hrest b rfl
    simp [hb]

theorem startsNumber_takeWhile (b : UInt8) (s : Bytes) :
    Byte.startsNumber b (s.takeWhile Byte.inSymbol) = Byte.startsNumber b s := by
  rw [Byte.startsNumber, Byte.startsNumber]
  cases s with
  | nil => rfl
  | cons c s =>
    by_cases hc : Byte.inSymbol c = true
    · simp [hc]
    · have hdigit : Byte.isDigit c = false := by
        by_contra h
        exact hc (inSymbol_of_isDigit (by simpa using h))
      simp [hc, hdigit]

end Runs

theorem eq_minus_of_stray {b : UInt8} {s : Bytes} (hb : Byte.inSymbol b = true)
    (hnumber : ¬Byte.startsNumber b s = true) (hsymbol : ¬Byte.startsSymbol b = true) :
    b = Byte.minus ∧ ∀ c ∈ s.head?, Byte.isDigit c = false := by
  simp only [Byte.startsNumber, Bool.or_eq_true, Bool.and_eq_true, not_or, not_and] at hnumber
  simp only [Byte.startsSymbol, hb, Bool.true_and, Bool.and_eq_true, bne_iff_ne, ne_eq,
    Bool.not_eq_true', not_and] at hsymbol
  have hminus : b = Byte.minus := by
    by_contra hne
    exact hnumber.1 (by simpa using hsymbol hne)
  refine ⟨hminus, fun c hc => ?_⟩
  have hhead := hnumber.2 (beq_iff_eq.mpr hminus)
  rw [Option.mem_def.mp hc] at hhead
  simpa using hhead

theorem cutParen_fits (s : Bytes) : (cutParen s).1.Fits (cutParen s).2 := by
  fun_cases cutParen s with
  | case1 s c t h =>
    obtain ⟨u, hu, rfl, -⟩ := Comment.splitComment_one.mp h
    exact ⟨u, hu, rfl⟩
  | case2 s h => exact ⟨rfl, s, rfl, Comment.splitComment_one_eq_none.mp h⟩
  | case3 s h =>
    intro hhead
    obtain ⟨t, rfl⟩ := List.head?_eq_some_iff.mp hhead
    exact h t rfl

theorem cutPiece_fits (b : UInt8) (s : Bytes) : (cutPiece b s).1.Fits (cutPiece b s).2 := by
  by_cases hblank : Byte.isBlank b = true
  · rw [cutPiece, if_pos hblank]
    exact hblank
  by_cases hsemicolon : b = Byte.semicolon
  · rw [cutPiece, if_neg hblank, if_pos hsemicolon]
    refine ⟨_, by rw [hsemicolon], fun c hc => ?_, fun c hc => ?_⟩
    · simpa using List.mem_takeWhile_imp hc
    · simpa using head_dropWhile s c hc
  by_cases hlparen : b = Byte.lparen
  · rw [cutPiece, if_neg hblank, if_neg hsemicolon, if_pos hlparen]
    exact cutParen_fits s
  by_cases hrparen : b = Byte.rparen
  · rw [cutPiece, if_neg hblank, if_neg hsemicolon, if_neg hlparen, if_pos hrparen]
    trivial
  by_cases hatSign : b = Byte.atSign
  · rw [cutPiece, if_neg hblank, if_neg hsemicolon, if_neg hlparen, if_neg hrparen, if_pos hatSign]
    trivial
  by_cases hsymbol : Byte.inSymbol b = true
  · rw [cutPiece_inSymbol hsymbol]
    split_ifs with hnumber hstart
    · refine ⟨isRun_takeWhile hsymbol s, b, _, rfl, ?_⟩
      rw [startsNumber_takeWhile, hnumber]
    · exact ⟨isRun_takeWhile hsymbol s, b, _, rfl, hstart⟩
    · exact .inr (eq_minus_of_stray hsymbol hnumber hstart)
  · -- Every other byte that ends a symbol was met above.
    have hzero : b = 0 := by
      simpa [Byte.inSymbol, Byte.isSymbolEnd, hblank, hsemicolon, hlparen, hrparen, hatSign]
        using hsymbol
    subst hzero
    exact .inl rfl

theorem cutParen_semicolon (s : Bytes) :
    cutParen (Byte.semicolon :: s) =
      ((splitComment 1 s).map fun (c, t) => (Piece.blockComment (Comment.opener ++ c), t)).getD
        (.openComment (Comment.opener ++ s), []) := by
  refine (cutParen.eq_1 s).trans ?_
  cases splitComment 1 s <;> rfl

theorem cutParen_eq {p : Piece} {s rest : Bytes} (htext : p.text ++ rest = Byte.lparen :: s)
    (hp : p = .lparen ∨ (∃ text, p = .blockComment text) ∨ ∃ text, p = .openComment text)
    (h : p.Fits rest) : cutParen s = (p, rest) := by
  rcases hp with rfl | ⟨text, rfl⟩ | ⟨text, rfl⟩
  · cases htext
    cases rest with
    | nil => rfl
    | cons c rest =>
      refine cutParen.eq_2 _ fun t ht => ?_
      cases ht
      exact h rfl
  · obtain ⟨body, hbody, rfl⟩ := h
    have hs : s = Byte.semicolon :: (body ++ Comment.closer ++ rest) := by
      simpa [Piece.text, Comment.opener] using htext.symm
    have hsplit : splitComment 1 (body ++ Comment.closer ++ rest) =
        some (body ++ Comment.closer, rest) :=
      Comment.splitComment_one.mpr ⟨body, hbody, rfl, rfl⟩
    rw [hs, cutParen_semicolon, hsplit]
    rfl
  · obtain ⟨rfl, body, rfl, hopen⟩ := h
    have hs : s = Byte.semicolon :: body := by
      simpa [Piece.text, Comment.opener] using htext.symm
    rw [hs, cutParen_semicolon, Comment.splitComment_one_eq_none.mpr hopen]
    rfl

/-- There is one way to cut a piece off that fits. -/
theorem cutPiece_eq {p : Piece} {b : UInt8} {s rest : Bytes} (htext : p.text ++ rest = b :: s)
    (h : p.Fits rest) : cutPiece b s = (p, rest) := by
  cases p with
  | blank c =>
    cases htext
    exact if_pos h
  | lineComment text =>
    obtain ⟨body, rfl, hbody, hrest⟩ := h
    cases htext
    have hinside : ∀ b ∈ body, (!Byte.endsLine b) = true := by simpa using hbody
    have hend : ∀ b ∈ rest.head?, (!Byte.endsLine b) = false := by simpa using hrest
    obtain ⟨htake, hdrop⟩ := takeWhile_append_of_head hinside hend
    change (Piece.lineComment (_ :: (body ++ rest).takeWhile _), (body ++ rest).dropWhile _) = _
    rw [htake, hdrop]
  | blockComment text =>
    have hb : b = Byte.lparen := by
      obtain ⟨body, -, rfl⟩ := h
      exact (List.cons.inj htext).1.symm
    subst hb
    exact cutParen_eq htext (.inr (.inl ⟨text, rfl⟩)) h
  | openComment text =>
    have hb : b = Byte.lparen := by
      obtain ⟨-, body, rfl, -⟩ := h
      exact (List.cons.inj htext).1.symm
    subst hb
    exact cutParen_eq htext (.inr (.inr ⟨text, rfl⟩)) h
  | lparen =>
    have hb : b = Byte.lparen := (List.cons.inj htext).1.symm
    subst hb
    exact cutParen_eq htext (.inl rfl) h
  | rparen =>
    cases htext
    rfl
  | atSign =>
    cases htext
    rfl
  | number spelling =>
    obtain ⟨hrun, c, t, rfl, hstart⟩ := h
    cases htext
    obtain ⟨htake, hdrop⟩ := span_ends (fun d hd => hrun.all d (List.mem_cons_of_mem b hd))
      hrun.longest
    have hnumber : Byte.startsNumber b (t ++ rest) = true := by
      rw [← startsNumber_takeWhile, htake, hstart]
    change cutPiece b (t ++ rest) = _
    rw [cutPiece_inSymbol (hrun.all b List.mem_cons_self), if_pos hnumber, htake, hdrop]
  | symbol spelling =>
    obtain ⟨hrun, c, t, rfl, hstart⟩ := h
    cases htext
    exact cutPiece_of_startsSymbol hstart (fun d hd => hrun.all d (List.mem_cons_of_mem b hd))
      hrun.longest
  | stray c =>
    cases htext
    rcases h with rfl | ⟨rfl, hhead⟩
    · rfl
    · have hnumber : ¬Byte.startsNumber Byte.minus rest = true := by
        cases rest with
        | nil => decide
        | cons d rest =>
          have hd := hhead d rfl
          simp [Byte.startsNumber, hd]
          decide
      change cutPiece Byte.minus rest = _
      rw [cutPiece_inSymbol rfl, if_neg hnumber]
      rfl

theorem Piece.partition_pieces (source : Bytes) : Partition (pieces source) source := by
  refine ⟨pieces_text source, ?_⟩
  fun_induction pieces source with
  | case1 => trivial
  | case2 b s ih =>
    refine ⟨?_, ih⟩
    rw [pieces_text]
    exact cutPiece_fits b s

theorem text_ne_nil_of_mem_pieces {p : Piece} {source : Bytes} (h : p ∈ pieces source) :
    p.text ≠ [] := by
  fun_induction pieces source with
  | case1 => cases h
  | case2 b s ih =>
    rcases List.mem_cons.mp h with rfl | h
    · exact text_ne_nil b s
    · exact ih h

theorem Piece.Partition.eq_pieces {ps : List Piece} {source : Bytes} (h : Partition ps source) :
    ps = pieces source := by
  obtain ⟨htext, hfit⟩ := h
  induction ps generalizing source with
  | nil =>
    rw [← htext, List.flatMap_nil, pieces]
  | cons p ps ih =>
    obtain ⟨hp, hps⟩ := hfit
    rw [List.flatMap_cons] at htext
    cases source with
    | nil =>
      have hnil := (List.append_eq_nil_iff.mp htext).1
      cases p <;> simp [Piece.text] at hnil
      all_goals simp [Piece.Fits, hnil, Comment.opener] at hp
    | cons b s =>
      rw [pieces, cutPiece_eq htext hp]
      exact congrArg (p :: ·) (ih rfl hps)

end TermRules

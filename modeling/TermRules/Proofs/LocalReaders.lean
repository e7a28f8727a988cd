import TermRules.Parse.Definition
import TermRules.Proofs.Frames

/-!
# Readers of patterns and expressions are local

Each reader of patterns and expressions agrees with itself in any two
surroundings: every step takes a token inside the parentheses or stops at one.
-/

namespace TermRules.Frame

open Relocatable Parse

variable {F : Frame} {ts : List Token} {d : Int}

theorem inList_end (c : Cursor) (h : c.tokens = []) : c.inList = false := by
  simp [Cursor.inList, Cursor.kind, Cursor.lexeme?, h]

theorem relocate_patternOfSymbol (move : Loc → Loc) (loc : Loc) (name : Bytes) :
    (patternOfSymbol loc name).relocate move = patternOfSymbol (move loc) name := by
  unfold patternOfSymbol
  split_ifs <;> rfl

theorem relocate_exprOfSymbol (move : Loc → Loc) (loc : Loc) (name : Bytes) :
    (exprOfSymbol loc name).relocate move = exprOfSymbol (move loc) name := by
  unfold exprOfSymbol
  split_ifs <;> rfl

theorem agree_patternWithin (h : F.Open ts d) (fuel fuel' : Nat) (hf : ts.length < fuel)
    (hf' : ts.length < fuel') :
    F.Agree ts d (patternWithin fuel) (patternWithin fuel') fun ts' d' =>
      d' = d ∧ ts'.length < ts.length := by
  induction fuel generalizing fuel' ts d with
  | zero => omega
  | succ fuel ih =>
    obtain ⟨fuel', rfl⟩ : ∃ n, fuel' = n + 1 := ⟨fuel' - 1, by omega⟩
    refine agree_get ?_
    rw [lexeme?_right h, loc_right h]
    cases hx : (F.left ts d).lexeme? with
    | none => exact agree_unexpected h _
    | some x =>
      obtain ⟨t, rest, rfl, rfl⟩ := exists_of_lexeme? h hx
      rw [List.length_cons] at hf hf'
      have hpos := h.pos
      cases hl : t.lexeme with
      | int n =>
        refine (agree_advance h d (by rw [hl]; rfl)).bind ?_
        rintro _ ts _ inside ⟨rfl, rfl⟩
        exact agree_pure inside rfl ⟨rfl, by simp⟩
      | symbol name =>
        refine (agree_advance h d (by rw [hl]; rfl)).bind ?_
        rintro _ ts _ inside ⟨rfl, rfl⟩
        refine agree_get ?_
        rw [kind_right ⟨hpos, inside⟩]
        split_ifs with hat
        · rw [Bool.and_eq_true, decide_eq_true_eq] at hat
          obtain ⟨u, us, rfl, hu⟩ := exists_of_kind ⟨hpos, inside⟩ hat.2 (by decide)
          rw [List.length_cons] at hf hf'
          refine (agree_advance ⟨hpos, inside⟩ _ (depthAfter_atSign hu)).bind ?_
          rintro _ us _ hus ⟨rfl, rfl⟩
          refine (ih ⟨hpos, hus⟩ fuel' (by omega) (by omega)).bind ?_
          rintro sub vs _ hvs ⟨rfl, hlt⟩
          exact agree_pure hvs rfl ⟨rfl, by simp; omega⟩
        · exact agree_pure inside (relocate_patternOfSymbol _ _ _).symm ⟨rfl, by simp⟩
      | lparen =>
        refine (agree_advance h (d + 1) (by rw [hl]; rfl)).bind ?_
        rintro _ ts _ inside ⟨rfl, rfl⟩
        have hd : 0 < d + 1 := by omega
        refine (agree_symbol ⟨hd, inside⟩ _).bind ?_
        rintro head us _ inside ⟨rfl, hus⟩
        have hargs := agree_many (patternWithin fuel) (patternWithin fuel')
          inList_right inList_end ⟨hd, inside⟩ fun vs hvs inside _ =>
            ih ⟨hd, inside⟩ fuel' (by omega) (by omega)
        refine hargs.bind ?_
        rintro args vs _ inside ⟨rfl, hvs⟩
        refine (agree_expect_rparen ⟨hd, inside⟩ _).bind ?_
        rintro _ ws _ inside ⟨rfl, hws⟩
        refine agree_pure inside ?_ ⟨by simp, by simp; omega⟩
        change ite _ _ _ = Pattern.relocate F.move (ite _ _ _)
        rw [apply_ite (Pattern.relocate F.move)]
        simp only [Pattern.relocate, Pattern.relocateAll_eq_map]
        rfl
      | rparen => exact agree_unexpected h _
      | atSign => exact agree_unexpected h _

theorem agree_pattern (h : F.Open ts d) :
    F.Agree ts d pattern pattern fun ts' d' => d' = d ∧ ts'.length < ts.length := by
  refine agree_get ?_
  apply agree_patternWithin h
  · rw [left, List.length_append]
    omega
  · rw [right, List.length_append, List.length_map]
    omega

theorem kind_end {k : TokenKind} (hend : k ≠ .endOfFile) (c : Cursor) (h : c.tokens = []) :
    decide (c.kind = k) = false := by
  rw [decide_eq_false_iff_not]
  simpa [Cursor.kind, Cursor.lexeme?, h] using hend.symm

theorem decide_kind_right (k : TokenKind) {ts : List Token} (h : F.Open ts d) :
    decide ((F.right ts d).kind = k) = decide ((F.left ts d).kind = k) := by
  rw [kind_right h]

theorem depthAfter_lparen {t : Token} (ht : t.lexeme.kind = .lparen) :
    Cursor.depthAfter d t.lexeme = d + 1 := by
  cases hl : t.lexeme <;> simp [hl, Lexeme.kind, Cursor.depthAfter] at ht ⊢

theorem agree_binding {value value' : Parse Expr} (h : F.Open ts d)
    (hlparen : (F.left ts d).kind = .lparen)
    (hvalue : ∀ us, us.length < ts.length → Inside F.level (d + 1) us →
      F.Agree us (d + 1) value value' fun us' d' => d' = d + 1 ∧ us'.length < us.length) :
    F.Agree ts d (binding value) (binding value') fun ts' d' =>
      d' = d ∧ ts'.length < ts.length := by
  obtain ⟨t, ts, rfl, ht⟩ := exists_of_kind h hlparen (by decide)
  rw [List.length_cons] at hvalue ⊢
  have hd : 0 < d + 1 := by
    have := h.pos
    omega
  refine (agree_advance h _ (depthAfter_lparen ht)).bind ?_
  rintro _ ts _ hts ⟨rfl, rfl⟩
  refine (agree_symbol ⟨hd, hts⟩ _).bind ?_
  rintro var us _ hus ⟨rfl, hlu⟩
  refine (agree_symbol ⟨hd, hus⟩ _).bind ?_
  rintro type vs _ hvs ⟨rfl, hlv⟩
  refine (hvalue vs (by omega) hvs).bind ?_
  rintro e ws _ hws ⟨rfl, hlw⟩
  refine (agree_expect_rparen ⟨hd, hws⟩ _).bind ?_
  rintro _ xs _ hxs ⟨rfl, hlx⟩
  exact agree_pure hxs rfl ⟨by omega, by omega⟩

theorem agree_exprWithin (h : F.Open ts d) (fuel fuel' : Nat) (hf : ts.length < fuel)
    (hf' : ts.length < fuel') :
    F.Agree ts d (exprWithin fuel) (exprWithin fuel') fun ts' d' =>
      d' = d ∧ ts'.length < ts.length := by
  induction fuel generalizing fuel' ts d with
  | zero => omega
  | succ fuel ih =>
    obtain ⟨fuel', rfl⟩ : ∃ n, fuel' = n + 1 := ⟨fuel' - 1, by omega⟩
    refine agree_get ?_
    rw [lexeme?_right h, loc_right h]
    cases hx : (F.left ts d).lexeme? with
    | none => exact agree_unexpected h _
    | some x =>
      obtain ⟨t, rest, rfl, rfl⟩ := exists_of_lexeme? h hx
      rw [List.length_cons] at hf hf'
      have hpos := h.pos
      cases hl : t.lexeme with
      | int n =>
        refine (agree_advance h d (by rw [hl]; rfl)).bind ?_
        rintro _ ts _ hts ⟨rfl, rfl⟩
        exact agree_pure hts rfl ⟨rfl, by simp⟩
      | symbol name =>
        refine (agree_advance h d (by rw [hl]; rfl)).bind ?_
        rintro _ ts _ hts ⟨rfl, rfl⟩
        exact agree_pure hts (relocate_exprOfSymbol _ _ _).symm ⟨rfl, by simp⟩
      | lparen =>
        refine (agree_advance h (d + 1) (by rw [hl]; rfl)).bind ?_
        rintro _ ts _ hts ⟨rfl, rfl⟩
        have hd : 0 < d + 1 := by omega
        refine (agree_symbol ⟨hd, hts⟩ _).bind ?_
        rintro head us _ hus ⟨rfl, hlu⟩
        change F.Agree us (d + 1) (if head.name = ascii "let" then _ else _)
          (if head.name = ascii "let" then _ else _) _
        split_ifs with hlet
        · have hd' : 0 < d + 1 + 1 := by omega
          refine (agree_expect_lparen ⟨hd, hus⟩ _).bind ?_
          rintro _ vs _ hvs ⟨rfl, hlv⟩
          have hbindings := agree_many (binding (exprWithin fuel))
            (binding (exprWithin fuel')) (decide_kind_right .lparen)
            (kind_end (by decide)) ⟨hd', hvs⟩ fun ws hlw hws hm =>
              agree_binding ⟨hd', hws⟩ (of_decide_eq_true hm) fun xs hlx hxs =>
                ih ⟨by omega, hxs⟩ fuel' (by omega) (by omega)
          refine hbindings.bind ?_
          rintro bs ws _ hws ⟨rfl, hlw⟩
          refine (agree_expect_rparen ⟨hd', hws⟩ _).bind ?_
          rintro _ xs _ hxs ⟨rfl, hlx⟩
          refine (ih ⟨by omega, hxs⟩ fuel' (by omega) (by omega)).bind ?_
          rintro body ys _ hys ⟨rfl, hly⟩
          refine (agree_expect_rparen ⟨by omega, hys⟩ _).bind ?_
          rintro _ zs _ hzs ⟨rfl, hlz⟩
          refine agree_pure hzs ?_ ⟨by omega, by simp; omega⟩
          change _ = Expr.relocate F.move (.letIn _ _ _)
          rw [Expr.relocate, Expr.relocateIn_eq_map]
          rfl
        · have hargs := agree_many (exprWithin fuel) (exprWithin fuel')
            inList_right inList_end ⟨hd, hus⟩ fun vs hlv hvs _ =>
              ih ⟨hd, hvs⟩ fuel' (by omega) (by omega)
          refine hargs.bind ?_
          rintro args vs _ hvs ⟨rfl, hlv⟩
          refine (agree_expect_rparen ⟨hd, hvs⟩ _).bind ?_
          rintro _ ws _ hws ⟨rfl, hlw⟩
          refine agree_pure hws ?_ ⟨by omega, by simp; omega⟩
          change _ = Expr.relocate F.move (.term _ _ _)
          rw [Expr.relocate, Expr.relocateAll_eq_map]
          rfl
      | rparen => exact agree_unexpected h _
      | atSign => exact agree_unexpected h _

theorem agree_expr (h : F.Open ts d) :
    F.Agree ts d expr expr fun ts' d' => d' = d ∧ ts'.length < ts.length := by
  refine agree_get ?_
  apply agree_exprWithin h
  · rw [left, List.length_append]
    omega
  · rw [right, List.length_append, List.length_map]
    omega

end TermRules.Frame

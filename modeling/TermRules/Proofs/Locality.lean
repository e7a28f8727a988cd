import TermRules.Proofs.LocalReaders

/-!
# Definitions are read locally

Each reader of the grammar agrees with itself in any two surroundings. It is
enough to follow its steps: inside a definition every step takes a token of this
definition or stops at one, and a definition that is read to its end has closed
the parenthesis it began with.
-/

namespace TermRules.Frame

open Relocatable Parse
variable {F : Frame} {ts : List Token} {d : Int}

theorem atSymbol_end (text : String) (c : Cursor) (h : c.tokens = []) :
    c.atSymbol text = false := by
  simp [Cursor.atSymbol, Cursor.lexeme?, h]

theorem atForm_end (head : String) (c : Cursor) (h : c.tokens = []) :
    c.atForm head = false := by
  simp [Cursor.atForm, h]

theorem agree_symbols (h : F.Open ts d) (what : String) :
    F.Agree ts d (many (·.kind = .symbol) (symbol what)) (many (·.kind = .symbol) (symbol what))
      fun ts' d' => d' = d ∧ ts'.length ≤ ts.length :=
  agree_many _ _ (decide_kind_right .symbol) (kind_end (by decide)) h fun _ _ hus _ =>
    agree_symbol ⟨h.pos, hus⟩ what

theorem agree_flags (h : F.Open ts d) (first second what : String) :
    F.Agree ts d (many (fun c => c.atSymbol first || c.atSymbol second) (symbol what))
      (many (fun c => c.atSymbol first || c.atSymbol second) (symbol what))
      fun ts' d' => d' = d ∧ ts'.length ≤ ts.length := by
  refine agree_many _ _ (fun h => ?_) (fun c hc => ?_) h fun _ _ hus _ =>
    agree_symbol ⟨h.pos, hus⟩ what
  · rw [atSymbol_right h, atSymbol_right h]
  · rw [atSymbol_end _ c hc, atSymbol_end _ c hc]
    rfl

theorem agree_field (h : F.Open ts d) (hlparen : (F.left ts d).kind = .lparen) :
    F.Agree ts d field field fun ts' d' => d' = d ∧ ts'.length < ts.length := by
  obtain ⟨t, ts, rfl, ht⟩ := exists_of_kind h hlparen (by decide)
  rw [List.length_cons]
  have hd : 0 < d + 1 := by
    have := h.pos
    omega
  refine (agree_advance h _ (depthAfter_lparen ht)).bind ?_
  rintro _ ts _ hts ⟨rfl, rfl⟩
  refine (agree_symbol ⟨hd, hts⟩ _).bind ?_
  rintro name us _ hus ⟨rfl, hlu⟩
  refine (agree_symbol ⟨hd, hus⟩ _).bind ?_
  rintro type vs _ hvs ⟨rfl, hlv⟩
  refine (agree_expect_rparen ⟨hd, hvs⟩ _).bind ?_
  rintro _ ws _ hws ⟨rfl, hlw⟩
  exact agree_pure hws rfl ⟨by omega, by omega⟩

theorem agree_variant (h : F.Open ts d) :
    F.Agree ts d variant variant fun ts' d' => d' = d ∧ ts'.length < ts.length := by
  have hpos := h.pos
  refine agree_get ?_
  rw [kind_right h]
  split_ifs with hsymbol
  · refine (agree_symbol h _).bind ?_
    rintro name us _ hus ⟨rfl, hlu⟩
    exact agree_pure hus rfl ⟨rfl, hlu⟩
  · have hd : 0 < d + 1 := by omega
    refine (agree_expect_lparen h _).bind ?_
    rintro _ us _ hus ⟨rfl, hlu⟩
    refine (agree_symbol ⟨hd, hus⟩ _).bind ?_
    rintro name vs _ hvs ⟨rfl, hlv⟩
    have hfields := agree_many field field (decide_kind_right .lparen)
      (kind_end (by decide)) ⟨hd, hvs⟩ fun ws _ hws hm =>
        agree_field ⟨hd, hws⟩ (of_decide_eq_true hm)
    refine hfields.bind ?_
    rintro fields ws _ hws ⟨rfl, hlw⟩
    refine (agree_expect_rparen ⟨hd, hws⟩ _).bind ?_
    rintro _ xs _ hxs ⟨rfl, hlx⟩
    exact agree_pure hxs rfl ⟨by omega, by omega⟩

theorem agree_typeBody (h : F.Open ts d) :
    F.Agree ts d typeBody typeBody fun ts' d' => d' = d ∧ ts'.length < ts.length := by
  have hpos := h.pos
  refine agree_get ?_
  rw [kind_right h]
  split_ifs with hsymbol
  · refine (agree_symbol h _).bind ?_
    rintro spelling us _ hus ⟨rfl, hlu⟩
    exact agree_pure hus rfl ⟨rfl, hlu⟩
  · have hd : 0 < d + 1 := by omega
    refine (agree_expect_lparen h _).bind ?_
    rintro _ us _ hus ⟨rfl, hlu⟩
    refine (agree_symbol ⟨hd, hus⟩ _).bind ?_
    rintro form vs _ hvs ⟨rfl, hlv⟩
    have hclose : ∀ (body : TypeBody) (ws : List Token) (d' : Int), Inside F.level d' ws →
        d' = d + 1 ∧ ws.length ≤ vs.length →
        F.Agree ws d' (do expect .rparen "')'"; return body)
          (do expect .rparen "')'"; return relocate F.move body)
          fun ts' d' => d' = d ∧ ts'.length < ts.length := by
      rintro body ws _ hws ⟨rfl, hlw⟩
      refine (agree_expect_rparen ⟨hd, hws⟩ _).bind ?_
      rintro _ xs _ hxs ⟨rfl, hlx⟩
      exact agree_pure hxs rfl ⟨by omega, by omega⟩
    have hname : (relocate F.move form).name = form.name := rfl
    simp only [hname]
    split_ifs
    · refine Agree.bind ((agree_symbol ⟨hd, hvs⟩ _).map (fun _ => rfl) ?_) hclose
      rintro ws _ ⟨rfl, hlw⟩
      exact ⟨rfl, by omega⟩
    · have hvariants := agree_many variant variant inList_right inList_end
        ⟨hd, hvs⟩ fun ws _ hws _ => agree_variant ⟨hd, hws⟩
      exact Agree.bind (hvariants.map (fun _ => rfl) fun _ _ hpost => hpost) hclose
    · exact Agree.bind (agree_failAt ⟨hd, hvs⟩) hclose

theorem any_relocate (move : Loc → Loc) (flags : List Ident) (word : String) :
    (relocate move flags).any (fun i => i.name = ascii word) =
      flags.any (fun i => i.name = ascii word) :=
  List.any_map

theorem agree_typeDef (h : F.Open ts d) (loc : Loc) :
    F.Agree ts d (typeDef loc) (typeDef (F.move loc)) fun _ d' => d' = d - 1 := by
  have hpos := h.pos
  refine (agree_symbol h _).bind ?_
  rintro name us _ hus ⟨rfl, -⟩
  refine (agree_flags ⟨hpos, hus⟩ _ _ _).bind ?_
  rintro flags vs _ hvs ⟨rfl, -⟩
  refine (agree_typeBody ⟨hpos, hvs⟩).bind ?_
  rintro body ws _ hws ⟨rfl, -⟩
  refine (agree_expect_rparen ⟨hpos, hws⟩ _).bind ?_
  rintro _ xs _ hxs ⟨rfl, -⟩
  refine agree_pure hxs ?_ rfl
  rw [any_relocate, any_relocate]
  rfl

theorem agree_termDecl (h : F.Open ts d) (loc : Loc) :
    F.Agree ts d (termDecl loc) (termDecl (F.move loc)) fun _ d' => d' = d - 1 := by
  have hpos := h.pos
  refine (agree_flags h _ _ _).bind ?_
  rintro flags us d hus ⟨rfl, -⟩
  have hd : 0 < d + 1 := by omega
  refine agree_get ?_
  rw [atSymbol_right ⟨hpos, hus⟩, loc_right ⟨hpos, hus⟩]
  split_ifs
  · exact (agree_failAt (Q := fun _ _ => False) ⟨hpos, hus⟩).bind
      fun _ _ _ _ (hfalse : False) => hfalse.elim
  · refine (agree_symbol ⟨hpos, hus⟩ _).bind ?_
    rintro term vs d hvs ⟨rfl, -⟩
    refine (agree_expect_lparen ⟨hpos, hvs⟩ _).bind ?_
    rintro _ ws _ hws ⟨rfl, -⟩
    refine (agree_symbols ⟨hd, hws⟩ _).bind ?_
    rintro args xs _ hxs ⟨rfl, -⟩
    refine (agree_expect_rparen ⟨hd, hxs⟩ _).bind ?_
    rintro _ ys _ hys ⟨rfl, -⟩
    refine (agree_symbol ⟨by omega, hys⟩ _).bind ?_
    rintro ret zs _ hzs ⟨rfl, -⟩
    refine (agree_expect_rparen ⟨by omega, hzs⟩ _).bind ?_
    rintro _ rest _ hrest ⟨rfl, -⟩
    refine agree_pure hrest ?_ (by omega)
    rw [any_relocate, any_relocate]
    rfl

theorem agree_externalKind (h : F.Open ts d) :
    F.Agree ts d externalKind externalKind fun _ d' => d' = d := by
  have hpos := h.pos
  refine (agree_symbol h _).bind ?_
  rintro kind us d hus ⟨rfl, -⟩
  have hname : (relocate F.move kind).name = kind.name := rfl
  rw [hname]
  split_ifs
  · exact agree_pure hus rfl rfl
  · refine agree_get ?_
    rw [atSymbol_right ⟨hpos, hus⟩]
    split_ifs with hword
    · obtain ⟨t, vs, rfl, ht⟩ := exists_of_lexeme? ⟨hpos, hus⟩ (of_decide_eq_true hword)
      refine (agree_advance ⟨hpos, hus⟩ d (by rw [ht]; rfl)).bind ?_
      rintro _ ws _ hws ⟨rfl, rfl⟩
      exact agree_pure hws rfl rfl
    · exact agree_pure hus rfl rfl
  · exact agree_failAt ⟨hpos, hus⟩

theorem agree_externalDef (h : F.Open ts d) (loc : Loc) :
    F.Agree ts d (externalDef loc) (externalDef (F.move loc)) fun _ d' => d' = d - 1 := by
  have hpos := h.pos
  refine (agree_externalKind h).bind ?_
  rintro kind us d hus rfl
  refine (agree_symbol ⟨hpos, hus⟩ _).bind ?_
  rintro term vs d hvs ⟨rfl, -⟩
  refine (agree_symbol ⟨hpos, hvs⟩ _).bind ?_
  rintro function ws d hws ⟨rfl, -⟩
  refine (agree_expect_rparen ⟨hpos, hws⟩ _).bind ?_
  rintro _ xs _ hxs ⟨rfl, -⟩
  exact agree_pure hxs rfl rfl

theorem agree_template (h : F.Open ts d) (loc : Loc) :
    F.Agree ts d (template loc) (template (F.move loc)) fun _ d' => d' = d - 1 := by
  have hpos := h.pos
  have hd : 0 < d + 1 := by omega
  refine (agree_expect_lparen h _).bind ?_
  rintro _ us _ hus ⟨rfl, -⟩
  refine (agree_symbol ⟨hd, hus⟩ _).bind ?_
  rintro term vs _ hvs ⟨rfl, -⟩
  refine (agree_symbols ⟨hd, hvs⟩ _).bind ?_
  rintro params ws _ hws ⟨rfl, -⟩
  refine (agree_expect_rparen ⟨hd, hws⟩ _).bind ?_
  rintro _ xs _ hxs ⟨rfl, -⟩
  refine (agree_pattern ⟨by omega, hxs⟩).bind ?_
  rintro body ys _ hys ⟨rfl, -⟩
  refine (agree_expect_rparen ⟨by omega, hys⟩ _).bind ?_
  rintro _ zs _ hzs ⟨rfl, -⟩
  exact agree_pure hzs rfl (by omega)

theorem agree_priority (h : F.Open ts d) :
    F.Agree ts d priority priority fun _ d' => d' = d := by
  have hpos := h.pos
  refine agree_get ?_
  rw [lexeme?_right h, loc_right h]
  cases hx : (F.left ts d).lexeme? with
  | none => exact agree_pure h.inside rfl rfl
  | some x =>
    cases x with
    | int n =>
      obtain ⟨t, us, rfl, ht⟩ := exists_of_lexeme? h hx
      refine (agree_advance h d (by rw [ht]; rfl)).bind ?_
      rintro _ vs _ hvs ⟨rfl, rfl⟩
      cases n.toInt64? with
      | some priority => exact agree_pure hvs rfl rfl
      | none => exact agree_failAt ⟨hpos, hvs⟩
    | _ => exact agree_pure h.inside rfl rfl

theorem exists_of_atForm {head : String} (h : F.Open ts d)
    (hform : (F.left ts d).atForm head = true) :
    ∃ t u rest, ts = t :: u :: rest ∧ t.lexeme = .lparen ∧ u.lexeme = .symbol (ascii head) := by
  rcases ts with _ | ⟨t, _ | ⟨u, rest⟩⟩
  · rw [atForm_end _ _ (by simp [left, h.last])] at hform
    cases hform
  · have hright := hform
    rw [← atForm_right h] at hright
    by_cases ht : t.lexeme = .lparen
    · have hin := h.inside.2
      rw [ht] at hin
      have hnext : F.Open [] (d + 1) := ⟨by have := h.pos; omega, hin⟩
      simp [left, Cursor.atForm, hnext.last] at hform
    · cases hb : F.behind <;> simp [left, Cursor.atForm, ht, hb] at hform
  · rw [left, Cursor.atForm] at hform
    obtain ⟨ht, hu⟩ := Bool.and_eq_true_iff.mp hform
    exact ⟨t, u, rest, rfl, of_decide_eq_true ht, of_decide_eq_true hu⟩

theorem agree_guard (h : F.Open ts d)
    (hform : ((F.left ts d).atForm "if-let" || (F.left ts d).atForm "if") = true) :
    F.Agree ts d guard guard fun ts' d' => d' = d ∧ ts'.length < ts.length := by
  have hpos := h.pos
  have hd : 0 < d + 1 := by omega
  obtain ⟨t, u, us, word, rfl, ht, hu⟩ : ∃ t u us word, ts = t :: u :: us ∧
      t.lexeme = .lparen ∧ u.lexeme = .symbol word := by
    rcases Bool.or_eq_true_iff.mp hform with hform | hform
    · obtain ⟨t, u, us, hts, ht, hu⟩ := exists_of_atForm h hform
      exact ⟨t, u, us, _, hts, ht, hu⟩
    · obtain ⟨t, u, us, hts, ht, hu⟩ := exists_of_atForm h hform
      exact ⟨t, u, us, _, hts, ht, hu⟩
  simp only [List.length_cons]
  refine agree_get ?_
  refine (agree_advance h (d + 1) (by rw [ht]; rfl)).bind ?_
  rintro _ vs _ hvs ⟨rfl, rfl⟩
  refine agree_get ?_
  refine (agree_advance ⟨hd, hvs⟩ (d + 1) (by rw [hu]; rfl)).bind ?_
  rintro _ ws _ hws ⟨rfl, rfl⟩
  have hrest : ∀ (p : Pattern) (xs : List Token) (d' : Int), Inside F.level d' xs →
      d' = d + 1 ∧ xs.length ≤ ws.length →
      F.Agree xs d'
        (do
          let value ← expr
          expect .rparen "')' after guard"
          return ({ pattern := p, value, loc := t.loc } : Guard))
        (do
          let value ← expr
          expect .rparen "')' after guard"
          return ({ pattern := p.relocate F.move, value, loc := F.move t.loc } : Guard))
        fun ts' d' => d' = d ∧ ts'.length < ws.length + 1 + 1 := by
    rintro p xs _ hxs ⟨rfl, hlx⟩
    refine (agree_expr ⟨hd, hxs⟩).bind ?_
    rintro value ys _ hys ⟨rfl, hly⟩
    refine (agree_expect_rparen ⟨hd, hys⟩ _).bind ?_
    rintro _ zs _ hzs ⟨rfl, hlz⟩
    exact agree_pure hzs rfl ⟨by omega, by omega⟩
  rw [atSymbol_right ⟨hd, hvs⟩]
  split_ifs
  · exact ((agree_pattern ⟨hd, hws⟩).imp fun _ _ hpost => ⟨hpost.1, by omega⟩).bind hrest
  · exact (agree_pure (Q := fun ts' d' => d' = d + 1 ∧ ts'.length ≤ ws.length) hws rfl
      ⟨rfl, Nat.le_refl _⟩).bind hrest

theorem agree_ruleName (h : F.Open ts d) :
    F.Agree ts d ruleName ruleName fun _ d' => d' = d := by
  refine agree_get ?_
  rw [kind_right h]
  split_ifs
  · refine (agree_symbol h _).bind ?_
    rintro name us _ hus ⟨rfl, -⟩
    exact agree_pure hus rfl rfl
  · exact agree_pure h.inside rfl rfl

theorem agree_rule (h : F.Open ts d) (loc : Loc) :
    F.Agree ts d (rule loc) (rule (F.move loc)) fun _ d' => d' = d - 1 := by
  have hpos := h.pos
  refine (agree_ruleName h).bind ?_
  rintro name us d hus rfl
  refine (agree_priority ⟨hpos, hus⟩).bind ?_
  rintro priority vs d hvs rfl
  refine (agree_pattern ⟨hpos, hvs⟩).bind ?_
  rintro pattern ws d hws ⟨rfl, -⟩
  have hguards : F.Agree ws d (many (fun c => c.atForm "if-let" || c.atForm "if") guard)
      (many (fun c => c.atForm "if-let" || c.atForm "if") guard)
      fun ts' d' => d' = d ∧ ts'.length ≤ ws.length := by
    refine agree_many _ _ (fun h => ?_) (fun c hc => ?_) ⟨hpos, hws⟩ fun xs _ hxs hm =>
      agree_guard ⟨hpos, hxs⟩ hm
    · rw [atForm_right h, atForm_right h]
    · rw [atForm_end _ c hc, atForm_end _ c hc]
      rfl
  refine hguards.bind ?_
  rintro guards xs d hxs ⟨rfl, -⟩
  refine (agree_expr ⟨hpos, hxs⟩).bind ?_
  rintro result ys d hys ⟨rfl, -⟩
  refine (agree_expect_rparen ⟨hpos, hys⟩ _).bind ?_
  rintro _ zs _ hzs ⟨rfl, -⟩
  exact agree_pure hzs rfl rfl

theorem agree_expect_first {t : Token} (ht : t.lexeme = .lparen)
    (inside : Inside F.level 1 ts) (what : String) :
    F.Agree (t :: ts) 0 (expect .lparen what) (expect .lparen what)
      fun ts' d' => ts' = ts ∧ d' = 1 := by
  obtain ⟨lexeme, loc⟩ := t
  cases ht
  exact .ok inside ⟨rfl, rfl⟩

theorem agree_definition {t : Token} (ht : t.lexeme = .lparen) (inside : Inside F.level 1 ts) :
    F.Agree (t :: ts) 0 definition definition fun _ d' => d' = 0 := by
  have hd : (0 : Int) < 1 := by decide
  refine agree_get ?_
  refine (agree_expect_first ht inside _).bind ?_
  rintro _ us _ hus ⟨rfl, rfl⟩
  refine (agree_symbol ⟨hd, hus⟩ _).bind ?_
  rintro keyword vs _ hvs ⟨rfl, -⟩
  have hname : (relocate F.move keyword).name = keyword.name := rfl
  simp only [hname]
  split_ifs
  · exact (agree_typeDef ⟨hd, hvs⟩ t.loc).map (fun _ => rfl) fun _ _ h => h
  · exact (agree_termDecl ⟨hd, hvs⟩ t.loc).map (fun _ => rfl) fun _ _ h => h
  · exact (agree_externalDef ⟨hd, hvs⟩ t.loc).map (fun _ => rfl) fun _ _ h => h
  · exact (agree_template ⟨hd, hvs⟩ t.loc).map (fun _ => rfl) fun _ _ h => h
  · exact (agree_rule ⟨hd, hvs⟩ t.loc).map (fun _ => rfl) fun _ _ h => h
  · exact agree_failAt ⟨hd, hvs⟩

end TermRules.Frame

import Mathlib.Tactic.Common
import TermRules.Proofs.TokenSpans

/-!
# Reading from tokens

Whatever a reader reads is read from the tokens that its cursor passes, and these
are tokens of what was read.
-/

namespace TermRules

namespace Parse

/-- Whatever is read at the cursor is related to the tokens that the cursor passes. -/
def Covers {α : Type} (c : Cursor) (p : Parse α) (R : α → List Token → Prop) : Prop :=
  ∀ a c', p.run c = .ok a c' → ∃ ts, c.tokens = ts ++ c'.tokens ∧ R a ts

section Covers

variable {α β : Type} {c : Cursor} {p : Parse α} {f : α → Parse β} {R S : α → List Token → Prop}
  {Q : β → List Token → Prop}

theorem covers_pure {a : α} (h : R a []) : Covers c (pure a) R := by
  intro b c' hrun
  cases hrun
  exact ⟨[], rfl, h⟩

theorem covers_failAt {loc : Loc} {fault : SyntaxFault} : Covers c (failAt loc fault) R := by
  intro a c' hrun
  cases hrun

theorem covers_unexpected {what : String} : Covers c (unexpected what) R := covers_failAt

theorem Covers.imp (h : Covers c p R) (hRS : ∀ a ts, R a ts → S a ts) : Covers c p S := by
  intro a c' hrun
  obtain ⟨ts, hts, hR⟩ := h a c' hrun
  exact ⟨ts, hts, hRS a ts hR⟩

theorem Covers.bind (h : Covers c p R)
    (hf : ∀ a ts c', R a ts → Covers c' (f a) fun b us => Q b (ts ++ us)) :
    Covers c (p >>= f) Q := by
  intro b c' hrun
  rw [EStateM.run_bind] at hrun
  cases hp : p.run c with
  | error e d =>
    rw [hp] at hrun
    cases hrun
  | ok a d =>
    rw [hp] at hrun
    obtain ⟨ts, hts, hR⟩ := h a d hp
    obtain ⟨us, hus, hQ⟩ := hf a ts d hR b c' hrun
    exact ⟨ts ++ us, by rw [hts, hus, List.append_assoc], hQ⟩

theorem run_map_eq_ok {g : α → β} {b : β} {c' : Cursor} :
    (g <$> p).run c = .ok b c' ↔ ∃ a, p.run c = .ok a c' ∧ g a = b := by
  rw [map_eq_pure_bind, EStateM.run_bind]
  cases p.run c <;> simp [and_comm]

theorem Covers.map {g : α → β} (h : Covers c p fun a ts => Q (g a) ts) : Covers c (g <$> p) Q := by
  refine Covers.bind (f := fun a => pure (g a)) h fun a ts c' hQ => covers_pure ?_
  rwa [List.append_nil]

theorem covers_get {k : Cursor → Parse β} (h : Covers c (k c) Q) : Covers c (get >>= k) Q := h

end Covers

theorem tokens_of_lexeme? {c : Cursor} {l : Lexeme} (h : c.lexeme? = some l) :
    c.tokens = ⟨l, c.loc⟩ :: c.advance.tokens := by
  obtain ⟨ts, endLoc, depth⟩ := c
  cases ts with
  | nil => cases h
  | cons t ts => rw [← Option.some.inj h]; rfl

theorem lexeme?_of_kind {c : Cursor} {k : TokenKind} (h : c.kind = k) (hk : k ≠ .endOfFile) :
    ∃ l, c.lexeme? = some l ∧ l.kind = k := by
  rw [Cursor.kind] at h
  cases hl : c.lexeme? with
  | none =>
    rw [hl] at h
    exact absurd h.symm hk
  | some l =>
    rw [hl] at h
    exact ⟨l, rfl, h⟩

theorem lexeme?_of_kind_lparen {c : Cursor} (h : c.kind = .lparen) : c.lexeme? = some .lparen := by
  obtain ⟨l, hl, hkind⟩ := lexeme?_of_kind h (by decide)
  cases l <;> first | exact hl | cases hkind

theorem lexeme?_of_kind_rparen {c : Cursor} (h : c.kind = .rparen) : c.lexeme? = some .rparen := by
  obtain ⟨l, hl, hkind⟩ := lexeme?_of_kind h (by decide)
  cases l <;> first | exact hl | cases hkind

theorem lexeme?_of_kind_atSign {c : Cursor} (h : c.kind = .atSign) : c.lexeme? = some .atSign := by
  obtain ⟨l, hl, hkind⟩ := lexeme?_of_kind h (by decide)
  cases l <;> first | exact hl | cases hkind

section Tokens

variable {β : Type} {c : Cursor} {Q : β → List Token → Prop} {what : String}

theorem covers_advance {f : Unit → Parse β} {l : Lexeme} (hl : c.lexeme? = some l)
    (hf : Covers c.advance (f ()) fun b us => Q b (⟨l, c.loc⟩ :: us)) :
    Covers c (advance >>= f) Q := by
  intro b c' hrun
  obtain ⟨us, hus, hQ⟩ := hf b c' hrun
  exact ⟨⟨l, c.loc⟩ :: us, by rw [tokens_of_lexeme? hl, hus, List.cons_append], hQ⟩

theorem covers_ident (c : Cursor) (what : String) :
    Covers c (symbol what) fun i ts => ts = [i.token] := by
  refine covers_get ?_
  split
  next name hl => exact covers_advance hl (covers_pure rfl)
  next => exact covers_unexpected

theorem covers_symbol {f : Ident → Parse β}
    (hf : ∀ i c', Covers c' (f i) fun b us => Q b (i.token :: us)) :
    Covers c (symbol what >>= f) Q := by
  refine (covers_ident c what).bind fun i ts c' hts => ?_
  subst hts
  exact hf i c'

theorem covers_lparen {f : Unit → Parse β}
    (hf : ∀ c', Covers c' (f ()) fun b us => Q b (⟨.lparen, c.loc⟩ :: us)) :
    Covers c (expect .lparen what >>= f) Q := by
  have hparen : Covers c (expect .lparen what) fun _ ts => ts = [⟨.lparen, c.loc⟩] := by
    refine covers_get ?_
    split_ifs with hkind
    · exact covers_advance (f := pure) (lexeme?_of_kind_lparen hkind) (covers_pure rfl)
    · exact covers_unexpected
  refine hparen.bind fun _ ts c' hts => ?_
  subst hts
  exact hf c'

theorem covers_rparen {f : Unit → Parse β}
    (hf : ∀ c' close, Covers c' (f ()) fun b us => Q b (⟨.rparen, close⟩ :: us)) :
    Covers c (expect .rparen what >>= f) Q := by
  have hparen : Covers c (expect .rparen what) fun _ ts => ts = [⟨.rparen, c.loc⟩] := by
    refine covers_get ?_
    split_ifs with hkind
    · exact covers_advance (f := pure) (lexeme?_of_kind_rparen hkind) (covers_pure rfl)
    · exact covers_unexpected
  refine hparen.bind fun _ ts c' hts => ?_
  subst hts
  exact hf c' c.loc

end Tokens

section Many

variable {α : Type} {more : Cursor → Bool} {item : Parse α} {R : α → List Token → Prop}

theorem covers_manyWithin (hitem : ∀ c, more c = true → Covers c item R) (fuel : Nat)
    (c : Cursor) : Covers c (manyWithin more item fuel) (SpansEach R) := by
  induction fuel generalizing c with
  | zero => exact covers_pure rfl
  | succ fuel ih =>
    refine covers_get ?_
    split_ifs with hmore
    · refine (hitem c hmore).bind fun a ts c' ha => ?_
      refine (ih c').bind fun as us c'' has => covers_pure ?_
      exact ⟨ts, us, by rw [List.append_nil], ha, has⟩
    · exact covers_pure rfl

theorem covers_many (hitem : ∀ c, more c = true → Covers c item R) (c : Cursor) :
    Covers c (many more item) (SpansEach R) :=
  covers_get (covers_manyWithin hitem _ c)

end Many

theorem covers_idents (more : Cursor → Bool) (what : String) (c : Cursor) :
    Covers c (many more (symbol what)) fun is ts => ts = is.map Ident.token := by
  refine (covers_many (fun c _ => covers_ident c what) c).imp fun is ts h => ?_
  induction is generalizing ts with
  | nil => exact h
  | cons i is ih =>
    obtain ⟨us, vs, rfl, rfl, his⟩ := h
    rw [ih vs his, List.map_cons, List.singleton_append]

theorem spans_patternOfSymbol (loc : Loc) (name : Bytes) :
    (patternOfSymbol loc name).Spans [⟨.symbol name, loc⟩] := by
  unfold patternOfSymbol
  split_ifs with hwildcard htrue hfalse
  · rw [hwildcard]; rfl
  · rw [htrue]; rfl
  · rw [hfalse]; rfl
  · rfl

theorem spans_exprOfSymbol (loc : Loc) (name : Bytes) :
    (exprOfSymbol loc name).Spans [⟨.symbol name, loc⟩] := by
  unfold exprOfSymbol
  split_ifs with htrue hfalse
  · rw [htrue]; rfl
  · rw [hfalse]; rfl
  · rfl

theorem covers_patternWithin (fuel : Nat) (c : Cursor) :
    Covers c (patternWithin fuel) Pattern.Spans := by
  induction fuel generalizing c with
  | zero => exact covers_unexpected
  | succ fuel ih =>
    refine covers_get ?_
    split
    next value hl => exact covers_advance hl (covers_pure rfl)
    next name hl =>
      refine covers_advance hl (covers_get ?_)
      split_ifs with hat
      · rw [Bool.and_eq_true, decide_eq_true_eq] at hat
        refine covers_advance (lexeme?_of_kind_atSign hat.2) ?_
        refine (ih _).bind fun sub ts c' hsub => covers_pure ?_
        exact ⟨_, ts, by rw [List.append_nil], hsub⟩
      · exact covers_pure (spans_patternOfSymbol _ _)
    next hl =>
      refine covers_advance hl (covers_symbol fun head c' => ?_)
      refine (covers_many (fun c _ => ih c) c').bind fun args ts c' hargs => ?_
      refine covers_rparen fun c' close => covers_pure ?_
      have hall := Pattern.spansAll_of_spansEach hargs
      split_ifs with hand
      · exact ⟨head.loc, ts, ⟨close, by rw [← hand]; rfl⟩, hall⟩
      · exact ⟨head.loc, ts, ⟨close, rfl⟩, hall⟩
    next => exact covers_unexpected

theorem covers_pattern (c : Cursor) : Covers c pattern Pattern.Spans :=
  covers_get (covers_patternWithin _ c)

theorem covers_binding {value : Parse Expr} (hvalue : ∀ c, Covers c value Expr.Spans) {c : Cursor}
    (hc : (decide (c.kind = .lparen)) = true) : Covers c (binding value) Binding.Spans := by
  refine covers_advance (lexeme?_of_kind_lparen (of_decide_eq_true hc)) ?_
  refine covers_symbol fun var c' => covers_symbol fun type c' => ?_
  refine (hvalue c').bind fun e ts c' he => ?_
  refine covers_rparen fun c' close => covers_pure ?_
  exact ⟨_, ts, ⟨close, rfl⟩, he⟩

theorem covers_exprWithin (fuel : Nat) (c : Cursor) :
    Covers c (exprWithin fuel) Expr.Spans := by
  induction fuel generalizing c with
  | zero => exact covers_unexpected
  | succ fuel ih =>
    refine covers_get ?_
    split
    next value hl => exact covers_advance hl (covers_pure rfl)
    next name hl => exact covers_advance hl (covers_pure (spans_exprOfSymbol _ _))
    next hl =>
      refine covers_advance hl (covers_symbol fun head c' => ?_)
      split_ifs with hlet
      · refine covers_lparen fun c'' => ?_
        refine (covers_many (fun c hc => covers_binding ih hc) c'').bind
          fun bindings ts c₁ hbindings => ?_
        refine covers_rparen fun c₂ close => ?_
        refine (ih c₂).bind fun body us c₃ hbody => ?_
        refine covers_rparen fun c₄ last => covers_pure ?_
        refine ⟨head.loc, c'.loc, _, ts, us, ⟨last, ?_⟩, ⟨close, rfl⟩,
          Expr.spansIn_of_spansEach hbindings, hbody⟩
        rw [Ident.token, hlet]
        simp
      · refine (covers_many (fun c _ => ih c) c').bind fun args ts c' hargs => ?_
        refine covers_rparen fun c' close => covers_pure ?_
        exact ⟨head.loc, ts, ⟨close, rfl⟩, Expr.spansAll_of_spansEach hargs⟩
    next => exact covers_unexpected

theorem covers_expr (c : Cursor) : Covers c expr Expr.Spans :=
  covers_get (covers_exprWithin _ c)

theorem covers_field {c : Cursor} (hc : (decide (c.kind = .lparen)) = true) :
    Covers c field Field.Spans := by
  refine covers_advance (lexeme?_of_kind_lparen (of_decide_eq_true hc)) ?_
  refine covers_symbol fun name c' => covers_symbol fun type c' => ?_
  exact covers_rparen fun c' close => covers_pure ⟨_, close, rfl⟩

theorem covers_variant (c : Cursor) : Covers c variant Variant.Spans := by
  refine covers_get ?_
  split_ifs
  · exact covers_symbol fun name c' => covers_pure (.inl ⟨rfl, rfl⟩)
  · refine covers_lparen fun c' => covers_symbol fun name c' => ?_
    refine (covers_many (fun c hc => covers_field hc) c').bind fun fields ts c' hfields => ?_
    refine covers_rparen fun c' close => covers_pure ?_
    exact .inr ⟨_, ts, ⟨close, rfl⟩, hfields⟩

theorem covers_typeBody (c : Cursor) : Covers c typeBody TypeBody.Spans := by
  refine covers_get ?_
  split_ifs
  · exact covers_symbol fun spelling c' => covers_pure (.inl rfl)
  · refine covers_lparen fun c' => covers_symbol fun form c' => ?_
    -- The keyword decides what stands behind it, up to the closing parenthesis.
    let Inner (body : TypeBody) (ts : List Token) : Prop := ∀ close,
      body.Spans (⟨.lparen, c.loc⟩ :: form.token :: (ts ++ [⟨.rparen, close⟩]))
    have hclose : ∀ body ts c', Inner body ts →
        Covers c' (do expect .rparen "')'"; pure body) fun b us =>
          b.Spans (⟨.lparen, c.loc⟩ :: form.token :: (ts ++ us)) := fun body ts c' hbody =>
      covers_rparen fun c' close => covers_pure (hbody close)
    split_ifs with hprimitive henum
    · refine Covers.bind (Covers.map ((covers_ident c' _).imp fun spelling ts hts => ?_)) hclose
      exact fun close => .inr ⟨_, form.loc, close, by rw [hts, ← hprimitive]; rfl⟩
    · refine Covers.bind (Covers.map ((covers_many (fun c _ => covers_variant c) c').imp
        fun variants ts hvariants => ?_)) hclose
      exact fun close => ⟨_, form.loc, ts, ⟨close, by rw [← henum]; rfl⟩, hvariants⟩
    · exact covers_failAt.bind (R := fun _ _ => False) fun _ _ _ h => h.elim

section Definitions

variable {c : Cursor} {loc head : Loc}

def Opened {δ : Type} (spans : δ → List Token → Prop) (loc : Loc) (keyword : String) (head : Loc)
    (d : δ) (ts : List Token) : Prop :=
  spans d (⟨.lparen, loc⟩ :: ⟨.symbol (ascii keyword), head⟩ :: ts)

theorem covers_typeDef : Covers c (typeDef loc) (Opened TypeDef.Spans loc "type" head) := by
  refine covers_symbol fun name c' => ?_
  refine (covers_idents _ _ c').bind fun flags ts c' hts => ?_
  subst hts
  refine (covers_typeBody c').bind fun body ts c' hbody => ?_
  refine covers_rparen fun c' close => covers_pure ?_
  exact ⟨head, flags, ts, ⟨close, by simp⟩, hbody⟩

theorem covers_termDecl : Covers c (termDecl loc) (Opened TermDecl.Spans loc "decl" head) := by
  refine (covers_idents _ _ c).bind fun flags ts c' hts => ?_
  subst hts
  refine covers_get ?_
  split_ifs
  · exact covers_failAt.bind (R := fun _ _ => False) fun _ _ _ h => h.elim
  refine covers_symbol fun term c' => covers_lparen fun c'' => ?_
  refine (covers_idents _ _ c'').bind fun args ts c₁ hts => ?_
  subst hts
  refine covers_rparen fun c₂ close => covers_symbol fun ret c₃ => ?_
  refine covers_rparen fun c₄ last => covers_pure ?_
  exact ⟨head, flags, c'.loc, _, ⟨last, by simp⟩, close, rfl⟩

theorem covers_externalKind (c : Cursor) : Covers c externalKind ExternalKind.Spans := by
  refine covers_symbol fun kind c' => ?_
  rw [Ident.token]
  split_ifs with hconstructor hextractor
  · exact covers_pure ⟨kind.loc, by rw [hconstructor]⟩
  · refine covers_get ?_
    split_ifs with hword
    · refine covers_advance (of_decide_eq_true hword) (covers_pure ?_)
      exact ⟨kind.loc, _, by rw [hextractor]⟩
    · exact covers_pure ⟨kind.loc, by rw [hextractor]⟩
  · exact covers_failAt

theorem covers_externalDef :
    Covers c (externalDef loc) (Opened ExternalDef.Spans loc "extern" head) := by
  refine (covers_externalKind c).bind fun kind ts c' hkind => ?_
  refine covers_symbol fun term c' => covers_symbol fun function c' => ?_
  refine covers_rparen fun c' close => covers_pure ?_
  exact ⟨head, ts, ⟨close, by simp⟩, hkind⟩

theorem covers_template :
    Covers c (template loc) (Opened Template.Spans loc "extractor" head) := by
  refine covers_lparen fun c' => covers_symbol fun term c' => ?_
  refine (covers_idents _ _ c').bind fun params ts c' hts => ?_
  subst hts
  refine covers_rparen fun c' close => ?_
  refine (covers_pattern c').bind fun body ts c' hbody => ?_
  refine covers_rparen fun c' last => covers_pure ?_
  exact ⟨head, c.loc, _, ts, ⟨last, by simp⟩, ⟨close, rfl⟩, hbody⟩

theorem covers_priority (c : Cursor) : Covers c priority IsPriority := by
  refine covers_get ?_
  split
  next value hl =>
    refine covers_advance hl ?_
    split
    next priority hpriority => exact covers_pure (.inr ⟨value, c.loc, hpriority, rfl⟩)
    next => exact covers_failAt
  next => exact covers_pure (.inl ⟨rfl, rfl⟩)

theorem lexeme?_of_atForm {c : Cursor} {head : String} (h : c.atForm head = true) :
    c.lexeme? = some .lparen ∧ c.advance.lexeme? = some (.symbol (ascii head)) := by
  obtain ⟨ts, endLoc, depth⟩ := c
  rcases ts with _ | ⟨t, _ | ⟨u, ts⟩⟩
  · cases h
  · cases h
  · obtain ⟨ht, hu⟩ := Bool.and_eq_true_iff.mp h
    exact ⟨congrArg some (of_decide_eq_true ht), congrArg some (of_decide_eq_true hu)⟩

theorem exists_guard_word {c : Cursor} (hc : (c.atForm "if-let" || c.atForm "if") = true) :
    ∃ word, c.lexeme? = some .lparen ∧ c.advance.lexeme? = some (.symbol (ascii word)) ∧
      (word = "if-let" ∨ word = "if") := by
  rcases Bool.or_eq_true_iff.mp hc with h | h
  · exact ⟨_, (lexeme?_of_atForm h).1, (lexeme?_of_atForm h).2, .inl rfl⟩
  · exact ⟨_, (lexeme?_of_atForm h).1, (lexeme?_of_atForm h).2, .inr rfl⟩

theorem covers_guard {c : Cursor} (hc : (c.atForm "if-let" || c.atForm "if") = true) :
    Covers c guard Guard.Spans := by
  obtain ⟨word, hparen, hword, hcases⟩ := exists_guard_word hc
  refine covers_get (covers_advance hparen (covers_get (covers_advance hword ?_)))
  rw [Cursor.atSymbol, hword]
  rcases hcases with rfl | rfl
  · rw [if_pos (by decide)]
    refine (covers_pattern _).bind fun pattern ts c' hpattern => ?_
    refine (covers_expr c').bind fun value us c' hvalue => ?_
    refine covers_rparen fun c' close => covers_pure ?_
    exact .inl ⟨c.advance.loc, ts, us, ⟨close, by simp⟩, hpattern, hvalue⟩
  · rw [if_neg (by decide), pure_bind]
    refine (covers_expr _).bind fun value us c' hvalue => ?_
    refine covers_rparen fun c' close => covers_pure ?_
    exact .inr ⟨_, us, ⟨close, rfl⟩, rfl, hvalue⟩

theorem covers_ruleName (c : Cursor) :
    Covers c ruleName fun name ts => ts = name.toList.map Ident.token := by
  refine covers_get ?_
  split_ifs
  · exact covers_symbol fun name c' => covers_pure rfl
  · exact covers_pure rfl

theorem covers_rule : Covers c (rule loc) (Opened Rule.Spans loc "rule" head) := by
  refine (covers_ruleName c).bind fun name ts c' hts => ?_
  subst hts
  refine (covers_priority c').bind fun priority number c' hnumber => ?_
  refine (covers_pattern c').bind fun pattern us c' hpattern => ?_
  refine (covers_many (fun c hc => covers_guard hc) c').bind fun guards vs c' hguards => ?_
  refine (covers_expr c').bind fun result ws c' hresult => ?_
  refine covers_rparen fun c' close => covers_pure ?_
  exact ⟨head, number, us, vs, ws, ⟨close, by simp⟩, hnumber, hpattern, hguards, hresult⟩

theorem covers_definition (c : Cursor) : Covers c definition Definition.Spans := by
  refine covers_get (covers_lparen fun c' => covers_symbol fun keyword c'' => ?_)
  rw [Ident.token]
  split_ifs with htype hdecl hexternal htemplate hrule
  · rw [htype]
    exact Covers.map covers_typeDef
  · rw [hdecl]
    exact Covers.map covers_termDecl
  · rw [hexternal]
    exact Covers.map covers_externalDef
  · rw [htemplate]
    exact Covers.map covers_template
  · rw [hrule]
    exact Covers.map covers_rule
  · exact covers_failAt

end Definitions

end Parse

end TermRules

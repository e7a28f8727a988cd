import TermRules.Proofs.Rendering

/-!
# Reading patterns and expressions back

Every reader takes the lexemes of what it is to read and leaves what follows,
provided that no at sign follows, which would make a name out of a pattern
variable. A repetition takes the lexemes of its parts, each of which is seen to
be there from its first lexemes.
-/

namespace TermRules

namespace Parse

def cursorAt (d : Int) (ls : List Lexeme) : Cursor := ⟨ls.map (Token.mk · .unknown), .unknown, d⟩

section Cursor

variable (d : Int) (ls : List Lexeme)

@[simp] theorem lexeme?_cursorAt : (cursorAt d ls).lexeme? = ls.head? := by
  cases ls <;> rfl

@[simp] theorem kind_cursorAt :
    (cursorAt d ls).kind = (ls.head?.map Lexeme.kind).getD .endOfFile := by
  rw [Cursor.kind, lexeme?_cursorAt]

@[simp] theorem loc_cursorAt : (cursorAt d ls).loc = .unknown := by
  cases ls <;> rfl

@[simp] theorem length_cursorAt : (cursorAt d ls).tokens.length = ls.length := List.length_map _

@[simp] theorem atSymbol_cursorAt (text : String) :
    (cursorAt d ls).atSymbol text = decide (ls.head? = some (.symbol (ascii text))) := by
  rw [Cursor.atSymbol, lexeme?_cursorAt]

@[simp] theorem inList_cursorAt (l : Lexeme) :
    (cursorAt d (l :: ls)).inList = decide (l ≠ .rparen) := by
  cases l <;> simp [Cursor.inList, Lexeme.kind]

end Cursor

/-- The parse answers `a` after exactly the lexemes `ls`, when `rest` follows them. -/
def Takes {α : Type} (p : Parse α) (ls : List Lexeme) (a : α) (rest : List Lexeme) : Prop :=
  ∀ d, ∃ d', p.run (cursorAt d (ls ++ rest)) = .ok a (cursorAt d' rest)

section Takes

variable {α β : Type} {p : Parse α} {f : α → Parse β} {a : α} {b : β} {ls ls' rest : List Lexeme}
  {l : Lexeme}

theorem takes_pure : Takes (pure a) [] a rest := fun d => ⟨d, rfl⟩

theorem Takes.bind (h : Takes p ls a (ls' ++ rest)) (hf : Takes (f a) ls' b rest) :
    Takes (p >>= f) (ls ++ ls') b rest := by
  intro d
  obtain ⟨d', hp⟩ := h d
  obtain ⟨d'', hb⟩ := hf d'
  refine ⟨d'', ?_⟩
  rw [List.append_assoc, EStateM.run_bind, hp]
  exact hb

theorem Takes.cons (h : Takes p [l] a (ls' ++ rest)) (hf : Takes (f a) ls' b rest) :
    Takes (p >>= f) (l :: ls') b rest :=
  h.bind hf

theorem Takes.last (h : Takes p ls a rest) (hf : Takes (f a) [] b rest) :
    Takes (p >>= f) ls b rest := by
  have hbind : Takes (p >>= f) (ls ++ []) b rest := Takes.bind h hf
  rwa [List.append_nil] at hbind

theorem takes_map {g : α → β} (h : Takes p ls a rest) : Takes (g <$> p) ls (g a) rest :=
  h.last (f := fun a => pure (g a)) takes_pure

theorem takes_get {k : Cursor → Parse β} (h : ∀ d, Takes (k (cursorAt d (ls ++ rest))) ls b rest) :
    Takes (get >>= k) ls b rest :=
  fun d => h d d

theorem takes_advance : Takes advance [l] () rest := fun _ => ⟨_, rfl⟩

theorem takes_expect {k : TokenKind} {what : String} (h : l.kind = k) :
    Takes (expect k what) [l] () rest := by
  refine takes_get fun d => ?_
  rw [if_pos (by simpa using h)]
  exact takes_advance

theorem takes_symbol {name : Bytes} {what : String} :
    Takes (symbol what) [.symbol name] ⟨name, .unknown⟩ rest := by
  refine takes_get fun d => ?_
  simp only [lexeme?_cursorAt, loc_cursorAt]
  exact takes_advance.last takes_pure

end Takes

def Quiet (ls : List Lexeme) : Prop := ls.head? ≠ some .atSign

/-- One part of a repetition, which is seen to be there from its first lexemes. -/
structure Repeats {α : Type} (more : Cursor → Bool) (item : Parse α) (ls : List Lexeme) (a : α) :
    Prop where
  more : ∀ d rest, more (cursorAt d (ls ++ rest)) = true
  quiet : ∀ rest, Quiet (ls ++ rest)
  takes : ∀ rest, Quiet rest → Takes item ls a rest

theorem repeats_inList {α : Type} {item : Parse α} {ls : List Lexeme} {a : α}
    (hls : ∃ l ls', ls = l :: ls' ∧ l ≠ .atSign ∧ l ≠ .rparen)
    (h : ∀ rest, Quiet rest → Takes item ls a rest) : Repeats Cursor.inList item ls a := by
  obtain ⟨l, ls, rfl, hat, hclose⟩ := hls
  refine ⟨fun d rest => ?_, fun rest => by simpa [Quiet] using hat, h⟩
  rw [List.cons_append, inList_cursorAt]
  exact decide_eq_true hclose

theorem Repeats.ne_nil {α : Type} {more : Cursor → Bool} {item : Parse α} {ls : List Lexeme}
    {a : α} (h : Repeats more item ls a) : ls ≠ [] := by
  rintro rfl
  exact h.quiet [.atSign] rfl

section Many

variable {α β : Type} {more : Cursor → Bool} {item : Parse α} {lex : β → List Lexeme} {val : β → α}

theorem length_le_flatMap {xs : List β} (hxs : ∀ x ∈ xs, lex x ≠ []) :
    xs.length ≤ (xs.flatMap lex).length := by
  induction xs with
  | nil => exact Nat.le_refl _
  | cons x xs ih =>
    rw [List.forall_mem_cons] at hxs
    have hx := List.length_pos_iff.mpr hxs.1
    have hrest := ih hxs.2
    rw [List.flatMap_cons, List.length_append, List.length_cons]
    omega

variable {rest : List Lexeme} (hrest : Quiet rest) (hend : ∀ d, more (cursorAt d rest) = false)
include hrest hend

theorem takes_manyWithin {xs : List β} (hxs : ∀ x ∈ xs, Repeats more item (lex x) (val x))
    {fuel : Nat} (hfuel : xs.length ≤ fuel) :
    Takes (manyWithin more item fuel) (xs.flatMap lex) (xs.map val) rest := by
  induction xs generalizing fuel with
  | nil =>
    cases fuel with
    | zero => exact takes_pure
    | succ fuel =>
      refine takes_get fun d => ?_
      rw [List.flatMap_nil, List.nil_append, hend, if_neg Bool.false_ne_true]
      exact takes_pure
  | cons x xs ih =>
    rw [List.forall_mem_cons] at hxs
    rw [List.length_cons] at hfuel
    obtain ⟨fuel, rfl⟩ : ∃ n, fuel = n + 1 := ⟨fuel - 1, by omega⟩
    have hquiet : Quiet (xs.flatMap lex ++ rest) := by
      cases xs with
      | nil => exact hrest
      | cons y ys =>
        rw [List.flatMap_cons, List.append_assoc]
        exact (hxs.2 y List.mem_cons_self).quiet _
    refine takes_get fun d => ?_
    rw [List.flatMap_cons, List.append_assoc, hxs.1.more, if_pos rfl]
    exact (hxs.1.takes _ hquiet).bind ((ih hxs.2 (by omega)).last takes_pure)

theorem takes_many {xs : List β} (hxs : ∀ x ∈ xs, Repeats more item (lex x) (val x)) :
    Takes (many more item) (xs.flatMap lex) (xs.map val) rest := by
  refine takes_get fun d => takes_manyWithin hrest hend hxs ?_
  have hlength := length_le_flatMap fun x hx => (hxs x hx).ne_nil
  rw [length_cursorAt, List.length_append]
  omega

end Many

theorem length_items_lt {f : Form} {fs : List Form} {n : Nat}
    (h : (Form.list (f :: fs)).lexemes.length ≤ n + 1) : (Form.allLexemes fs).length ≤ n := by
  rw [Form.lexemes, Form.allLexemes, List.length_cons, List.length_append, List.length_append,
    List.length_singleton] at h
  omega

theorem Quiet.kind {rest : List Lexeme} (h : Quiet rest) (d : Int) :
    (cursorAt d rest).kind ≠ .atSign := by
  rw [kind_cursorAt]
  cases rest with
  | nil => simp
  | cons l ls => cases l <;> simp_all [Quiet, Lexeme.kind]

theorem quiet_rparen (ls : List Lexeme) : Quiet (.rparen :: ls) := by simp [Quiet]

theorem lexemes_pattern (p : Pattern) :
    ∃ l ls, Form.allLexemes p.forms = l :: ls ∧ l ≠ .atSign ∧ l ≠ .rparen := by
  cases p with
  | bool _ value => cases value <;> exact ⟨_, _, rfl, by simp⟩
  | _ => exact ⟨_, _, rfl, by simp⟩

theorem allLexemes_patterns (ps : List Pattern) :
    Form.allLexemes (Pattern.formsOfAll ps) = ps.flatMap fun p => Form.allLexemes p.forms := by
  induction ps with
  | nil => rfl
  | cons p ps ih => rw [Pattern.formsOfAll, Form.allLexemes_append, ih, List.flatMap_cons]

section Pattern

variable {rest ls : List Lexeme} {fuel : Nat} {name : Bytes}

theorem takes_patternOfSymbol (hrest : Quiet rest) :
    Takes (patternWithin (fuel + 1)) [.symbol name] (patternOfSymbol .unknown name) rest := by
  refine takes_get fun d => ?_
  simp only [lexeme?_cursorAt, loc_cursorAt, List.cons_append, List.head?_cons]
  refine takes_advance.cons (takes_get fun d' => ?_)
  rw [if_neg (by simpa using fun _ => hrest.kind d')]
  exact takes_pure

theorem takes_patternInt {value : IntLiteral} :
    Takes (patternWithin (fuel + 1)) [.int value] (.int .unknown value) rest := by
  refine takes_get fun d => ?_
  simp only [lexeme?_cursorAt, loc_cursorAt, List.cons_append, List.head?_cons]
  exact takes_advance.last takes_pure

theorem takes_patternBind (hname : isPatternKeyword name = false) {sub : Pattern}
    (hsub : Takes (patternWithin fuel) ls sub rest) :
    Takes (patternWithin (fuel + 1)) (.symbol name :: .atSign :: ls) (.bind .unknown name sub)
      rest := by
  refine takes_get fun d => ?_
  simp only [lexeme?_cursorAt, loc_cursorAt, List.cons_append, List.head?_cons]
  refine takes_advance.cons (takes_get fun d' => ?_)
  rw [if_pos (by simp [hname, Lexeme.kind])]
  exact takes_advance.cons (hsub.last takes_pure)

theorem takes_patternList (name : Bytes) {ps : List Pattern}
    (hps : ∀ p ∈ ps, Repeats Cursor.inList (patternWithin fuel) (Form.allLexemes p.forms)
      (p.relocate nowhere)) (rest : List Lexeme) :
    Takes (patternWithin (fuel + 1))
      (.lparen :: .symbol name :: (Form.allLexemes (Pattern.formsOfAll ps) ++ [.rparen]))
      (if name = ascii "and" then .all .unknown (Pattern.relocateAll nowhere ps)
        else .term .unknown name (Pattern.relocateAll nowhere ps)) rest := by
  refine takes_get fun d => ?_
  simp only [lexeme?_cursorAt, loc_cursorAt, List.cons_append, List.head?_cons]
  refine takes_advance.cons (takes_symbol.cons ?_)
  rw [allLexemes_patterns, Pattern.relocateAll_eq_map]
  refine (takes_many (quiet_rparen _) (fun _ => by simp) hps).bind ?_
  refine Takes.last (takes_expect rfl) ?_
  exact takes_pure

end Pattern

mutual

theorem takes_patternWithin : ∀ (p : Pattern), p.Unreserved → ∀ fuel : Nat,
    (Form.allLexemes p.forms).length ≤ fuel → ∀ {rest : List Lexeme}, Quiet rest →
      Takes (patternWithin fuel) (Form.allLexemes p.forms) (p.relocate nowhere) rest
  | p, _, 0, hfuel, _, _ => by
    obtain ⟨l, ls, hls, -⟩ := lexemes_pattern p
    rw [hls] at hfuel
    cases hfuel
  | .wildcard _, _, fuel + 1, _, _, hrest => takes_patternOfSymbol hrest
  | .var _ name, h, fuel + 1, _, _, hrest => by
    have hvar : patternOfSymbol .unknown name = .var .unknown name := by
      rw [Pattern.Unreserved, isPatternKeyword] at h
      simp_all [patternOfSymbol]
    rw [Pattern.relocate, nowhere, ← hvar]
    exact takes_patternOfSymbol hrest
  | .bind _ name sub, h, fuel + 1, hfuel, _, hrest => by
    rw [Pattern.forms, Form.allLexemes, Form.allLexemes] at hfuel
    refine takes_patternBind h.1 (takes_patternWithin sub h.2 fuel ?_ hrest)
    simp [Form.lexemes] at hfuel
    omega
  | .int _ value, _, fuel + 1, _, _, _ => takes_patternInt
  | .bool _ value, _, fuel + 1, _, _, hrest => by
    cases value <;> exact takes_patternOfSymbol hrest
  | .term _ name args, h, fuel + 1, hfuel, rest, _ => by
    rw [Pattern.forms, Form.allLexemes_singleton] at hfuel ⊢
    have hargs := repeats_patterns args h.2 fuel (length_items_lt hfuel)
    have htakes := takes_patternList name hargs rest
    rw [if_neg h.1] at htakes
    exact htakes
  | .all _ parts, h, fuel + 1, hfuel, rest, _ => by
    rw [Pattern.forms, Form.allLexemes_singleton] at hfuel ⊢
    exact takes_patternList _ (repeats_patterns parts h fuel (length_items_lt hfuel)) rest

theorem repeats_patterns : ∀ (ps : List Pattern), Pattern.AllUnreserved ps → ∀ fuel : Nat,
    (Form.allLexemes (Pattern.formsOfAll ps)).length ≤ fuel →
      ∀ p ∈ ps, Repeats Cursor.inList (patternWithin fuel) (Form.allLexemes p.forms)
        (p.relocate nowhere)
  | [], _, _, _ => by simp
  | p :: ps, h, fuel, hfuel => by
    rw [Pattern.formsOfAll, Form.allLexemes_append, List.length_append] at hfuel
    rw [List.forall_mem_cons]
    refine ⟨?_, repeats_patterns ps h.2 fuel (by omega)⟩
    exact repeats_inList (lexemes_pattern p) fun rest =>
      takes_patternWithin p h.1 fuel (by omega)

end

theorem takes_pattern {p : Pattern} (h : p.Unreserved) {rest : List Lexeme} (hrest : Quiet rest) :
    Takes pattern (Form.allLexemes p.forms) (p.relocate nowhere) rest := by
  refine takes_get fun d => takes_patternWithin p h _ ?_ hrest
  rw [length_cursorAt, List.length_append]
  omega

theorem lexemes_expr (e : Expr) :
    ∃ l ls, e.form.lexemes = l :: ls ∧ l ≠ .atSign ∧ l ≠ .rparen := by
  cases e with
  | bool _ value => cases value <;> exact ⟨_, _, rfl, by simp⟩
  | _ => exact ⟨_, _, rfl, by simp⟩

theorem allLexemes_exprs (es : List Expr) :
    Form.allLexemes (Expr.formsOfAll es) = es.flatMap fun e => e.form.lexemes := by
  induction es with
  | nil => rfl
  | cons e es ih => rw [Expr.formsOfAll, Form.allLexemes, ih, List.flatMap_cons]

def bindingLexemes (b : Binding Expr) : List Lexeme :=
  [.lparen, .symbol b.var.name, .symbol b.type.name] ++ b.value.form.lexemes ++ [.rparen]

theorem allLexemes_bindings (bs : List (Binding Expr)) :
    Form.allLexemes (Expr.formsIn bs) = bs.flatMap bindingLexemes := by
  induction bs with
  | nil => rfl
  | cons b bs ih =>
    rw [Expr.formsIn, Form.allLexemes, ih, List.flatMap_cons]
    simp [Form.lexemes, Form.allLexemes, Form.ident, bindingLexemes]

section Expr

variable {rest ls : List Lexeme} {fuel : Nat} {name : Bytes}

theorem takes_exprOfSymbol :
    Takes (exprWithin (fuel + 1)) [.symbol name] (exprOfSymbol .unknown name) rest := by
  refine takes_get fun d => ?_
  simp only [lexeme?_cursorAt, loc_cursorAt, List.cons_append, List.head?_cons]
  exact takes_advance.last takes_pure

theorem takes_exprInt {value : IntLiteral} :
    Takes (exprWithin (fuel + 1)) [.int value] (.int .unknown value) rest := by
  refine takes_get fun d => ?_
  simp only [lexeme?_cursorAt, loc_cursorAt, List.cons_append, List.head?_cons]
  exact takes_advance.last takes_pure

theorem takes_exprTerm (hname : name ≠ ascii "let") {es : List Expr}
    (hes : ∀ e ∈ es, Repeats Cursor.inList (exprWithin fuel) e.form.lexemes (e.relocate nowhere)) :
    Takes (exprWithin (fuel + 1))
      (.lparen :: .symbol name :: (Form.allLexemes (Expr.formsOfAll es) ++ [.rparen]))
      (.term .unknown name (Expr.relocateAll nowhere es)) rest := by
  refine takes_get fun d => ?_
  simp only [lexeme?_cursorAt, loc_cursorAt, List.cons_append, List.head?_cons]
  refine takes_advance.cons (takes_symbol.cons ?_)
  rw [if_neg hname, allLexemes_exprs, Expr.relocateAll_eq_map]
  refine (takes_many (quiet_rparen _) (fun _ => by simp) hes).bind ?_
  refine Takes.last (takes_expect rfl) ?_
  exact takes_pure

theorem repeats_binding {b : Binding Expr}
    (hvalue : ∀ rest,
      Takes (exprWithin fuel) b.value.form.lexemes (b.value.relocate nowhere) rest) :
    Repeats (·.kind = .lparen) (binding (exprWithin fuel)) (bindingLexemes b)
      (b.relocate nowhere) := by
  refine ⟨fun d rest => by simp [bindingLexemes, Lexeme.kind],
    fun rest => by simp [bindingLexemes, Quiet], fun rest _ => ?_⟩
  refine takes_advance.cons (takes_symbol.cons (takes_symbol.cons ((hvalue _).bind ?_)))
  refine Takes.last (takes_expect rfl) ?_
  exact takes_pure

theorem takes_exprLet {bs : List (Binding Expr)} {body : Expr}
    (hbs : ∀ b ∈ bs, Repeats (·.kind = .lparen) (binding (exprWithin fuel)) (bindingLexemes b)
      (b.relocate nowhere))
    (hbody : ∀ rest, Takes (exprWithin fuel) body.form.lexemes (body.relocate nowhere) rest)
    (loc : Loc) :
    Takes (exprWithin (fuel + 1)) (Expr.letIn loc bs body).form.lexemes
      (.letIn .unknown (Expr.relocateIn nowhere bs) (body.relocate nowhere)) rest := by
  have hlexemes : (Expr.letIn loc bs body).form.lexemes =
      .lparen :: .symbol (ascii "let") :: .lparen ::
        (bs.flatMap bindingLexemes ++ .rparen :: (body.form.lexemes ++ [.rparen])) := by
    simp [Expr.form, Form.lexemes, Form.allLexemes, Form.word, allLexemes_bindings]
  rw [hlexemes, Expr.relocateIn_eq_map]
  refine takes_get fun d => ?_
  simp only [lexeme?_cursorAt, loc_cursorAt, List.cons_append, List.head?_cons]
  refine takes_advance.cons (takes_symbol.cons ?_)
  rw [if_pos rfl]
  refine Takes.cons (takes_expect rfl) ?_
  refine (takes_many (quiet_rparen _) (fun _ => by simp [Lexeme.kind]) hbs).bind ?_
  refine Takes.cons (takes_expect rfl) ?_
  refine (hbody _).bind ?_
  refine Takes.last (takes_expect rfl) ?_
  exact takes_pure

end Expr

mutual

theorem takes_exprWithin : ∀ (e : Expr), e.Unreserved → ∀ fuel : Nat,
    e.form.lexemes.length ≤ fuel → ∀ rest : List Lexeme,
      Takes (exprWithin fuel) e.form.lexemes (e.relocate nowhere) rest
  | e, _, 0, hfuel, _ => by
    obtain ⟨l, ls, hls, -⟩ := lexemes_expr e
    rw [hls] at hfuel
    cases hfuel
  | .var _ name, h, fuel + 1, _, rest => by
    have hvar : exprOfSymbol .unknown name = .var .unknown name := by
      rw [exprOfSymbol, if_neg h.1, if_neg h.2]
    rw [Expr.relocate, nowhere, ← hvar]
    exact takes_exprOfSymbol
  | .int _ value, _, fuel + 1, _, _ => takes_exprInt
  | .bool _ value, _, fuel + 1, _, _ => by
    cases value <;> exact takes_exprOfSymbol
  | .term _ name args, h, fuel + 1, hfuel, _ =>
    takes_exprTerm h.1 (repeats_exprs args h.2 fuel (length_items_lt hfuel))
  | .letIn loc bs body, h, fuel + 1, hfuel, _ => by
    have hlength := length_items_lt hfuel
    simp [Form.allLexemes, Form.lexemes] at hlength
    exact takes_exprLet (repeats_bindings bs h.1 fuel (by omega))
      (takes_exprWithin body h.2 fuel (by omega)) loc

theorem repeats_exprs : ∀ (es : List Expr), Expr.AllUnreserved es → ∀ fuel : Nat,
    (Form.allLexemes (Expr.formsOfAll es)).length ≤ fuel →
      ∀ e ∈ es, Repeats Cursor.inList (exprWithin fuel) e.form.lexemes (e.relocate nowhere)
  | [], _, _, _ => by simp
  | e :: es, h, fuel, hfuel => by
    rw [Expr.formsOfAll, Form.allLexemes, List.length_append] at hfuel
    rw [List.forall_mem_cons]
    refine ⟨?_, repeats_exprs es h.2 fuel (by omega)⟩
    exact repeats_inList (lexemes_expr e) fun rest _ =>
      takes_exprWithin e h.1 fuel (by omega) rest

theorem repeats_bindings : ∀ (bs : List (Binding Expr)), Expr.UnreservedIn bs → ∀ fuel : Nat,
    (Form.allLexemes (Expr.formsIn bs)).length ≤ fuel →
      ∀ b ∈ bs, Repeats (·.kind = .lparen) (binding (exprWithin fuel)) (bindingLexemes b)
        (b.relocate nowhere)
  | [], _, _, _ => by simp
  | ⟨x, type, value⟩ :: bs, h, fuel, hfuel => by
    rw [Expr.formsIn, Form.allLexemes, List.length_append] at hfuel
    rw [List.forall_mem_cons]
    refine ⟨?_, repeats_bindings bs h.2 fuel (by omega)⟩
    simp [Form.allLexemes, Form.lexemes] at hfuel
    exact repeats_binding (takes_exprWithin value h.1 fuel (by omega))

end

theorem takes_expr {e : Expr} (h : e.Unreserved) (rest : List Lexeme) :
    Takes expr e.form.lexemes (e.relocate nowhere) rest := by
  refine takes_get fun d => takes_exprWithin e h _ ?_ rest
  rw [length_cursorAt, List.length_append]
  omega

end Parse

end TermRules

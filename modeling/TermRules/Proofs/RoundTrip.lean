import TermRules.Proofs.ReadForms

/-!
# Reading definitions back

What is written as canonical text is read back: names, types, terms and rules by
the readers of their parts, and files definition by definition.
-/

namespace TermRules

namespace Parse

theorem takes_words {more : Cursor → Bool} {what : String} {words : List Bytes}
    (hmore : ∀ w ∈ words, ∀ d rest, more (cursorAt d (.symbol w :: rest)) = true)
    {rest : List Lexeme} (hrest : Quiet rest) (hend : ∀ d, more (cursorAt d rest) = false) :
    Takes (many more (symbol what)) (Form.allLexemes (words.map .symbol))
      (words.map (Ident.mk · .unknown)) rest := by
  rw [Form.allLexemes_map]
  exact takes_many hrest hend fun w hw =>
    ⟨hmore w hw, fun _ => by simp [Form.lexemes, Quiet], fun _ _ => takes_symbol⟩

theorem repeats_field (f : Field) :
    Repeats (·.kind = .lparen) field f.form.lexemes (f.relocate nowhere) := by
  refine ⟨fun d rest => by simp [Field.form, Form.lexemes, Lexeme.kind],
    fun rest => by simp [Field.form, Form.lexemes, Quiet], fun rest _ => ?_⟩
  refine takes_advance.cons (takes_symbol.cons (takes_symbol.cons ?_))
  refine Takes.last (takes_expect rfl) ?_
  exact takes_pure

theorem takes_variant (bare : Bool) (v : Variant) (rest : List Lexeme) :
    Takes variant (v.form bare).lexemes (v.relocate nowhere) rest := by
  obtain ⟨name, fields⟩ := v
  rw [Variant.form]
  split_ifs with hbare
  · obtain ⟨-, rfl⟩ := hbare
    refine takes_get fun d => ?_
    rw [if_pos (by simp [Form.ident, Form.lexemes, Lexeme.kind])]
    exact takes_symbol.last takes_pure
  · refine takes_get fun d => ?_
    rw [if_neg (by simp [Form.lexemes, Lexeme.kind]), Form.lexemes, Form.allLexemes,
      Form.allLexemes_map]
    refine Takes.cons (takes_expect rfl) (takes_symbol.cons ?_)
    refine (takes_many (quiet_rparen _) (fun _ => by simp [Lexeme.kind])
      fun f _ => repeats_field f).bind ?_
    refine Takes.last (takes_expect rfl) ?_
    exact takes_pure

theorem lexemes_variant (bare : Bool) (v : Variant) :
    ∃ l ls, (v.form bare).lexemes = l :: ls ∧ l ≠ .atSign ∧ l ≠ .rparen := by
  rw [Variant.form]
  split_ifs <;> exact ⟨_, _, rfl, by simp⟩

theorem takes_typeBody (bare : Bool) (b : TypeBody) (rest : List Lexeme) :
    Takes typeBody (b.form bare).lexemes (b.relocate nowhere) rest := by
  refine takes_get fun d => ?_
  cases b with
  | primitive spelling =>
    rw [if_neg (by simp [TypeBody.form, Form.lexemes, Lexeme.kind])]
    refine Takes.cons (takes_expect rfl) (takes_symbol.cons ?_)
    rw [if_pos rfl]
    refine Takes.cons (takes_map takes_symbol) ?_
    refine Takes.last (takes_expect rfl) ?_
    exact takes_pure
  | enum variants =>
    rw [if_neg (by simp [TypeBody.form, Form.lexemes, Lexeme.kind])]
    refine Takes.cons (takes_expect rfl) (takes_symbol.cons ?_)
    rw [if_neg (by decide), if_pos rfl, Form.allLexemes_map]
    refine Takes.bind (takes_map (takes_many (quiet_rparen _) (fun _ => by simp)
      fun v _ => repeats_inList (lexemes_variant bare v)
        fun rest _ => takes_variant bare v rest)) ?_
    refine Takes.last (takes_expect rfl) ?_
    exact takes_pure

theorem mem_flagWords {w : Bytes} {text text' : String} {flag flag' : Bool}
    (h : w ∈ flagWord text flag ++ flagWord text' flag') : w = ascii text ∨ w = ascii text' := by
  cases flag <;> cases flag' <;> simp_all [flagWord]

theorem takes_flags {text text' what : String} (flag flag' : Bool) {rest : List Lexeme}
    (hrest : Quiet rest) (hfirst : rest.head? ≠ some (.symbol (ascii text)))
    (hsecond : rest.head? ≠ some (.symbol (ascii text'))) :
    Takes (many (fun c => c.atSymbol text || c.atSymbol text') (symbol what))
      (Form.allLexemes ((flagWord text flag ++ flagWord text' flag').map .symbol))
      ((flagWord text flag ++ flagWord text' flag').map (Ident.mk · .unknown)) rest := by
  refine takes_words (fun w hw d rest => ?_) hrest fun d => ?_
  · rcases mem_flagWords hw with rfl | rfl <;> simp
  · simp [hfirst, hsecond]

theorem takes_typeDef (bare : Bool) (d : TypeDef) (rest : List Lexeme) :
    Takes (typeDef .unknown)
      (.symbol d.name.name ::
        (Form.allLexemes
          ((flagWord "extern" d.isExternal ++ flagWord "nodebug" d.noDebug).map .symbol) ++
          ((d.body.form bare).lexemes ++ [.rparen])))
      (d.relocate nowhere) rest := by
  have hbody : ∃ ls, (d.body.form bare).lexemes = .lparen :: ls := by
    cases d.body <;> exact ⟨_, rfl⟩
  obtain ⟨ls, hls⟩ := hbody
  refine takes_symbol.cons (Takes.bind (takes_flags _ _ ?_ ?_ ?_) ?_)
  · simp [hls, Quiet]
  · simp [hls]
  · simp [hls]
  refine (takes_typeBody bare d.body _).bind ?_
  refine Takes.last (takes_expect rfl) ?_
  obtain ⟨name, isExternal, noDebug, body, loc⟩ := d
  cases isExternal <;> cases noDebug <;> exact takes_pure

theorem takes_idents {what : String} (is : List Ident) (rest : List Lexeme) :
    Takes (many (·.kind = .symbol) (symbol what)) (Form.allLexemes (is.map .ident))
      (is.map (Ident.relocate nowhere)) (.rparen :: rest) := by
  have hforms : is.map Form.ident = (is.map Ident.name).map .symbol := (List.map_map).symm
  have hidents : is.map (Ident.relocate nowhere) =
      (is.map Ident.name).map (Ident.mk · .unknown) := by
    rw [List.map_map]
    rfl
  rw [hforms, hidents]
  exact takes_words (fun _ _ _ _ => by simp [Lexeme.kind]) (quiet_rparen rest)
    fun _ => by simp [Lexeme.kind]

theorem takes_termDecl (d : TermDecl) (h : (Definition.decl d).Unreserved) (rest : List Lexeme) :
    Takes (termDecl .unknown)
      (Form.allLexemes ((flagWord "pure" d.isPure ++ flagWord "partial" d.isPartial).map .symbol) ++
        .symbol d.term.name :: .lparen :: (Form.allLexemes (d.args.map .ident) ++
          [.rparen, .symbol d.ret.name, .rparen]))
      (d.relocate nowhere) rest := by
  simp only [Definition.Unreserved, List.mem_cons, List.not_mem_nil, or_false, not_or] at h
  obtain ⟨hpure, hpartial, hmulti⟩ := h
  refine Takes.bind (takes_flags _ _ ?_ ?_ ?_) (takes_get fun d' => ?_)
  · simp [Quiet]
  · simpa using hpure
  · simpa using hpartial
  rw [if_neg (by simpa using hmulti)]
  refine takes_symbol.cons (Takes.cons (takes_expect rfl) ?_)
  refine (takes_idents d.args _).bind (Takes.cons (takes_expect rfl) (takes_symbol.cons ?_))
  refine Takes.last (takes_expect rfl) ?_
  obtain ⟨term, args, ret, isPure, isPartial, loc⟩ := d
  cases isPure <;> cases isPartial <;> exact takes_pure

theorem takes_externalKind (d : ExternalDef) (h : (Definition.external d).Unreserved)
    (rest : List Lexeme) :
    Takes externalKind (Form.allLexemes d.kind.forms) d.kind (.symbol d.term.name :: rest) := by
  obtain ⟨kind, term, function, loc⟩ := d
  cases kind with
  | constructor =>
    refine takes_symbol.cons ?_
    rw [if_pos rfl]
    exact takes_pure
  | extractor infallible =>
    refine takes_symbol.cons ?_
    rw [if_neg (by decide), if_pos rfl]
    refine takes_get fun d => ?_
    cases infallible with
    | true =>
      rw [if_pos (by simp [flagWord, Form.lexemes])]
      exact takes_advance.last takes_pure
    | false =>
      rw [if_neg (by simpa [flagWord, Form.allLexemes] using h rfl)]
      exact takes_pure

theorem takes_externalDef (d : ExternalDef) (h : (Definition.external d).Unreserved)
    (rest : List Lexeme) :
    Takes (externalDef .unknown)
      (Form.allLexemes d.kind.forms ++ [.symbol d.term.name, .symbol d.function.name, .rparen])
      (d.relocate nowhere) rest := by
  refine (takes_externalKind d h _).bind (takes_symbol.cons (takes_symbol.cons ?_))
  refine Takes.last (takes_expect rfl) ?_
  exact takes_pure

theorem takes_template (d : Template) (h : d.body.Unreserved) (rest : List Lexeme) :
    Takes (template .unknown)
      (.lparen :: .symbol d.term.name :: (Form.allLexemes (d.params.map .ident) ++
        .rparen :: (Form.allLexemes d.body.forms ++ [.rparen])))
      (d.relocate nowhere) rest := by
  refine Takes.cons (takes_expect rfl) (takes_symbol.cons ?_)
  refine (takes_idents d.params _).bind (Takes.cons (takes_expect rfl) ?_)
  refine (takes_pattern h (quiet_rparen _)).bind ?_
  refine Takes.last (takes_expect rfl) ?_
  exact takes_pure

theorem value_ofInt64 (n : Int64) : (IntLiteral.ofInt64 n).value = n.toInt := by
  have hmin := n.le_toInt
  have hmax := n.toInt_lt
  have hmagnitude : n.toInt.natAbs.toUInt64.toNat = n.toInt.natAbs :=
    UInt64.toNat_ofNat_of_lt' (by rw [UInt64.size]; omega)
  rw [IntLiteral.value, IntLiteral.ofInt64]
  dsimp only
  rw [hmagnitude]
  split_ifs with hnegative <;> simp only [decide_eq_true_eq] at hnegative <;> omega

theorem toInt64_ofInt64 (n : Int64) : (IntLiteral.ofInt64 n).toInt64? = some n := by
  have hmin := n.le_toInt
  have hmax := n.toInt_lt
  rw [IntLiteral.toInt64?, value_ofInt64, if_pos, Int64.ofInt_toInt]
  exact ⟨hmin, by change n.toInt ≤ 2 ^ 63 - 1; omega⟩

theorem takes_priority (n : Int64) (rest : List Lexeme) :
    Takes priority [.int (.ofInt64 n)] n rest := by
  refine takes_get fun d => ?_
  simp only [lexeme?_cursorAt, List.cons_append, List.head?_cons]
  refine takes_advance.last ?_
  rw [toInt64_ofInt64]
  exact takes_pure

theorem takes_ruleName (name : Option Ident) (n : IntLiteral) (rest : List Lexeme) :
    Takes ruleName (Form.allLexemes (name.map Form.ident).toList)
      (name.map (Ident.relocate nowhere)) (.int n :: rest) := by
  refine takes_get fun d => ?_
  cases name with
  | none =>
    rw [if_neg (by simp [Form.allLexemes, Lexeme.kind])]
    exact takes_pure
  | some i =>
    rw [if_pos (by simp [Form.ident, Form.lexemes, Lexeme.kind])]
    exact takes_symbol.last takes_pure

theorem lexemes_guard (g : Guard) :
    g.form.lexemes = .lparen :: .symbol (ascii "if-let") ::
      (Form.allLexemes g.pattern.forms ++ (g.value.form.lexemes ++ [.rparen])) := by
  simp [Guard.form, Form.lexemes, Form.allLexemes, Form.word]

theorem quiet_expr (e : Expr) (rest : List Lexeme) : Quiet (e.form.lexemes ++ rest) := by
  obtain ⟨l, ls, hls, hat, -⟩ := lexemes_expr e
  rw [hls]
  simpa [Quiet] using hat

theorem repeats_guard {g : Guard} (hpattern : g.pattern.Unreserved) (hvalue : g.value.Unreserved) :
    Repeats (fun c => c.atForm "if-let" || c.atForm "if") guard g.form.lexemes
      (g.relocate nowhere) := by
  rw [lexemes_guard]
  refine ⟨fun _ _ => by simp [cursorAt, Cursor.atForm], fun _ => by simp [Quiet], fun rest _ => ?_⟩
  refine takes_get fun d => takes_advance.cons (takes_get fun d' => takes_advance.cons ?_)
  rw [if_pos (by simp)]
  refine (takes_pattern hpattern ?_).bind ((takes_expr hvalue _).bind ?_)
  · rw [List.append_assoc]
    exact quiet_expr _ _
  · refine Takes.last (takes_expect rfl) ?_
    simp only [loc_cursorAt]
    exact takes_pure

theorem atForm_of_ne {l : Lexeme} (h : l ≠ .lparen) (d : Int) (ls : List Lexeme) (head : String) :
    (cursorAt d (l :: ls)).atForm head = false := by
  cases ls <;> simp [cursorAt, Cursor.atForm, h]

theorem atForm_expr {e : Expr} (h : ¬e.IsGuardForm) (d : Int) (rest : List Lexeme) :
    ((cursorAt d (e.form.lexemes ++ rest)).atForm "if-let" ||
      (cursorAt d (e.form.lexemes ++ rest)).atForm "if") = false := by
  rw [Bool.or_eq_false_iff]
  cases e with
  | var _ name => exact ⟨atForm_of_ne (by simp) _ _ _, atForm_of_ne (by simp) _ _ _⟩
  | int _ value => exact ⟨atForm_of_ne (by simp) _ _ _, atForm_of_ne (by simp) _ _ _⟩
  | bool _ value =>
    cases value <;> exact ⟨atForm_of_ne (by simp) _ _ _, atForm_of_ne (by simp) _ _ _⟩
  | term _ name args =>
    rw [Expr.IsGuardForm, not_or] at h
    simp [Expr.form, Form.lexemes, Form.allLexemes, cursorAt, Cursor.atForm, h.1, h.2]
  | letIn _ bindings body =>
    simp [Expr.form, Form.lexemes, Form.allLexemes, Form.word, cursorAt, Cursor.atForm, ascii]

theorem takes_rule (r : Rule) (h : r.Unreserved) (rest : List Lexeme) :
    Takes (rule .unknown)
      (Form.allLexemes (r.name.map Form.ident).toList ++ .int (.ofInt64 r.priority) ::
        (Form.allLexemes r.pattern.forms ++ (r.guards.flatMap (fun g => g.form.lexemes) ++
          (r.result.form.lexemes ++ [.rparen]))))
      (r.relocate nowhere) rest := by
  obtain ⟨hpattern, hguards, hresult, hhead⟩ := h
  refine (takes_ruleName _ _ _).bind ((takes_priority _ _).cons ?_)
  refine (takes_pattern hpattern ?_).bind ?_
  · cases r.guards with
    | nil =>
      rw [List.flatMap_nil, List.nil_append, List.append_assoc]
      exact quiet_expr _ _
    | cons g guards =>
      rw [List.flatMap_cons, lexemes_guard]
      simp [Quiet]
  refine (takes_many ?_ ?_ fun g hg => repeats_guard (hguards g hg).1 (hguards g hg).2).bind ?_
  · rw [List.append_assoc]
    exact quiet_expr _ _
  · intro d
    rw [List.append_assoc]
    exact atForm_expr hhead d _
  refine (takes_expr hresult _).bind ?_
  refine Takes.last (takes_expect rfl) ?_
  exact takes_pure

def afterKeyword (keyword : Bytes) : Parse Definition :=
  if keyword = ascii "type" then Definition.type <$> typeDef .unknown
  else if keyword = ascii "decl" then Definition.decl <$> termDecl .unknown
  else if keyword = ascii "extern" then Definition.external <$> externalDef .unknown
  else if keyword = ascii "extractor" then Definition.template <$> template .unknown
  else if keyword = ascii "rule" then Definition.rule <$> rule .unknown
  else failAt .unknown (.unknownDefinition keyword)

theorem Takes.definition (keyword : Bytes) {d : Definition} {ls rest : List Lexeme}
    (h : Takes (afterKeyword keyword) ls d rest) :
    Takes definition (.lparen :: .symbol keyword :: ls) d rest := by
  refine takes_get fun depth => Takes.cons (takes_expect rfl) (takes_symbol.cons ?_)
  rw [loc_cursorAt]
  exact h

theorem takes_definition (bare : Bool) {d : Definition} (h : d.Unreserved) (rest : List Lexeme) :
    Takes definition (d.form bare).lexemes (d.relocate nowhere) rest := by
  cases d with
  | type d =>
    have htakes := Takes.definition (ascii "type") (takes_map (takes_typeDef bare d rest))
    simpa [Definition.relocate, Definition.form, TypeDef.form, Form.lexemes, Form.allLexemes,
      Form.word, Form.ident] using htakes
  | decl d =>
    have htakes := Takes.definition (ascii "decl") (takes_map (takes_termDecl d h rest))
    simpa [Definition.relocate, Definition.form, TermDecl.form, Form.lexemes, Form.allLexemes,
      Form.word, Form.ident] using htakes
  | external d =>
    have htakes := Takes.definition (ascii "extern")
      (takes_map (takes_externalDef d h rest))
    simpa [Definition.relocate, Definition.form, ExternalDef.form, Form.lexemes, Form.allLexemes,
      Form.word, Form.ident] using htakes
  | template d =>
    have htakes := Takes.definition (ascii "extractor")
      (takes_map (takes_template d h rest))
    simpa [Definition.relocate, Definition.form, Template.form, Form.lexemes, Form.allLexemes,
      Form.word, Form.ident] using htakes
  | rule r =>
    have htakes := Takes.definition (ascii "rule") (takes_map (takes_rule r h rest))
    simpa [Definition.relocate, Definition.form, Rule.form, Form.lexemes, Form.allLexemes,
      Form.word, Form.allLexemes_map] using htakes

theorem lexemes_definition (bare : Bool) (d : Definition) :
    ∃ ls, (d.form bare).lexemes = .lparen :: ls := by
  cases d <;> exact ⟨_, rfl⟩

theorem item_takes {d : Definition} {ls rest : List Lexeme}
    (h : Takes definition (.lparen :: ls) d rest) (depth : Int) :
    ∃ depth', item (cursorAt depth (.lparen :: ls ++ rest)) = (.ok d, cursorAt depth' rest) := by
  obtain ⟨depth', hrun⟩ := h depth
  refine ⟨depth', ?_⟩
  rw [item_lparen (by simp [Lexeme.kind]), hrun]
  rfl

theorem outcomes_definitions (bare : Bool) {ds : List Definition} (h : ∀ d ∈ ds, d.Unreserved) :
    outcomes ((ds.flatMap fun d => (d.form bare).lexemes).map (Token.mk · .unknown)) .unknown =
      (ds.map (Definition.relocate nowhere)).map .ok := by
  suffices hitems : ∀ fuel depth, ds.length ≤ fuel →
      (itemsWithin fuel (cursorAt depth (ds.flatMap fun d => (d.form bare).lexemes))).1 =
        (ds.map (Definition.relocate nowhere)).map .ok by
    have hlength : ds.length ≤ (ds.flatMap fun d => (d.form bare).lexemes).length := by
      refine length_le_flatMap fun d _ hd => ?_
      obtain ⟨ls, hls⟩ := lexemes_definition bare d
      rw [hls] at hd
      cases hd
    rw [← length_cursorAt 0] at hlength
    have hresults := congrArg (List.map outcome) (hitems _ 0 hlength)
    rw [List.map_map] at hresults
    exact hresults
  intro fuel depth hfuel
  induction ds generalizing fuel depth with
  | nil => rw [List.flatMap_nil, itemsWithin_nil fuel rfl, List.map_nil, List.map_nil]
  | cons d ds ih =>
    rw [List.forall_mem_cons] at h
    rw [List.length_cons] at hfuel
    obtain ⟨fuel, rfl⟩ : ∃ n, fuel = n + 1 := ⟨fuel - 1, by omega⟩
    have htakes := takes_definition bare h.1 (ds.flatMap fun d => (d.form bare).lexemes)
    obtain ⟨ls, hls⟩ := lexemes_definition bare d
    rw [hls] at htakes
    obtain ⟨depth', hitem⟩ := item_takes htakes depth
    rw [List.flatMap_cons, hls, itemsWithin_cons (by simp [Lexeme.kind]), hitem,
      ih h.2 fuel depth' (by omega), List.map_cons, List.map_cons]

end Parse

theorem scans_blanks {blank : Bytes} (h : ∀ b ∈ blank, Byte.isBlank b = true) (s : Bytes) :
    Scans (blank ++ s) [] s := by
  induction blank with
  | nil => exact .refl s
  | cons b blank ih =>
    rw [List.forall_mem_cons] at h
    exact (scans_blank h.1 _).trans (ih h.2)

theorem ends_renderFile (bare : Bool) {blank : Bytes} (hblank : ∀ b ∈ blank, Byte.isBlank b = true)
    (ds : List Definition) : Ends (blank ++ renderFile bare blank ds) := by
  cases blank with
  | cons b blank =>
    refine ends_cons ?_ _
    rw [Byte.isSymbolEnd, hblank b List.mem_cons_self, Bool.or_true, Bool.true_or]
  | nil =>
    cases ds with
    | nil => simp [renderFile, joinWith, Ends]
    | cons d ds =>
      have htext : ∃ s, (d.form bare).text = Byte.lparen :: s := by
        cases d <;> exact ⟨_, rfl⟩
      obtain ⟨s, hs⟩ := htext
      cases ds <;> simp [renderFile, joinWith, hs, Ends, Byte.isSymbolEnd]

theorem scans_renderFile (bare : Bool) {blank : Bytes} (hblank : ∀ b ∈ blank, Byte.isBlank b = true)
    {ds : List Definition} (h : ∀ d ∈ ds, (d.form bare).Plain) :
    Scans (renderFile bare blank ds) (ds.flatMap fun d => (d.form bare).lexemes) [] := by
  induction ds with
  | nil => exact .refl []
  | cons d ds ih =>
    rw [List.forall_mem_cons] at h
    cases ds with
    | nil =>
      have hscans := h.1.scans (u := []) (by simp [Ends])
      rw [List.append_nil] at hscans
      rw [List.flatMap_singleton]
      exact hscans
    | cons e ds =>
      have htext : renderFile bare blank (d :: e :: ds) =
          (d.form bare).text ++ (blank ++ renderFile bare blank (e :: ds)) :=
        List.append_assoc _ _ _
      rw [htext, List.flatMap_cons]
      exact (h.1.scans (ends_renderFile bare hblank _)).trans
        ((scans_blanks hblank _).trans (ih h.2))

/-- Parsing inverts rendering: the canonical text of definitions has no error and stands for them,
however fieldless variants are written and whatever blanks are between the definitions. -/
theorem parseFile_renderFile (file : UInt32) (bare : Bool) {blank : Bytes}
    (hblank : ∀ b ∈ blank, Byte.isBlank b = true) {ds : List Definition}
    (h : ∀ d ∈ ds, d.Writable) :
    let parsed := parseFile file (renderFile bare blank ds)
    parsed.diagnostics = [] ∧ parsed.definitions.map (Definition.relocate nowhere) =
      ds.map (Definition.relocate nowhere) := by
  have hscans := scans_renderFile bare hblank fun d hd => Definition.plain_form bare (h d hd).plain
  refine (parseFile_iff_reads file _ _).mpr ⟨hscans.faults.trans ?_, ?_⟩
  · rw [lexicalFaults, pieces]
    rfl
  · rw [bareTokens, hscans.lexemes, lexemes, pieces, List.filterMap_nil, List.append_nil]
    exact Parse.outcomes_definitions bare fun d hd => (h d hd).unreserved

def writableSample : List Definition :=
  [.type ⟨⟨ascii "T", .unknown⟩, true, false,
      .enum [⟨⟨ascii "A", .unknown⟩, []⟩,
        ⟨⟨ascii "B", .unknown⟩, [⟨⟨ascii "x", .unknown⟩, ⟨ascii "u32", .unknown⟩⟩]⟩], .unknown⟩,
    .decl ⟨⟨ascii "f", .unknown⟩, [⟨ascii "T", .unknown⟩], ⟨ascii "u32", .unknown⟩, true, true,
      .unknown⟩,
    .external ⟨.extractor false, ⟨ascii "f", .unknown⟩, ⟨ascii "get_f", .unknown⟩, .unknown⟩,
    .template ⟨⟨ascii "g", .unknown⟩, [⟨ascii "_", .unknown⟩],
      .all .unknown [.bind .unknown (ascii "x") (.wildcard .unknown), .var .unknown (ascii "and")],
      .unknown⟩,
    .rule ⟨some ⟨ascii "let", .unknown⟩, -1,
      .term .unknown (ascii "f") [.bool .unknown true, .int .unknown ⟨true, 0⟩],
      [⟨.wildcard .unknown, .term .unknown (ascii "if") [], .unknown⟩],
      .letIn .unknown [⟨⟨ascii "y", .unknown⟩, ⟨ascii "u32", .unknown⟩, .var .unknown (ascii "if")⟩]
        (.term .unknown (ascii "true") [.var .unknown (ascii "y")]), .unknown⟩]

theorem parseFile_renderFile_writableSample :
    (∀ b ∈ [Byte.newline], Byte.isBlank b = true) ∧ (∀ d ∈ writableSample, d.Writable) ∧
      let parsed := parseFile 1 (renderFile true [Byte.newline] writableSample)
      parsed.diagnostics = [] ∧ parsed.definitions.map (Definition.relocate nowhere) =
        writableSample.map (Definition.relocate nowhere) := by
  have hblank : ∀ b ∈ [Byte.newline], Byte.isBlank b = true := List.forall_mem_singleton.mpr rfl
  have hwritable : ∀ d ∈ writableSample, d.Writable := by
    intro d hd
    simp only [writableSample, List.mem_cons, List.not_mem_nil, or_false] at hd
    rcases hd with rfl | rfl | rfl | rfl | rfl
    · exact ⟨by decide, trivial⟩
    · exact ⟨by decide, by simp [Definition.Unreserved, ascii]⟩
    · exact ⟨by decide, by simp [Definition.Unreserved, ascii]⟩
    · exact ⟨by decide, ⟨rfl, trivial⟩, rfl, trivial⟩
    · refine ⟨by decide, ?_⟩
      simp [Definition.Unreserved, Rule.Unreserved, Pattern.Unreserved, Pattern.AllUnreserved,
        Expr.Unreserved, Expr.AllUnreserved, Expr.UnreservedIn, Expr.IsGuardForm, ascii]
  exact ⟨hblank, hwritable, parseFile_renderFile 1 true hblank hwritable⟩

end TermRules

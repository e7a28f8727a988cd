import TermRules.Proofs.ScannedText

/-!
# The canonical text of definitions

Definitions are written as nested lists with single spaces: modifiers in a fixed
order, primitives in the long form, every priority and every guard with its
pattern. A text so written has exactly the lexemes of the lists it was written
from, as long as every name in it is read as one symbol.
-/

namespace TermRules

inductive Form
  | symbol (name : Bytes)
  | int (value : IntLiteral)
  | atSign
  | list (items : List Form)

namespace Form

mutual

def text : Form → Bytes
  | .symbol name => name
  | .int value => value.spelling
  | .atSign => [Byte.atSign]
  | .list items => Byte.lparen :: (joinWith [Byte.space] (texts items) ++ [Byte.rparen])

def texts : List Form → List Bytes
  | [] => []
  | f :: fs => f.text :: texts fs

end

mutual

def lexemes : Form → List Lexeme
  | .symbol name => [.symbol name]
  | .int value => [.int value]
  | .atSign => [.atSign]
  | .list items => .lparen :: (allLexemes items ++ [.rparen])

def allLexemes : List Form → List Lexeme
  | [] => []
  | f :: fs => f.lexemes ++ allLexemes fs

end

mutual

def Plain : Form → Prop
  | .symbol name => IsSymbol name
  | .int _ | .atSign => True
  | .list items => AllPlain items

def AllPlain : List Form → Prop
  | [] => True
  | f :: fs => f.Plain ∧ AllPlain fs

end

mutual

def decidePlain : (f : Form) → Decidable f.Plain
  | .symbol name => inferInstanceAs (Decidable (IsSymbol name))
  | .int _ | .atSign => isTrue trivial
  | .list items => decideAllPlain items

def decideAllPlain : (fs : List Form) → Decidable (AllPlain fs)
  | [] => isTrue trivial
  | f :: fs => @instDecidableAnd _ _ f.decidePlain (decideAllPlain fs)

end

instance : DecidablePred Plain := decidePlain

@[simp] theorem allLexemes_append (fs gs : List Form) :
    allLexemes (fs ++ gs) = allLexemes fs ++ allLexemes gs := by
  induction fs with
  | nil => rfl
  | cons f fs ih => rw [List.cons_append, allLexemes, allLexemes, ih, List.append_assoc]

@[simp] theorem allLexemes_singleton (f : Form) : allLexemes [f] = f.lexemes := by
  rw [allLexemes, allLexemes, List.append_nil]

theorem allLexemes_map {α : Type} (f : α → Form) (xs : List α) :
    allLexemes (xs.map f) = xs.flatMap fun x => (f x).lexemes := by
  induction xs with
  | nil => rfl
  | cons x xs ih => rw [List.map_cons, allLexemes, ih, List.flatMap_cons]

theorem allPlain_iff (fs : List Form) : AllPlain fs ↔ ∀ f ∈ fs, f.Plain := by
  induction fs with
  | nil => simp [AllPlain]
  | cons f fs ih => rw [AllPlain, ih, List.forall_mem_cons]

theorem Plain.head_text {f : Form} (h : f.Plain) :
    ∃ b s, f.text = b :: s ∧ b ≠ Byte.semicolon := by
  cases f with
  | symbol name =>
    obtain ⟨hstarts, -⟩ := isSymbol_iff.mp h
    cases name with
    | nil => cases hstarts
    | cons b s =>
      refine ⟨b, s, rfl, ?_⟩
      rintro rfl
      cases hstarts
  | int value =>
    obtain ⟨b, s, hspelling, -, hb⟩ := spelling_eq_cons value
    refine ⟨b, s, hspelling, ?_⟩
    rintro rfl
    rcases hb with hb | ⟨hb, -⟩ <;> exact absurd hb (by decide)
  | atSign => exact ⟨Byte.atSign, [], rfl, by decide⟩
  | list items => exact ⟨Byte.lparen, _, rfl, by decide⟩

theorem AllPlain.head_texts {fs : List Form} (h : AllPlain fs) (u : Bytes) :
    (joinWith [Byte.space] (texts fs) ++ Byte.rparen :: u).head? ≠ some Byte.semicolon := by
  match fs, h with
  | [], _ => exact fun hu => absurd (Option.some.inj hu) (by decide)
  | f :: fs, h =>
    obtain ⟨b, s, hs, hb⟩ := h.1.head_text
    rw [texts, hs]
    cases texts fs <;> simpa [joinWith] using hb

end Form

theorem scans_lparen {s : Bytes} (h : s.head? ≠ some Byte.semicolon) :
    Scans (Byte.lparen :: s) [.lparen] s := by
  have hcut : cutPiece Byte.lparen s = (.lparen, s) := by
    change cutParen s = _
    fun_cases cutParen s with
    | case1 s => exact absurd rfl h
    | case2 s => exact absurd rfl h
    | case3 => rfl
  exact Scans.of_piece hcut rfl

theorem scans_rparen (s : Bytes) : Scans (Byte.rparen :: s) [.rparen] s :=
  Scans.of_piece (p := .rparen) rfl rfl

theorem scans_atSign (s : Bytes) : Scans (Byte.atSign :: s) [.atSign] s :=
  Scans.of_piece (p := .atSign) rfl rfl

theorem scans_blank {b : UInt8} (hb : Byte.isBlank b = true) (s : Bytes) : Scans (b :: s) [] s :=
  Scans.of_piece (p := .blank b) (by rw [cutPiece, if_pos hb]) rfl

theorem ends_cons {b : UInt8} (hb : Byte.isSymbolEnd b = true) (s : Bytes) : Ends (b :: s) := by
  intro c hc
  cases hc
  exact hb

namespace Form

mutual

theorem Plain.scans : ∀ {f : Form}, f.Plain → ∀ {u : Bytes}, Ends u →
    Scans (f.text ++ u) f.lexemes u
  | .symbol _, h, _, hu => scans_symbol h hu
  | .int value, _, _, hu => scans_spelling value hu
  | .atSign, _, u, _ => scans_atSign u
  | .list items, h, u, _ => by
    have hitems := AllPlain.scans h (u := Byte.rparen :: u) (ends_cons rfl u)
    have hopen := AllPlain.head_texts h u
    rw [text, lexemes, List.cons_append, List.append_assoc, List.singleton_append]
    exact (scans_lparen hopen).trans (hitems.trans (scans_rparen u))

theorem AllPlain.scans : ∀ {fs : List Form}, AllPlain fs → ∀ {u : Bytes}, Ends u →
    Scans (joinWith [Byte.space] (texts fs) ++ u) (allLexemes fs) u
  | [], _, u, _ => .refl u
  | [f], h, u, hu => by
    rw [texts, texts, joinWith, allLexemes, allLexemes, List.append_nil]
    exact h.1.scans hu
  | f :: g :: fs, h, u, hu => by
    have hrest := AllPlain.scans h.2 hu
    have hjoin : joinWith [Byte.space] (texts (f :: g :: fs)) =
        f.text ++ [Byte.space] ++ joinWith [Byte.space] (texts (g :: fs)) := rfl
    rw [hjoin, List.append_assoc, List.append_assoc, List.singleton_append, allLexemes]
    exact (h.1.scans (ends_cons rfl _)).trans ((scans_blank rfl _).trans hrest)

end

end Form

def Form.word (text : String) : Form := .symbol (ascii text)

def Form.ident (i : Ident) : Form := .symbol i.name

def Form.bool (value : Bool) : Form := if value then .word "true" else .word "false"

mutual

def Pattern.forms : Pattern → List Form
  | .wildcard _ => [.word "_"]
  | .var _ name => [.symbol name]
  | .bind _ name sub => .symbol name :: .atSign :: sub.forms
  | .int _ value => [.int value]
  | .bool _ value => [.bool value]
  | .term _ name args => [.list (.symbol name :: formsOfAll args)]
  | .all _ parts => [.list (.word "and" :: formsOfAll parts)]

def Pattern.formsOfAll : List Pattern → List Form
  | [] => []
  | p :: ps => p.forms ++ formsOfAll ps

end

mutual

def Expr.form : Expr → Form
  | .var _ name => .symbol name
  | .int _ value => .int value
  | .bool _ value => .bool value
  | .term _ name args => .list (.symbol name :: formsOfAll args)
  | .letIn _ bindings body => .list [.word "let", .list (formsIn bindings), body.form]

def Expr.formsOfAll : List Expr → List Form
  | [] => []
  | e :: es => e.form :: formsOfAll es

def Expr.formsIn : List (Binding Expr) → List Form
  | [] => []
  | ⟨name, type, value⟩ :: bs =>
      .list [.ident name, .ident type, value.form] :: formsIn bs

end

def Field.form (f : Field) : Form := .list [.ident f.name, .ident f.type]

def Variant.form (bare : Bool) (v : Variant) : Form :=
  if bare = true ∧ v.fields = [] then .ident v.name
  else .list (.ident v.name :: v.fields.map Field.form)

def TypeBody.form (bare : Bool) : TypeBody → Form
  | .primitive spelling => .list [.word "primitive", .ident spelling]
  | .enum variants => .list (.word "enum" :: variants.map (Variant.form bare))

def flagWord (text : String) (flag : Bool) : List Bytes := if flag then [ascii text] else []

def TypeDef.form (bare : Bool) (d : TypeDef) : Form :=
  .list (.word "type" :: .ident d.name ::
    ((flagWord "extern" d.isExternal ++ flagWord "nodebug" d.noDebug).map .symbol ++
      [d.body.form bare]))

def TermDecl.form (d : TermDecl) : Form :=
  .list (.word "decl" ::
    ((flagWord "pure" d.isPure ++ flagWord "partial" d.isPartial).map .symbol ++
      [.ident d.term, .list (d.args.map .ident), .ident d.ret]))

def ExternalKind.forms : ExternalKind → List Form
  | .constructor => [.word "constructor"]
  | .extractor infallible =>
      .word "extractor" :: (flagWord "infallible" infallible).map .symbol

def ExternalDef.form (d : ExternalDef) : Form :=
  .list (.word "extern" :: (d.kind.forms ++ [.ident d.term, .ident d.function]))

def Template.form (d : Template) : Form :=
  .list (.word "extractor" :: .list (.ident d.term :: d.params.map .ident) :: d.body.forms)

def Guard.form (g : Guard) : Form :=
  .list (.word "if-let" :: (g.pattern.forms ++ [g.value.form]))

def IntLiteral.ofInt64 (n : Int64) : IntLiteral := ⟨n.toInt < 0, n.toInt.natAbs.toUInt64⟩

def Rule.form (r : Rule) : Form :=
  .list (.word "rule" :: ((r.name.map Form.ident).toList ++ .int (.ofInt64 r.priority) ::
    (r.pattern.forms ++ r.guards.map Guard.form ++ [r.result.form])))

def Definition.form (bare : Bool) : Definition → Form
  | .type d => d.form bare
  | .decl d => d.form
  | .external d => d.form
  | .template d => d.form
  | .rule d => d.form

def renderFile (bare : Bool) (blank : Bytes) (ds : List Definition) : Bytes :=
  joinWith blank (ds.map fun d => (d.form bare).text)

mutual

/-- No name in the pattern means something else at its place. -/
def Pattern.Unreserved : Pattern → Prop
  | .wildcard _ | .int _ _ | .bool _ _ => True
  | .var _ name => Parse.isPatternKeyword name = false
  | .bind _ name sub => Parse.isPatternKeyword name = false ∧ sub.Unreserved
  | .term _ name args => name ≠ ascii "and" ∧ AllUnreserved args
  | .all _ parts => AllUnreserved parts

def Pattern.AllUnreserved : List Pattern → Prop
  | [] => True
  | p :: ps => p.Unreserved ∧ AllUnreserved ps

end

mutual

def Expr.Unreserved : Expr → Prop
  | .var _ name => name ≠ ascii "true" ∧ name ≠ ascii "false"
  | .int _ _ | .bool _ _ => True
  | .term _ name args => name ≠ ascii "let" ∧ AllUnreserved args
  | .letIn _ bindings body => UnreservedIn bindings ∧ body.Unreserved

def Expr.AllUnreserved : List Expr → Prop
  | [] => True
  | e :: es => e.Unreserved ∧ AllUnreserved es

def Expr.UnreservedIn : List (Binding Expr) → Prop
  | [] => True
  | ⟨_, _, value⟩ :: bs => value.Unreserved ∧ UnreservedIn bs

end

def Expr.IsGuardForm : Expr → Prop
  | .term _ name _ => name = ascii "if" ∨ name = ascii "if-let"
  | _ => False

def Rule.Unreserved (r : Rule) : Prop :=
  r.pattern.Unreserved ∧ (∀ g ∈ r.guards, g.pattern.Unreserved ∧ g.value.Unreserved) ∧
    r.result.Unreserved ∧ ¬r.result.IsGuardForm

def Definition.Unreserved : Definition → Prop
  | .type _ => True
  | .decl d => d.term.name ∉ [ascii "pure", ascii "partial", ascii "multi"]
  | .external d => d.kind = .extractor false → d.term.name ≠ ascii "infallible"
  | .template d => d.body.Unreserved
  | .rule d => d.Unreserved

/-- Every name is read as one symbol, and as a name. -/
structure Definition.Writable (d : Definition) : Prop where
  plain : (d.form false).Plain
  unreserved : d.Unreserved

theorem Definition.plain_form (bare : Bool) {d : Definition} (h : (d.form false).Plain) :
    (d.form bare).Plain := by
  have hvariant : ∀ v : Variant, (v.form false).Plain → (v.form bare).Plain := by
    intro v hv
    rw [Variant.form, if_neg (by simp)] at hv
    rw [Variant.form]
    split_ifs with hbare
    · exact hv.1
    · exact hv
  have hbody : ∀ b : TypeBody, (b.form false).Plain → (b.form bare).Plain := by
    rintro (spelling | variants) hb
    · exact hb
    · refine ⟨hb.1, ?_⟩
      have hvariants := (Form.allPlain_iff _).mp hb.2
      rw [List.forall_mem_map] at hvariants
      rw [Form.allPlain_iff, List.forall_mem_map]
      exact fun v hv => hvariant v (hvariants v hv)
  cases d with
  | type d =>
    have hforms := (Form.allPlain_iff _).mp h
    rw [Definition.form, TypeDef.form, Form.Plain, Form.allPlain_iff]
    intro f hf
    simp only [List.mem_cons, List.mem_append, List.not_mem_nil, or_false] at hf hforms
    rcases hf with rfl | rfl | hf | rfl
    · exact hforms _ (.inl rfl)
    · exact hforms _ (.inr (.inl rfl))
    · exact hforms f (.inr (.inr (.inl hf)))
    · exact hbody _ (hforms _ (.inr (.inr (.inr rfl))))
  | _ => exact h

end TermRules

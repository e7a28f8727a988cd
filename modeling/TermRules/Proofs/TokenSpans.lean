import TermRules.Parse.Definition

/-!
# The tokens of a definition

Which tokens may stand for a definition is said part by part: every part has
tokens of its own, the parts stand one after the other, and the place that a
part keeps is that of the first of its tokens. Only the wildcard of a guard
without a pattern has no tokens; it keeps the place of the keyword before it.
-/

namespace TermRules

def Ident.token (i : Ident) : Token := ⟨.symbol i.name, i.loc⟩

def IsList (loc : Loc) (inner ts : List Token) : Prop :=
  ∃ close, ts = ⟨.lparen, loc⟩ :: (inner ++ [⟨.rparen, close⟩])

def SpansEach {α : Type} (spans : α → List Token → Prop) : List α → List Token → Prop
  | [], ts => ts = []
  | a :: as, ts => ∃ us vs, ts = us ++ vs ∧ spans a us ∧ SpansEach spans as vs

mutual

def Pattern.Spans : Pattern → List Token → Prop
  | .wildcard loc, ts => ts = [⟨.symbol (ascii "_"), loc⟩]
  | .var loc name, ts => ts = [⟨.symbol name, loc⟩]
  | .bind loc name sub, ts => ∃ sign us,
      ts = ⟨.symbol name, loc⟩ :: ⟨.atSign, sign⟩ :: us ∧ sub.Spans us
  | .int loc value, ts => ts = [⟨.int value, loc⟩]
  | .bool loc value, ts => ts = [⟨.symbol (ascii (if value then "true" else "false")), loc⟩]
  | .term loc name args, ts => ∃ head us,
      IsList loc (⟨.symbol name, head⟩ :: us) ts ∧ Pattern.SpansAll args us
  | .all loc parts, ts => ∃ head us,
      IsList loc (⟨.symbol (ascii "and"), head⟩ :: us) ts ∧ Pattern.SpansAll parts us

def Pattern.SpansAll : List Pattern → List Token → Prop
  | [], ts => ts = []
  | p :: ps, ts => ∃ us vs, ts = us ++ vs ∧ p.Spans us ∧ Pattern.SpansAll ps vs

end

mutual

def Expr.Spans : Expr → List Token → Prop
  | .var loc name, ts => ts = [⟨.symbol name, loc⟩]
  | .int loc value, ts => ts = [⟨.int value, loc⟩]
  | .bool loc value, ts => ts = [⟨.symbol (ascii (if value then "true" else "false")), loc⟩]
  | .term loc name args, ts => ∃ head us,
      IsList loc (⟨.symbol name, head⟩ :: us) ts ∧ Expr.SpansAll args us
  | .letIn loc bindings body, ts => ∃ head first us inner vs,
      IsList loc (⟨.symbol (ascii "let"), head⟩ :: (us ++ vs)) ts ∧ IsList first inner us ∧
        Expr.SpansIn bindings inner ∧ body.Spans vs

def Expr.SpansAll : List Expr → List Token → Prop
  | [], ts => ts = []
  | e :: es, ts => ∃ us vs, ts = us ++ vs ∧ e.Spans us ∧ Expr.SpansAll es vs

def Expr.SpansIn : List (Binding Expr) → List Token → Prop
  | [], ts => ts = []
  | ⟨name, type, value⟩ :: bs, ts => ∃ first us inner vs, ts = us ++ vs ∧
      IsList first (name.token :: type.token :: inner) us ∧ value.Spans inner ∧
        Expr.SpansIn bs vs

end

theorem Pattern.spansAll_of_spansEach {ps : List Pattern} {ts : List Token}
    (h : SpansEach Pattern.Spans ps ts) : SpansAll ps ts := by
  induction ps generalizing ts with
  | nil => exact h
  | cons p ps ih =>
    obtain ⟨us, vs, hts, hp, hps⟩ := h
    exact ⟨us, vs, hts, hp, ih hps⟩

theorem Expr.spansAll_of_spansEach {es : List Expr} {ts : List Token}
    (h : SpansEach Expr.Spans es ts) : SpansAll es ts := by
  induction es generalizing ts with
  | nil => exact h
  | cons e es ih =>
    obtain ⟨us, vs, hts, he, hes⟩ := h
    exact ⟨us, vs, hts, he, ih hes⟩

def Binding.Spans (b : Binding Expr) (ts : List Token) : Prop :=
  ∃ first inner, IsList first (b.var.token :: b.type.token :: inner) ts ∧ b.value.Spans inner

theorem Expr.spansIn_of_spansEach {bs : List (Binding Expr)} {ts : List Token}
    (h : SpansEach Binding.Spans bs ts) : SpansIn bs ts := by
  induction bs generalizing ts with
  | nil => exact h
  | cons b bs ih =>
    obtain ⟨us, vs, hts, ⟨first, inner, hus, hvalue⟩, hbs⟩ := h
    exact ⟨first, us, inner, vs, hts, hus, hvalue, ih hbs⟩

def Field.Spans (f : Field) (ts : List Token) : Prop :=
  ∃ first, IsList first [f.name.token, f.type.token] ts

def Variant.Spans (v : Variant) (ts : List Token) : Prop :=
  v.fields = [] ∧ ts = [v.name.token] ∨
    ∃ first us, IsList first (v.name.token :: us) ts ∧ SpansEach Field.Spans v.fields us

def TypeBody.Spans : TypeBody → List Token → Prop
  | .primitive spelling, ts => ts = [spelling.token] ∨
      ∃ first head, IsList first [⟨.symbol (ascii "primitive"), head⟩, spelling.token] ts
  | .enum variants, ts => ∃ first head us,
      IsList first (⟨.symbol (ascii "enum"), head⟩ :: us) ts ∧ SpansEach Variant.Spans variants us

def TypeDef.Spans (d : TypeDef) (ts : List Token) : Prop :=
  ∃ (head : Loc) (flags : List Ident) (us : List Token),
    IsList d.loc (⟨.symbol (ascii "type"), head⟩ :: d.name.token ::
      (flags.map Ident.token ++ us)) ts ∧ d.body.Spans us

def TermDecl.Spans (d : TermDecl) (ts : List Token) : Prop :=
  ∃ (head : Loc) (flags : List Ident) (first : Loc) (us : List Token),
    IsList d.loc (⟨.symbol (ascii "decl"), head⟩ ::
      (flags.map Ident.token ++ d.term.token :: (us ++ [d.ret.token]))) ts ∧
    IsList first (d.args.map Ident.token) us

def ExternalKind.Spans : ExternalKind → List Token → Prop
  | .constructor, ts => ∃ word, ts = [⟨.symbol (ascii "constructor"), word⟩]
  | .extractor false, ts => ∃ word, ts = [⟨.symbol (ascii "extractor"), word⟩]
  | .extractor true, ts => ∃ word flag,
      ts = [⟨.symbol (ascii "extractor"), word⟩, ⟨.symbol (ascii "infallible"), flag⟩]

def ExternalDef.Spans (d : ExternalDef) (ts : List Token) : Prop :=
  ∃ head us,
    IsList d.loc (⟨.symbol (ascii "extern"), head⟩ ::
      (us ++ [d.term.token, d.function.token])) ts ∧ d.kind.Spans us

def Template.Spans (t : Template) (ts : List Token) : Prop :=
  ∃ head first us vs,
    IsList t.loc (⟨.symbol (ascii "extractor"), head⟩ :: (us ++ vs)) ts ∧
      IsList first (t.term.token :: t.params.map Ident.token) us ∧ t.body.Spans vs

/-- The wildcard of a guard without a pattern stands at the keyword. -/
def Guard.Spans (g : Guard) (ts : List Token) : Prop :=
  (∃ head us vs, IsList g.loc (⟨.symbol (ascii "if-let"), head⟩ :: (us ++ vs)) ts ∧
      g.pattern.Spans us ∧ g.value.Spans vs) ∨
    ∃ head us, IsList g.loc (⟨.symbol (ascii "if"), head⟩ :: us) ts ∧
      g.pattern = .wildcard head ∧ g.value.Spans us

def IsPriority (priority : Int64) (ts : List Token) : Prop :=
  priority = 0 ∧ ts = [] ∨
    ∃ value loc, value.toInt64? = some priority ∧ ts = [⟨.int value, loc⟩]

def Rule.Spans (r : Rule) (ts : List Token) : Prop :=
  ∃ head number us vs ws,
    IsList r.loc (⟨.symbol (ascii "rule"), head⟩ ::
      (r.name.toList.map Ident.token ++ (number ++ (us ++ (vs ++ ws))))) ts ∧
    IsPriority r.priority number ∧ r.pattern.Spans us ∧ SpansEach Guard.Spans r.guards vs ∧
      r.result.Spans ws

def Definition.Spans : Definition → List Token → Prop
  | .type d => d.Spans
  | .decl d => d.Spans
  | .external d => d.Spans
  | .template d => d.Spans
  | .rule d => d.Spans

end TermRules

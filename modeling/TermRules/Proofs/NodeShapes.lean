import TermRules.Proofs.Positions
import TermRules.Proofs.Rendering
import TermRules.Proofs.SyntaxNodes

/-!
# Shapes of syntax nodes

The nodes at hand in an analysis are those that a reader returns, those below
them, and those that any number of substitutions make of them. Each of them is
the record of a pattern or an expression, so it has the children that its kind
needs, and it names no variable by a word that means something else.
-/

namespace TermRules

theorem Pattern.allUnreserved_iff (ps : List Pattern) :
    AllUnreserved ps ↔ ∀ p ∈ ps, p.Unreserved := by
  induction ps with
  | nil => simp [AllUnreserved]
  | cons p ps ih => simp [AllUnreserved, ih]

theorem Pattern.unreserved_lookup {σ : Substitution} (hσ : ∀ b ∈ σ, b.2.Unreserved) {name : Bytes}
    {p : Pattern} (h : σ.lookup name = some p) : p.Unreserved := by
  obtain ⟨front, back, rfl, -⟩ := List.lookup_eq_some_iff.mp h
  exact hσ (name, p) (by simp)

mutual

theorem Pattern.unreserved_subst {σ : Substitution} (hσ : ∀ b ∈ σ, b.2.Unreserved) :
    ∀ p : Pattern, p.Unreserved → (p.subst σ).Unreserved
  | .wildcard loc, h => h
  | .int loc value, h => h
  | .bool loc flag, h => h
  | .var loc name, h => by
    rw [subst]
    cases hlookup : σ.lookup name with
    | none => exact h
    | some arg => exact unreserved_lookup hσ hlookup
  | .bind loc name sub, ⟨hname, hsub⟩ => by
    have hrest := unreserved_subst hσ sub hsub
    rw [subst]
    cases hlookup : σ.lookup name with
    | none => exact ⟨hname, hrest⟩
    | some arg => exact ⟨unreserved_lookup hσ hlookup, hrest, trivial⟩
  | .term loc name args, ⟨hname, hargs⟩ => ⟨hname, allUnreserved_substAll hσ args hargs⟩
  | .all loc parts, h => allUnreserved_substAll hσ parts h

theorem Pattern.allUnreserved_substAll {σ : Substitution} (hσ : ∀ b ∈ σ, b.2.Unreserved) :
    ∀ ps : List Pattern, AllUnreserved ps → AllUnreserved (substAll σ ps)
  | [], h => h
  | p :: ps, ⟨hp, hps⟩ => ⟨unreserved_subst hσ p hp, allUnreserved_substAll hσ ps hps⟩

end

namespace Parse

theorem forall_of_spansEach {α : Type} {P : α → Prop} {as : List α} {ts : List Token}
    (h : SpansEach (fun a _ => P a) as ts) : ∀ a ∈ as, P a := by
  induction as generalizing ts with
  | nil => simp
  | cons a as ih =>
    obtain ⟨us, vs, -, ha, has⟩ := h
    exact List.forall_mem_cons.mpr ⟨ha, ih has⟩

theorem unreserved_patternOfSymbol (loc : Loc) (text : Bytes) :
    (patternOfSymbol loc text).Unreserved := by
  rw [patternOfSymbol]
  split_ifs with hwild htrue hfalse
  · trivial
  · trivial
  · trivial
  · simp [Pattern.Unreserved, isPatternKeyword, *]

theorem covers_unreserved (fuel : Nat) (c : Cursor) :
    Covers c (patternWithin fuel) fun p _ => p.Unreserved := by
  induction fuel generalizing c with
  | zero => exact covers_unexpected
  | succ fuel ih =>
    refine covers_get ?_
    split
    next value hl => exact covers_advance hl (covers_pure trivial)
    next name hl =>
      refine covers_advance hl (covers_get ?_)
      split_ifs with hat
      · rw [Bool.and_eq_true, decide_eq_true_eq, Bool.not_eq_true'] at hat
        refine covers_advance (lexeme?_of_kind_atSign hat.2) ?_
        exact (ih _).bind fun sub ts c' hsub => covers_pure ⟨hat.1, hsub⟩
      · exact covers_pure (unreserved_patternOfSymbol _ _)
    next hl =>
      refine covers_advance hl (covers_symbol fun head c' => ?_)
      refine (covers_many (fun c _ => ih c) c').bind fun args ts c' hargs => ?_
      refine covers_rparen fun c' close => covers_pure ?_
      have hall := (Pattern.allUnreserved_iff args).mpr (forall_of_spansEach hargs)
      split_ifs with hand
      · exact hall
      · exact ⟨hand, hall⟩
    next => exact covers_unexpected

theorem unreserved_of_run {c c' : Cursor} {p : Pattern} (h : pattern.run c = .ok p c') :
    p.Unreserved := by
  obtain ⟨ts, -, hp⟩ := covers_get (covers_unreserved _ c) p c' h
  exact hp

end Parse

def NodeKind.isLeaf : NodeKind → Bool
  | .wildcard | .var | .int | .bool => true
  | .bind | .term | .all => false

def NodeKind.hasVariable : NodeKind → Bool
  | .var | .bind => true
  | .wildcard | .int | .bool | .term | .all => false

/-- The node has the children that its kind needs, and a variable of its own has a name that means
nothing else. -/
structure Node.WellShaped (n : Node) : Prop where
  bind : n.kind = .bind → n.children.length = 1
  leaf : n.kind.isLeaf = true → n.children = []
  name : n.kind.hasVariable = true → n.name ∉ [ascii "_", ascii "true", ascii "false"]

def ExprKind.isLeaf : ExprKind → Bool
  | .var | .int | .bool => true
  | .term | .letIn => false

structure ExprNode.WellShaped (n : ExprNode) : Prop where
  letIn : n.kind = .letIn → n.children.length = 1
  leaf : n.kind.isLeaf = true → n.children = []
  plain : n.kind ≠ .letIn → n.bindings = []

theorem not_mem_of_isPatternKeyword {name : Bytes} (h : Parse.isPatternKeyword name = false) :
    name ∉ [ascii "_", ascii "true", ascii "false"] := by
  have hnot := mt Parse.isPatternKeyword_eq_true.mpr (Bool.eq_false_iff.mp h)
  simpa using hnot

theorem Pattern.wellShaped_node (p : Pattern) (h : p.Unreserved) : p.node.WellShaped := by
  cases p with
  | var loc name => exact ⟨nofun, fun _ => rfl, fun _ => not_mem_of_isPatternKeyword h⟩
  | bind loc name sub => exact ⟨fun _ => rfl, nofun, fun _ => not_mem_of_isPatternKeyword h.1⟩
  | wildcard | int | bool => exact ⟨nofun, fun _ => rfl, nofun⟩
  | term | all => exact ⟨nofun, nofun, nofun⟩

theorem Expr.wellShaped_node (e : Expr) : e.node.WellShaped := by
  cases e with
  | letIn loc bs body => exact ⟨fun _ => rfl, nofun, fun h => absurd rfl h⟩
  | term loc name args => exact ⟨nofun, nofun, fun _ => rfl⟩
  | var | int | bool => exact ⟨nofun, fun _ => rfl, fun _ => rfl⟩

/-- The nodes that are read, those below them, and those that substitutions make of them. -/
inductive Node.Obtained : Node → Prop
  | read {c c' : Cursor} {n : Node} (h : Parse.node.run c = .ok n c') : Obtained n
  | plain (loc : Loc) : Obtained { loc }
  | child {n m : Node} (h : Obtained n) (hm : m ∈ n.children) : Obtained m
  | substituted {body n : Node} {params : List Bytes} {args : List Node} (hbody : Obtained body)
      (hargs : ∀ a ∈ args, Obtained a) (hlength : args.length = params.length)
      (h : body.substitute? params args = some n) : Obtained n

inductive ExprNode.Obtained : ExprNode → Prop
  | read {c c' : Cursor} {n : ExprNode} (h : Parse.exprNode.run c = .ok n c') : Obtained n
  | child {n m : ExprNode} (h : Obtained n) (hm : m ∈ n.children) : Obtained m
  | value {n : ExprNode} {b : Binding ExprNode} (h : Obtained n) (hb : b ∈ n.bindings) :
      Obtained b.value

theorem Pattern.exists_of_mem_children {p : Pattern} (h : p.Unreserved) {m : Node}
    (hm : m ∈ p.node.children) : ∃ q : Pattern, q.node = m ∧ q.Unreserved := by
  have hlist {ps : List Pattern} (hps : AllUnreserved ps) (hm : m ∈ nodes ps) :
      ∃ q : Pattern, q.node = m ∧ q.Unreserved := by
    rw [nodes_eq_map] at hm
    obtain ⟨q, hq, rfl⟩ := List.mem_map.mp hm
    exact ⟨q, rfl, (allUnreserved_iff ps).mp hps q hq⟩
  cases p with
  | wildcard | var | int | bool => cases hm
  | bind loc name sub => exact ⟨sub, (List.mem_singleton.mp hm).symm, h.2⟩
  | term loc name args => exact hlist h.2 hm
  | all loc parts => exact hlist h hm

theorem Node.exists_patterns {args : List Node}
    (h : ∀ a ∈ args, ∃ p : Pattern, p.node = a ∧ p.Unreserved) :
    ∃ ps : List Pattern, Pattern.nodes ps = args ∧ ∀ p ∈ ps, p.Unreserved := by
  induction args with
  | nil => exact ⟨[], rfl, by simp⟩
  | cons a args ih =>
    obtain ⟨⟨p, rfl, hp⟩, hargs⟩ := List.forall_mem_cons.mp h
    obtain ⟨ps, rfl, hps⟩ := ih hargs
    exact ⟨p :: ps, rfl, List.forall_mem_cons.mpr ⟨hp, hps⟩⟩

/-- Every node that is obtained is the record of a pattern. -/
theorem Node.Obtained.exists_pattern {n : Node} (h : n.Obtained) :
    ∃ p : Pattern, p.node = n ∧ p.Unreserved := by
  induction h with
  | read h =>
    rw [Parse.node_eq] at h
    obtain ⟨p, hp, rfl⟩ := Parse.run_map_eq_ok.mp h
    exact ⟨p, rfl, Parse.unreserved_of_run hp⟩
  | plain loc => exact ⟨.wildcard loc, rfl, trivial⟩
  | child h hm ih =>
    obtain ⟨p, rfl, hp⟩ := ih
    exact p.exists_of_mem_children hp hm
  | @substituted body n params args hbody hargs hlength h ihBody ihArgs =>
    obtain ⟨p, rfl, hp⟩ := ihBody
    obtain ⟨ps, rfl, hps⟩ := Node.exists_patterns ihArgs
    rw [Pattern.length_nodes] at hlength
    rw [Pattern.substitute?_node hlength] at h
    refine ⟨p.subst (params.zip ps), Option.some.inj h, Pattern.unreserved_subst ?_ p hp⟩
    exact fun b hb => hps b.2 (List.of_mem_zip hb).2

theorem ExprNode.Obtained.exists_expr {n : ExprNode} (h : n.Obtained) :
    ∃ e : Expr, e.node = n := by
  induction h with
  | read h =>
    rw [Parse.exprNode_eq] at h
    obtain ⟨e, -, rfl⟩ := Parse.run_map_eq_ok.mp h
    exact ⟨e, rfl⟩
  | child h hm ih =>
    obtain ⟨e, rfl⟩ := ih
    cases e with
    | var | int | bool => cases hm
    | term loc name args =>
      rw [Expr.node, Expr.nodes_eq_map] at hm
      obtain ⟨e, -, rfl⟩ := List.mem_map.mp hm
      exact ⟨e, rfl⟩
    | letIn loc bs body => exact ⟨body, (List.mem_singleton.mp hm).symm⟩
  | value h hb ih =>
    obtain ⟨e, rfl⟩ := ih
    cases e with
    | var | int | bool | term => cases hb
    | letIn loc bs body =>
      rw [Expr.node, Expr.bindingNodes_eq_map] at hb
      obtain ⟨b, -, rfl⟩ := List.mem_map.mp hb
      exact ⟨b.value, rfl⟩

theorem Node.Obtained.wellShaped {n : Node} (h : n.Obtained) : n.WellShaped := by
  obtain ⟨p, rfl, hp⟩ := h.exists_pattern
  exact p.wellShaped_node hp

theorem ExprNode.Obtained.wellShaped {n : ExprNode} (h : n.Obtained) : n.WellShaped := by
  obtain ⟨e, rfl⟩ := h.exists_expr
  exact e.wellShaped_node

theorem Node.Obtained.substitute? {body : Node} {params : List Bytes} {args : List Node}
    (hbody : body.Obtained) (hargs : ∀ a ∈ args, a.Obtained)
    (hlength : args.length = params.length) :
    ∃ n, body.substitute? params args = some n ∧ n.Obtained := by
  obtain ⟨p, rfl, -⟩ := hbody.exists_pattern
  obtain ⟨ps, rfl, -⟩ := Node.exists_patterns fun a ha => (hargs a ha).exists_pattern
  have hanswer := p.substitute?_node (by rwa [Pattern.length_nodes] at hlength)
  exact ⟨_, hanswer, .substituted hbody hargs hlength hanswer⟩

namespace Definition

def patterns : Definition → List Pattern
  | .template t => [t.body]
  | .rule r => r.pattern :: r.guards.map Guard.pattern
  | .type _ | .decl _ | .external _ => []

def exprs : Definition → List Expr
  | .rule r => r.result :: r.guards.map Guard.value
  | .type _ | .decl _ | .external _ | .template _ => []

def Obtained (d : Definition) : Prop :=
  (∀ p ∈ d.patterns, p.node.Obtained) ∧ ∀ e ∈ d.exprs, e.node.Obtained

end Definition

namespace Parse

theorem covers_obtained_pattern (c : Cursor) : Covers c pattern fun p _ => p.node.Obtained := by
  intro p c' hrun
  obtain ⟨ts, hts, -⟩ := covers_pattern c p c' hrun
  have hread : node.run c = .ok p.node c' := by
    rw [node_eq]
    exact run_map_eq_ok.mpr ⟨p, hrun, rfl⟩
  exact ⟨ts, hts, .read hread⟩

theorem covers_obtained_expr (c : Cursor) : Covers c expr fun e _ => e.node.Obtained := by
  intro e c' hrun
  obtain ⟨ts, hts, -⟩ := covers_expr c e c' hrun
  have hread : exprNode.run c = .ok e.node c' := by
    rw [exprNode_eq]
    exact run_map_eq_ok.mpr ⟨e, hrun, rfl⟩
  exact ⟨ts, hts, .read hread⟩

theorem covers_obtained_template {c : Cursor} (loc : Loc) :
    Covers c (template loc) fun t _ => (Definition.template t).Obtained := by
  refine covers_lparen fun c' => covers_symbol fun term c' => ?_
  refine (covers_idents _ _ c').bind fun params ts c' hts => covers_rparen fun c' close => ?_
  refine (covers_obtained_pattern c').bind fun body ts c' hbody => ?_
  refine covers_rparen fun c' last => covers_pure ⟨?_, nofun⟩
  exact List.forall_mem_singleton.mpr hbody

theorem covers_obtained_guard {c : Cursor} (hc : (c.atForm "if-let" || c.atForm "if") = true) :
    Covers c guard fun g _ => g.pattern.node.Obtained ∧ g.value.node.Obtained := by
  obtain ⟨word, hparen, hword, -⟩ := exists_guard_word hc
  refine covers_get (covers_advance hparen (covers_get (covers_advance hword ?_)))
  have hrest (pattern : Pattern) (hpattern : pattern.node.Obtained) (c' : Cursor) :
      Covers c' (do
        let value ← expr
        expect .rparen "')' after guard"
        return ({ pattern, value, loc := c.loc } : Guard))
        fun g _ => g.pattern.node.Obtained ∧ g.value.node.Obtained :=
    (covers_obtained_expr c').bind fun value ts c' hvalue =>
      covers_rparen fun c' close => covers_pure ⟨hpattern, hvalue⟩
  split_ifs
  · exact (covers_obtained_pattern _).bind fun p ts c' hp => hrest p hp c'
  · exact hrest (.wildcard _) (.plain _) _

theorem covers_obtained_rule {c : Cursor} (loc : Loc) :
    Covers c (rule loc) fun r _ => (Definition.rule r).Obtained := by
  refine (covers_ruleName c).bind fun name ts c' hts => ?_
  refine (covers_priority c').bind fun priority number c' hnumber => ?_
  refine (covers_obtained_pattern c').bind fun pattern us c' hpattern => ?_
  refine (covers_many (fun c hc => covers_obtained_guard hc) c').bind fun gs vs c' hguards => ?_
  refine (covers_obtained_expr c').bind fun result ws c' hresult => ?_
  refine covers_rparen fun c' close => covers_pure ?_
  have hall := forall_of_spansEach hguards
  exact ⟨List.forall_mem_cons.mpr ⟨hpattern, List.forall_mem_map.mpr fun g hg => (hall g hg).1⟩,
    List.forall_mem_cons.mpr ⟨hresult, List.forall_mem_map.mpr fun g hg => (hall g hg).2⟩⟩

theorem covers_obtained_definition (c : Cursor) :
    Covers c definition fun d _ => d.Obtained := by
  refine covers_get (covers_lparen fun c' => covers_symbol fun keyword c'' => ?_)
  split_ifs
  · exact Covers.map ((@covers_typeDef _ _ c.loc).imp fun _ _ _ => ⟨nofun, nofun⟩)
  · exact Covers.map ((@covers_termDecl _ _ c.loc).imp fun _ _ _ => ⟨nofun, nofun⟩)
  · exact Covers.map ((@covers_externalDef _ _ c.loc).imp fun _ _ _ => ⟨nofun, nofun⟩)
  · exact Covers.map (covers_obtained_template c.loc)
  · exact Covers.map (covers_obtained_rule c.loc)
  · exact covers_failAt

theorem obtained_of_mem_definitions {file : UInt32} {text : Bytes} {d : Definition}
    (hd : d ∈ (parseFile file text).definitions) : d.Obtained := by
  obtain ⟨i, -, hout⟩ := exists_item_of_mem_definitions hd
  obtain ⟨c', hrun⟩ := i.run_of_outcome hout
  obtain ⟨ts, -, hobtained⟩ := covers_obtained_definition _ d c' hrun
  exact hobtained

end Parse

end TermRules

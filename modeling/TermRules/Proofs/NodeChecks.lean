import TermRules.Proofs.Arguments
import TermRules.Proofs.NodeShapes

/-!
# Checks of syntax nodes

A check of records takes the first child where a kind should have one, without a
look at whether it is there, and has no answer if it is not. The records that an
analysis comes to are checked like their patterns and expressions, so the check
always has an answer, right or wrong.
-/

namespace TermRules

/-- A check that may come to a child that is not there, where it has no answer. -/
abbrev NodeCheck := OptionT Check

namespace NodeCheck

variable {α β : Type}

def Defined (x : NodeCheck α) : Prop := ∀ scope scope', x.run.run scope ≠ .ok none scope'

theorem defined_lift (x : Check α) : Defined (OptionT.lift x) := by
  intro scope scope' h
  rw [OptionT.run_lift, EStateM.run_bind] at h
  cases hx : x.run scope <;> rw [hx] at h <;> cases h

theorem lift_bind_congr {x : Check α} {f : α → NodeCheck β} {g : α → Check β}
    (h : ∀ a s s', x.run s = .ok a s' → f a = OptionT.lift (g a)) :
    OptionT.lift x >>= f = OptionT.lift (x >>= g) := by
  apply OptionT.ext
  funext s
  rw [OptionT.run_bind, OptionT.run_lift, OptionT.run_lift]
  change ((x >>= fun a => pure (some a)) >>= _).run s = ((x >>= g) >>= _).run s
  rw [bind_assoc, bind_assoc, EStateM.run_bind, EStateM.run_bind]
  cases hx : x.run s with
  | error e s' => rfl
  | ok a s' =>
    have ha : (f a).run = (OptionT.lift (g a)).run := congrArg OptionT.run (h a s s' hx)
    rw [OptionT.run_lift] at ha
    exact congrArg (EStateM.run · s') ha

end NodeCheck

namespace Node

open Check

section Patterns

variable (rs : RuleSet)
  (expand : Loc → TermId → Template → List Node → TypeId → NodeCheck CheckedPattern)

mutual

def checkWith : Node → TypeId → NodeCheck CheckedPattern
  | ⟨.wildcard, loc, _, _, _, _⟩, type => return .wildcard ⟨type, loc⟩
  | ⟨.bool, loc, _, _, flag, _⟩, type => do
      OptionT.lift (ensureType rs loc .boolConstant boolType type)
      return .bool ⟨type, loc⟩ flag
  | ⟨.int, loc, _, value, _, _⟩, type => do
      OptionT.lift (ensurePrimitive rs loc type)
      return .int ⟨type, loc⟩ value
  | ⟨.var, loc, name, _, _, _⟩, type => do
      let scope ← OptionT.lift get
      match scope.find? name with
      | some v =>
          OptionT.lift (ensureType rs loc (.variable name) (scope.typeOf v) type)
          return .equal ⟨type, loc⟩ v
      | none => return .bind ⟨type, loc⟩ (← OptionT.lift (bindVar name type))
  | ⟨.bind, loc, name, _, _, children⟩, type => do
      let scope ← OptionT.lift get
      OptionT.lift (require (scope.find? name).isNone loc (.alreadyBound name))
      let v ← OptionT.lift (bindVar name type)
      return .bindAs ⟨type, loc⟩ v (← checkFirst children type)
  | ⟨.all, loc, _, _, _, children⟩, type =>
      return .all ⟨type, loc⟩ (← checkAll children (children.map fun _ => type))
  | ⟨.term, loc, name, _, _, children⟩, type => do
      let id ← OptionT.lift (findTerm rs loc name)
      let term := rs.termInfo id
      OptionT.lift (ensureType rs loc (.term term.name) term.ret type)
      OptionT.lift (ensureCount loc term children.length)
      match term.extractor with
      | .missing => OptionT.lift (failAt loc (.noExtractor term.name))
      | .template index _ => expand loc id (rs.templates[index]?.getD default) children type
      | .variant _ => return .variant ⟨type, loc⟩ id (← checkAll children term.args)
      | .external .. => return .extractor ⟨type, loc⟩ id (← checkAll children term.args)

def checkFirst : List Node → TypeId → NodeCheck CheckedPattern
  | [], _ => failure
  | n :: _, type => n.checkWith type

def checkAll : List Node → List TypeId → NodeCheck (List CheckedPattern)
  | n :: ns, type :: types => do
      let first ← n.checkWith type
      let rest ← checkAll ns types
      return first :: rest
  | _, _ => return []

end

end Patterns

def checkInside (rs : RuleSet) : Nat → List TermId → Node → TypeId → NodeCheck CheckedPattern
  | 0, _ => checkWith rs fun loc id _ _ _ => OptionT.lift (refuseExpansion rs loc id)
  | room + 1, expanding =>
      checkWith rs fun loc id t args type =>
        if id ∈ expanding then OptionT.lift (refuseExpansion rs loc id)
        else
          match t.body.node.substitute? (t.params.map Ident.name) args with
          | some expanded => checkInside rs room (id :: expanding) expanded type
          | none => failure

def check (rs : RuleSet) (n : Node) (type : TypeId) : NodeCheck CheckedPattern :=
  n.checkInside rs rs.terms.size [] type

section Agreement

variable {rs : RuleSet}
  {expand : Loc → TermId → Template → List Node → TypeId → NodeCheck CheckedPattern}
  {expand' : Loc → TermId → Pattern → TypeId → Check CheckedPattern}

def ExpandsAlike
    (expand : Loc → TermId → Template → List Node → TypeId → NodeCheck CheckedPattern)
    (expand' : Loc → TermId → Pattern → TypeId → Check CheckedPattern) : Prop :=
  ∀ loc id (t : Template) (args : List Pattern) type, args.length = t.params.length →
    expand loc id t (Pattern.nodes args) type =
      OptionT.lift (expand' loc id (t.instantiate args) type)

theorem map_const_nodes (ps : List Pattern) (type : TypeId) :
    (Pattern.nodes ps).map (fun _ => type) = ps.map fun _ => type := by
  rw [Pattern.nodes_eq_map, List.map_map]
  rfl

mutual

theorem checkWith_node (linked : rs.Linked) (h : ExpandsAlike expand expand') :
    ∀ (p : Pattern) (type : TypeId),
      p.node.checkWith rs expand type = OptionT.lift (patternWith rs expand' p type)
  | .wildcard loc, type => rfl
  | .bool loc flag, type => by
    simp only [Pattern.node, checkWith, patternWith, OptionT.lift_bind, OptionT.lift_pure]
  | .int loc value, type => by
    simp only [Pattern.node, checkWith, patternWith, OptionT.lift_bind, OptionT.lift_pure]
  | .var loc name, type => by
    simp only [Pattern.node, checkWith, patternWith]
    refine NodeCheck.lift_bind_congr fun scope _ _ _ => ?_
    cases scope.find? name <;> simp only [OptionT.lift_bind, OptionT.lift_pure]
  | .bind loc name sub, type => by
    simp only [Pattern.node, checkWith, patternWith, checkFirst, checkWith_node linked h sub,
      OptionT.lift_bind, OptionT.lift_pure]
  | .all loc parts, type => by
    simp only [Pattern.node, checkWith, patternWith, map_const_nodes, checkAll_nodes linked h,
      OptionT.lift_bind, OptionT.lift_pure]
  | .term loc name args, type => by
    simp only [Pattern.node, checkWith, patternWith, Pattern.length_nodes]
    -- The template is expanded only behind the check of the count, which is that of its parameters.
    refine NodeCheck.lift_bind_congr fun id _ _ hid => ?_
    refine NodeCheck.lift_bind_congr fun _ _ _ _ => ?_
    refine NodeCheck.lift_bind_congr fun _ _ _ hcount => ?_
    obtain ⟨info, hinfo, -⟩ := Table.get?_of_find? (run_findTerm_ok.mp hid).1
    have hlength := (run_ensureCount_ok.mp hcount).1
    rw [RuleSet.termInfo_of_get? hinfo] at hlength ⊢
    cases hextractor : info.extractor with
    | missing => rfl
    | template index place =>
      obtain ⟨t, ht, -, hparams⟩ := (linked.infos hinfo).template index place hextractor
      simp only [ht, Option.getD_some]
      exact h loc id t args type (hlength.trans hparams.symm)
    | variant ref => simp only [checkAll_nodes linked h, OptionT.lift_bind, OptionT.lift_pure]
    | external function infallible place =>
      simp only [checkAll_nodes linked h, OptionT.lift_bind, OptionT.lift_pure]

theorem checkAll_nodes (linked : rs.Linked) (h : ExpandsAlike expand expand') :
    ∀ (ps : List Pattern) (types : List TypeId),
      checkAll rs expand (Pattern.nodes ps) types = OptionT.lift (patternsWith rs expand' ps types)
  | [], types => rfl
  | p :: ps, [] => rfl
  | p :: ps, type :: types => by
    simp only [Pattern.nodes, checkAll, patternsWith, checkWith_node linked h p,
      checkAll_nodes linked h ps, OptionT.lift_bind, OptionT.lift_pure]

end

theorem checkInside_node (linked : rs.Linked) (room : Nat) (expanding : List TermId) (p : Pattern)
    (type : TypeId) :
    p.node.checkInside rs room expanding type =
      OptionT.lift (patternInside rs room expanding p type) := by
  induction room generalizing expanding p type with
  | zero => exact checkWith_node linked (fun _ _ _ _ _ _ => rfl) p type
  | succ room ih =>
    refine checkWith_node linked (fun loc id t args type' hlength => ?_) p type
    split_ifs
    · rfl
    · have hparams : args.length = (t.params.map Ident.name).length := by
        rw [hlength, List.length_map]
      rw [Pattern.substitute?_node hparams]
      exact ih (id :: expanding) (t.instantiate args) type'

theorem check_node (linked : rs.Linked) (p : Pattern) (type : TypeId) :
    p.node.check rs type = OptionT.lift (pattern rs p type) :=
  checkInside_node linked rs.terms.size [] p type

end Agreement

end Node

namespace ExprNode

open Check

section Exprs

variable (rs : RuleSet)

mutual

def check : ExprNode → Option TypeId → NodeCheck CheckedExpr
  | ⟨.var, loc, name, _, _, _, _⟩, expected => do
      let scope ← OptionT.lift get
      match scope.find? name with
      | some v =>
          let type := scope.typeOf v
          OptionT.lift (ensureTypeIf rs loc (.variable name) type expected)
          return .var ⟨type, loc⟩ v
      | none => OptionT.lift (failAt loc (.unbound name))
  | ⟨.bool, loc, _, _, flag, _, _⟩, expected => do
      OptionT.lift (ensureTypeIf rs loc .boolConstant boolType expected)
      return .bool ⟨boolType, loc⟩ flag
  | ⟨.int, loc, _, value, _, _, _⟩, some type => do
      OptionT.lift (ensurePrimitive rs loc type)
      return .int ⟨type, loc⟩ value
  | ⟨.int, loc, _, value, _, _, _⟩, none => OptionT.lift (failAt loc (.untypedInteger value))
  | ⟨.term, loc, name, _, _, children, _⟩, expected => do
      let id ← OptionT.lift (findTerm rs loc name)
      let term := rs.termInfo id
      OptionT.lift (require (term.constructor != .missing) loc (.noConstructor term.name))
      OptionT.lift (ensureTypeIf rs loc (.term term.name) term.ret expected)
      OptionT.lift (ensureCount loc term children.length)
      return .call ⟨term.ret, loc⟩ id (← checkAll children term.args)
  | ⟨.letIn, loc, _, _, _, children, bindings⟩, expected => do
      let outer := (← OptionT.lift get).visible
      let checked ← checkBindings bindings
      let body ← checkFirst children expected
      OptionT.lift (modify fun scope => { scope with visible := outer })
      return .letIn ⟨body.type, loc⟩ checked body

def checkFirst : List ExprNode → Option TypeId → NodeCheck CheckedExpr
  | [], _ => failure
  | n :: _, expected => n.check expected

def checkAll : List ExprNode → List TypeId → NodeCheck (List CheckedExpr)
  | n :: ns, type :: types => do
      let first ← n.check (some type)
      let rest ← checkAll ns types
      return first :: rest
  | _, _ => return []

def checkBindings : List (Binding ExprNode) → NodeCheck (List (CheckedBinding CheckedExpr))
  | [] => return []
  | ⟨name, typeName, value⟩ :: rest => do
      let type ← OptionT.lift <|
        match rs.types.find? typeName.name with
        | some type => pure type
        | none => failAt typeName.loc (.undefinedType typeName.name)
      let value ← value.check (some type)
      let v ← OptionT.lift (bindVar name.name type)
      let rest ← checkBindings rest
      return ⟨v, value⟩ :: rest

end

end Exprs

section Agreement

variable (rs : RuleSet)

mutual

theorem check_node : ∀ (e : Expr) (expected : Option TypeId),
    e.node.check rs expected = OptionT.lift (expr rs e expected)
  | .var loc name, expected => by
    simp only [Expr.node, check, expr]
    refine NodeCheck.lift_bind_congr fun scope _ _ _ => ?_
    cases scope.find? name <;> simp only [OptionT.lift_bind, OptionT.lift_pure]
  | .bool loc flag, expected => by
    simp only [Expr.node, check, expr, OptionT.lift_bind, OptionT.lift_pure]
  | .int loc value, some type => by
    simp only [Expr.node, check, expr, OptionT.lift_bind, OptionT.lift_pure]
  | .int loc value, none => rfl
  | .term loc name args, expected => by
    simp only [Expr.node, check, expr, Expr.length_nodes, checkAll_nodes args, OptionT.lift_bind,
      OptionT.lift_pure]
  | .letIn loc bs body, expected => by
    simp only [Expr.node, check, expr, checkFirst, checkBindings_nodes bs, check_node body,
      OptionT.lift_bind, OptionT.lift_pure]

theorem checkAll_nodes : ∀ (es : List Expr) (types : List TypeId),
    checkAll rs (Expr.nodes es) types = OptionT.lift (exprs rs es types)
  | [], types => rfl
  | e :: es, [] => rfl
  | e :: es, type :: types => by
    simp only [Expr.nodes, checkAll, exprs, check_node e, checkAll_nodes es, OptionT.lift_bind,
      OptionT.lift_pure]

theorem checkBindings_nodes : ∀ bs : List (Binding Expr),
    checkBindings rs (Expr.bindingNodes bs) = OptionT.lift (Check.bindings rs bs)
  | [] => rfl
  | ⟨name, typeName, value⟩ :: bs => by
    simp only [Expr.bindingNodes, checkBindings, Check.bindings, check_node value,
      checkBindings_nodes bs]
    cases rs.types.find? typeName.name with
    | none => rfl
    | some type => simp only [OptionT.lift_bind, OptionT.lift_pure, pure_bind]

end

end Agreement

end ExprNode

namespace RuleSet

variable {rs : RuleSet}

theorem Linked.check_obtained (linked : rs.Linked) {n : Node} (h : n.Obtained) (type : TypeId) :
    ∃ p : Pattern, p.node = n ∧ n.check rs type = OptionT.lift (Check.pattern rs p type) := by
  obtain ⟨p, rfl, -⟩ := h.exists_pattern
  exact ⟨p, rfl, Node.check_node linked p type⟩

theorem check_obtainedExpr (rs : RuleSet) {n : ExprNode} (h : n.Obtained)
    (expected : Option TypeId) :
    ∃ e : Expr, e.node = n ∧ n.check rs expected = OptionT.lift (Check.expr rs e expected) := by
  obtain ⟨e, rfl⟩ := h.exists_expr
  exact ⟨e, rfl, ExprNode.check_node rs e expected⟩

end RuleSet

/-- Reading into records is reading patterns and expressions, and whatever stands in the
definitions of a file is read so. Every node below what is read, and below what substitutions with
as many arguments as parameters make of it, has the children that its kind needs and no reserved
word for a variable. Hence these substitutions find every child that they take, and so do the
checks of all these nodes. -/
theorem syntax_wellShaped :
    (Parse.node = Pattern.node <$> Parse.pattern ∧ Parse.exprNode = Expr.node <$> Parse.expr) ∧
    (∀ (file : UInt32) (text : Bytes), ∀ d ∈ (parseFile file text).definitions, d.Obtained) ∧
    (∀ n : Node, n.Obtained → n.WellShaped) ∧
    (∀ n : ExprNode, n.Obtained → n.WellShaped) ∧
    (∀ (body : Node) (params : List Bytes) (args : List Node), body.Obtained →
      (∀ a ∈ args, a.Obtained) → args.length = params.length →
      ∃ n, body.substitute? params args = some n ∧ n.Obtained) ∧
    (∀ (t : Template) (args : List Pattern), args.length = t.params.length →
      t.body.node.substitute? (t.params.map Ident.name) (Pattern.nodes args) =
        some (t.instantiate args).node) ∧
    ∀ batches, let rs := RuleSet.afterAll batches
      (∀ n : Node, n.Obtained → ∀ type, (n.check rs type).Defined ∧
        ∃ p : Pattern, p.node = n ∧ n.check rs type = OptionT.lift (Check.pattern rs p type)) ∧
      ∀ n : ExprNode, n.Obtained → ∀ expected, (n.check rs expected).Defined ∧
        ∃ e : Expr, e.node = n ∧
          n.check rs expected = OptionT.lift (Check.expr rs e expected) := by
  refine ⟨⟨Parse.node_eq, Parse.exprNode_eq⟩, fun file text d => Parse.obtained_of_mem_definitions,
    fun n => Node.Obtained.wellShaped, fun n => ExprNode.Obtained.wellShaped,
    fun body params args => Node.Obtained.substitute?, fun t args hlength => ?_, fun batches => ?_⟩
  · exact Pattern.substitute?_node (by rw [hlength, List.length_map]) t.body
  · intro rs
    refine ⟨fun n hn type => ?_, fun n hn expected => ?_⟩
    · obtain ⟨p, hp, hcheck⟩ := (RuleSet.afterAll_linked batches).check_obtained hn type
      exact ⟨hcheck ▸ NodeCheck.defined_lift _, p, hp, hcheck⟩
    · obtain ⟨e, he, hcheck⟩ := rs.check_obtainedExpr hn expected
      exact ⟨hcheck ▸ NodeCheck.defined_lift _, e, he, hcheck⟩

end TermRules

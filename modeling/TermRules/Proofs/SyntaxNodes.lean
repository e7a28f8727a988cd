import TermRules.Parse.Pattern
import TermRules.Proofs.ArgumentNodes

/-!
# Syntax nodes

A pattern or an expression can be kept as a record that has the same fields for
every kind: a place, a name, a literal, a truth value and a list of children. No
field says how many children there have to be. A reader fills such a record on
its way, and a substitution rebuilds the children and takes the first one of a
node that should have one. Both are those of patterns and expressions.
-/

namespace TermRules

inductive NodeKind
  | wildcard
  | var
  | bind
  | int
  | bool
  | term
  | all
deriving DecidableEq, Repr

/-- A pattern as a record; the kind says which of the fields count. -/
structure Node where
  kind : NodeKind := .wildcard
  loc : Loc
  name : Bytes := []
  value : IntLiteral := ⟨false, 0⟩
  flag : Bool := false
  children : List Node := []
deriving Repr

inductive ExprKind
  | var
  | int
  | bool
  | term
  | letIn
deriving DecidableEq, Repr

structure ExprNode where
  kind : ExprKind := .var
  loc : Loc
  name : Bytes := []
  value : IntLiteral := ⟨false, 0⟩
  flag : Bool := false
  children : List ExprNode := []
  bindings : List (Binding ExprNode) := []
deriving Repr

mutual

def Pattern.node : Pattern → Node
  | .wildcard loc => { loc }
  | .var loc name => { kind := .var, loc, name }
  | .bind loc name sub => { kind := .bind, loc, name, children := [sub.node] }
  | .int loc value => { kind := .int, loc, value }
  | .bool loc flag => { kind := .bool, loc, flag }
  | .term loc name args => { kind := .term, loc, name, children := nodes args }
  | .all loc parts => { kind := .all, loc, children := nodes parts }

def Pattern.nodes : List Pattern → List Node
  | [] => []
  | p :: ps => p.node :: nodes ps

end

mutual

def Expr.node : Expr → ExprNode
  | .var loc name => { loc, name }
  | .int loc value => { kind := .int, loc, value }
  | .bool loc flag => { kind := .bool, loc, flag }
  | .term loc name args => { kind := .term, loc, name, children := nodes args }
  | .letIn loc bs body =>
      { kind := .letIn, loc, children := [body.node], bindings := bindingNodes bs }

def Expr.nodes : List Expr → List ExprNode
  | [] => []
  | e :: es => e.node :: nodes es

def Expr.bindingNodes : List (Binding Expr) → List (Binding ExprNode)
  | [] => []
  | ⟨name, type, value⟩ :: bs => ⟨name, type, value.node⟩ :: bindingNodes bs

end

theorem Pattern.nodes_eq_map (ps : List Pattern) : nodes ps = ps.map node := by
  induction ps with
  | nil => rfl
  | cons p ps ih => rw [nodes, ih, List.map_cons]

theorem Pattern.length_nodes (ps : List Pattern) : (nodes ps).length = ps.length := by
  rw [nodes_eq_map, List.length_map]

theorem Expr.nodes_eq_map (es : List Expr) : nodes es = es.map node := by
  induction es with
  | nil => rfl
  | cons e es ih => rw [nodes, ih, List.map_cons]

theorem Expr.length_nodes (es : List Expr) : (nodes es).length = es.length := by
  rw [nodes_eq_map, List.length_map]

theorem Expr.bindingNodes_eq_map (bs : List (Binding Expr)) :
    bindingNodes bs = bs.map fun b => ⟨b.var, b.type, b.value.node⟩ := by
  induction bs with
  | nil => rfl
  | cons b bs ih => rw [bindingNodes, ih, List.map_cons]

namespace Node

mutual

/-- Children are rebuilt one after the other. There is no answer if an argument or a first child
is used that is not there. -/
def substitute? (params : List Bytes) (args : List Node) : Node → Option Node
  | ⟨kind, loc, name, value, flag, children⟩ =>
      if kind = .var then
        match params.idxOf? name with
        | some i => args[i]?
        | none => some ⟨kind, loc, name, value, flag, children⟩
      else do
        let rebuilt ← substituteAll? params args children
        if kind = .bind then
          match params.idxOf? name with
          | some i =>
              let arg ← args[i]?
              let first ← rebuilt.head?
              return { kind := .all, loc, children := [arg, first] }
          | none => return ⟨kind, loc, name, value, flag, rebuilt⟩
        else return ⟨kind, loc, name, value, flag, rebuilt⟩

def substituteAll? (params : List Bytes) (args : List Node) : List Node → Option (List Node)
  | [] => some []
  | n :: ns => do
      let first ← n.substitute? params args
      let rest ← substituteAll? params args ns
      return first :: rest

end

end Node

namespace Pattern

section Substitution

variable {params : List Bytes} {args : List Pattern}

theorem exists_getElem?_of_idxOf? (hlength : args.length = params.length) {name : Bytes} {i : Nat}
    (h : params.idxOf? name = some i) :
    ∃ a, args[i]? = some a ∧ (nodes args)[i]? = some a.node := by
  obtain ⟨hlt, -⟩ := List.idxOf?_eq_some_iff.mp h
  have ha := List.getElem?_eq_getElem (hlength.symm ▸ hlt : i < args.length)
  refine ⟨_, ha, ?_⟩
  rw [nodes_eq_map, List.getElem?_map, ha]
  rfl

mutual

/-- With as many arguments as parameters the substitution on records has an answer. -/
theorem substitute?_node (hlength : args.length = params.length) : ∀ p : Pattern,
    p.node.substitute? params (nodes args) = some (p.subst (params.zip args)).node
  | .wildcard loc => rfl
  | .int loc value => rfl
  | .bool loc flag => rfl
  | .var loc name => by
    rw [node, Node.substitute?, if_pos rfl, subst, Check.lookup_zip]
    cases hi : params.idxOf? name with
    | none => rfl
    | some i =>
      obtain ⟨a, ha, hnode⟩ := exists_getElem?_of_idxOf? hlength hi
      rw [Option.bind_some, ha]
      exact hnode
  | .bind loc name sub => by
    rw [node, Node.substitute?, if_neg (by decide), Node.substituteAll?,
      substitute?_node hlength sub, Node.substituteAll?, subst, Check.lookup_zip]
    cases hi : params.idxOf? name with
    | none => rfl
    | some i =>
      obtain ⟨a, ha, hnode⟩ := exists_getElem?_of_idxOf? hlength hi
      rw [Option.bind_some, ha]
      dsimp only
      rw [hnode]
      rfl
  | .term loc name ps => by
    rw [node, Node.substitute?, if_neg (by decide), substituteAll?_nodes hlength ps]
    rfl
  | .all loc ps => by
    rw [node, Node.substitute?, if_neg (by decide), substituteAll?_nodes hlength ps]
    rfl

theorem substituteAll?_nodes (hlength : args.length = params.length) : ∀ ps : List Pattern,
    Node.substituteAll? params (nodes args) (nodes ps) =
      some (nodes (substAll (params.zip args) ps))
  | [] => rfl
  | p :: ps => by
    rw [nodes, Node.substituteAll?, substitute?_node hlength p, substituteAll?_nodes hlength ps]
    rfl

end

/-- A bind without a child has no answer. -/
example : ({ kind := .bind, loc := .unknown, name := ascii "x" } : Node).substitute? [ascii "x"]
    [{ loc := .unknown }] = none :=
  rfl

end Substitution

end Pattern

namespace Parse

def nodeWithin : Nat → Parse Node
  | 0 => unexpected "pattern"
  | fuel + 1 => do
      let c ← get
      let blank : Node := { loc := c.loc }
      match c.lexeme? with
      | some (.int n) =>
          advance
          return { blank with kind := .int, value := n }
      | some (.symbol text) =>
          advance
          if text = ascii "_" then return { blank with kind := .wildcard }
          else if text = ascii "true" ∨ text = ascii "false" then
            return { blank with kind := .bool, flag := text = ascii "true" }
          else
            let named := { blank with name := text }
            if (← get).kind = .atSign then
              advance
              let sub ← nodeWithin fuel
              return { named with kind := .bind, children := named.children ++ [sub] }
            else return { named with kind := .var }
      | some .lparen =>
          advance
          let head ← symbol "term name in pattern"
          let opened :=
            if head.name = ascii "and" then { blank with kind := .all }
            else { blank with kind := .term, name := head.name }
          let children ← many Cursor.inList (nodeWithin fuel)
          expect .rparen "')' after pattern"
          return { opened with children := opened.children ++ children }
      | _ => unexpected "pattern"

def node : Parse Node := do nodeWithin ((← get).tokens.length + 1)

def nodeBinding (value : Parse ExprNode) : Parse (Binding ExprNode) := do
  advance
  let var ← symbol "let variable"
  let type ← symbol "let variable type"
  let value ← value
  expect .rparen "')' after let binding"
  return ⟨var, type, value⟩

def exprNodeWithin : Nat → Parse ExprNode
  | 0 => unexpected "expression"
  | fuel + 1 => do
      let c ← get
      let blank : ExprNode := { loc := c.loc }
      match c.lexeme? with
      | some (.int n) =>
          advance
          return { blank with kind := .int, value := n }
      | some (.symbol text) =>
          advance
          if text = ascii "true" ∨ text = ascii "false" then
            return { blank with kind := .bool, flag := text = ascii "true" }
          else return { blank with kind := .var, name := text }
      | some .lparen =>
          advance
          let head ← symbol "term name in expression"
          if head.name = ascii "let" then
            let opened := { blank with kind := .letIn }
            expect .lparen "'(' before let bindings"
            let bindings ← many (·.kind = .lparen) (nodeBinding (exprNodeWithin fuel))
            expect .rparen "')' after let bindings"
            let body ← exprNodeWithin fuel
            expect .rparen "')' after let body"
            return { opened with
              children := opened.children ++ [body], bindings := opened.bindings ++ bindings }
          else
            let opened := { blank with kind := .term, name := head.name }
            let children ← many Cursor.inList (exprNodeWithin fuel)
            expect .rparen "')' after expression"
            return { opened with children := opened.children ++ children }
      | _ => unexpected "expression"

def exprNode : Parse ExprNode := do exprNodeWithin ((← get).tokens.length + 1)

section Maps

variable {α β : Type}

theorem manyWithin_map (more : Cursor → Bool) (f : α → β) (p : Parse α) (fuel : Nat) :
    manyWithin more (f <$> p) fuel = List.map f <$> manyWithin more p fuel := by
  induction fuel with
  | zero => rw [manyWithin, manyWithin, map_pure, List.map_nil]
  | succ fuel ih =>
    rw [manyWithin, manyWithin, map_bind]
    congr 1
    funext c
    split_ifs
    · rw [ih]
      simp only [map_bind, bind_map_left, map_pure, List.map_cons]
    · rw [map_pure, List.map_nil]

theorem many_map (more : Cursor → Bool) (f : α → β) (p : Parse α) :
    many more (f <$> p) = List.map f <$> many more p := by
  rw [many, many, map_bind]
  congr 1
  funext c
  exact manyWithin_map more f p c.tokens.length

end Maps

theorem isPatternKeyword_eq_true {text : Bytes} :
    isPatternKeyword text = true ↔
      text = ascii "_" ∨ text = ascii "true" ∨ text = ascii "false" := by
  simp only [isPatternKeyword, Bool.or_eq_true, decide_eq_true_eq, or_assoc]

theorem node_patternOfSymbol_keyword (loc : Loc) {text : Bytes}
    (h : isPatternKeyword text = true) :
    (patternOfSymbol loc text).node =
      if text = ascii "_" then { loc }
      else { kind := .bool, loc, flag := text = ascii "true" } := by
  rw [patternOfSymbol]
  split_ifs with hwild htrue hfalse
  · rfl
  · simp [Pattern.node, htrue]
  · subst hfalse
    rfl
  · simp [isPatternKeyword_eq_true, *] at h

theorem patternOfSymbol_of_name (loc : Loc) {text : Bytes} (h : isPatternKeyword text = false) :
    patternOfSymbol loc text = .var loc text := by
  simp only [isPatternKeyword, Bool.or_eq_false_iff, decide_eq_false_iff_not] at h
  rw [patternOfSymbol, if_neg h.1.1, if_neg h.1.2, if_neg h.2]

theorem nodeWithin_eq (fuel : Nat) : nodeWithin fuel = Pattern.node <$> patternWithin fuel := by
  induction fuel with
  | zero => rfl
  | succ fuel ih =>
    rw [nodeWithin, patternWithin, map_bind, ih]
    congr 1
    funext c
    dsimp only
    cases c.lexeme? with
    | none => rfl
    | some l =>
      cases l with
      | int n => rw [map_bind]; rfl
      | symbol text =>
        dsimp only
        rw [map_bind]
        congr 1
        funext _
        cases hkeyword : isPatternKeyword text with
        | true =>
          have hnode := node_patternOfSymbol_keyword c.loc hkeyword
          simp only [Bool.not_true, Bool.false_and, Bool.false_eq_true, if_false]
          split_ifs at hnode ⊢ with hwild hbool
          · exact congrArg pure hnode.symm
          · exact congrArg pure hnode.symm
          · exact absurd ((isPatternKeyword_eq_true.mp hkeyword).resolve_left hwild) hbool
        | false =>
          obtain ⟨hwild, hbool⟩ :=
            not_or.mp (mt isPatternKeyword_eq_true.mpr (Bool.eq_false_iff.mp hkeyword))
          rw [if_neg hwild, if_neg hbool, map_bind]
          congr 1
          funext c'
          simp only [Bool.not_false, Bool.true_and, decide_eq_true_eq]
          split_ifs
          · simp only [map_bind, map_pure, bind_map_left, List.nil_append, Pattern.node]
          · rw [map_pure, patternOfSymbol_of_name c.loc hkeyword]
            rfl
      | lparen =>
        simp only [map_bind, map_pure, many_map, bind_map_left]
        congr 1
        funext _
        congr 1
        funext head
        split_ifs <;> simp only [List.nil_append, Pattern.node, Pattern.nodes_eq_map]
      | rparen => rfl
      | atSign => rfl

theorem node_exprOfSymbol (loc : Loc) (text : Bytes) :
    (exprOfSymbol loc text).node =
      if text = ascii "true" ∨ text = ascii "false" then
        { kind := .bool, loc, flag := text = ascii "true" }
      else { loc, name := text } := by
  rw [exprOfSymbol]
  split_ifs with htrue hbool hfalse hbool' <;> simp_all [Expr.node, ascii]

theorem nodeBinding_map (value : Parse Expr) :
    nodeBinding (Expr.node <$> value) =
      (fun b => ⟨b.var, b.type, b.value.node⟩) <$> binding value := by
  simp only [nodeBinding, binding, map_bind, bind_map_left, map_pure]

theorem exprNodeWithin_eq (fuel : Nat) : exprNodeWithin fuel = Expr.node <$> exprWithin fuel := by
  induction fuel with
  | zero => rfl
  | succ fuel ih =>
    rw [exprNodeWithin, exprWithin, map_bind, ih]
    congr 1
    funext c
    dsimp only
    cases c.lexeme? with
    | none => rfl
    | some l =>
      cases l with
      | int n => rw [map_bind]; rfl
      | symbol text =>
        dsimp only
        rw [map_bind]
        congr 1
        funext _
        rw [map_pure, node_exprOfSymbol]
        split_ifs <;> rfl
      | lparen =>
        simp only [map_bind]
        congr 1
        funext _
        congr 1
        funext head
        split_ifs
        · simp only [map_bind, map_pure, nodeBinding_map, many_map, bind_map_left, List.nil_append,
            Expr.node, Expr.bindingNodes_eq_map]
        · simp only [map_bind, map_pure, many_map, bind_map_left, List.nil_append, Expr.node,
            Expr.nodes_eq_map]
      | rparen => rfl
      | atSign => rfl

theorem node_eq : node = Pattern.node <$> pattern := by
  rw [node, pattern, map_bind]
  congr 1
  funext c
  exact nodeWithin_eq _

theorem exprNode_eq : exprNode = Expr.node <$> expr := by
  rw [exprNode, expr, map_bind]
  congr 1
  funext c
  exact exprNodeWithin_eq _

end Parse

end TermRules

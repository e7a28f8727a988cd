import TermRules.Parse.Cursor

/-!
# Reading patterns and expressions

Both are read by descent. A nested part starts behind at least one token of the
part around it, so the number of tokens left bounds the nesting.
-/

namespace TermRules

namespace Parse

def patternOfSymbol (loc : Loc) (name : Bytes) : Pattern :=
  if name = ascii "_" then .wildcard loc
  else if name = ascii "true" then .bool loc true
  else if name = ascii "false" then .bool loc false
  else .var loc name

def isPatternKeyword (name : Bytes) : Bool :=
  name = ascii "_" || name = ascii "true" || name = ascii "false"

def patternWithin : Nat → Parse Pattern
  | 0 => unexpected "pattern"
  | fuel + 1 => do
      let c ← get
      match c.lexeme? with
      | some (.int n) =>
          advance
          return .int c.loc n
      | some (.symbol name) =>
          advance
          if !isPatternKeyword name && (← get).kind = .atSign then
            advance
            return .bind c.loc name (← patternWithin fuel)
          else return patternOfSymbol c.loc name
      | some .lparen =>
          advance
          let head ← symbol "term name in pattern"
          let args ← many Cursor.inList (patternWithin fuel)
          expect .rparen "')' after pattern"
          return if head.name = ascii "and" then .all c.loc args else .term c.loc head.name args
      | _ => unexpected "pattern"

def pattern : Parse Pattern := do patternWithin ((← get).tokens.length + 1)

def exprOfSymbol (loc : Loc) (name : Bytes) : Expr :=
  if name = ascii "true" then .bool loc true
  else if name = ascii "false" then .bool loc false
  else .var loc name

def binding (value : Parse Expr) : Parse (Binding Expr) := do
  advance
  let var ← symbol "let variable"
  let type ← symbol "let variable type"
  let value ← value
  expect .rparen "')' after let binding"
  return ⟨var, type, value⟩

def exprWithin : Nat → Parse Expr
  | 0 => unexpected "expression"
  | fuel + 1 => do
      let c ← get
      match c.lexeme? with
      | some (.int n) =>
          advance
          return .int c.loc n
      | some (.symbol name) =>
          advance
          return exprOfSymbol c.loc name
      | some .lparen =>
          advance
          let head ← symbol "term name in expression"
          if head.name = ascii "let" then
            expect .lparen "'(' before let bindings"
            let bindings ← many (·.kind = .lparen) (binding (exprWithin fuel))
            expect .rparen "')' after let bindings"
            let body ← exprWithin fuel
            expect .rparen "')' after let body"
            return .letIn c.loc bindings body
          else
            let args ← many Cursor.inList (exprWithin fuel)
            expect .rparen "')' after expression"
            return .term c.loc head.name args
      | _ => unexpected "expression"

def expr : Parse Expr := do exprWithin ((← get).tokens.length + 1)

end Parse

end TermRules

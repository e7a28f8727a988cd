import TermRules.Check.Scope

/-!
# Checking expressions

An expression is checked against an expected type, if there is one, and answers
with its own type. The names bound by a `let` are visible in its later bindings
and in its body.
-/

namespace TermRules

namespace Check

mutual

def expr (rs : RuleSet) : Expr → Option TypeId → Check CheckedExpr
  | .var loc name, expected => do
      let scope ← get
      match scope.find? name with
      | some v =>
          let type := scope.typeOf v
          ensureTypeIf rs loc (.variable name) type expected
          return .var ⟨type, loc⟩ v
      | none => failAt loc (.unbound name)
  | .bool loc value, expected => do
      ensureTypeIf rs loc .boolConstant boolType expected
      return .bool ⟨boolType, loc⟩ value
  | .int loc value, some type => do
      ensurePrimitive rs loc type
      return .int ⟨type, loc⟩ value
  | .int loc value, none => failAt loc (.untypedInteger value)
  | .term loc name args, expected => do
      let id ← findTerm rs loc name
      let term := rs.termInfo id
      require (term.constructor != .missing) loc (.noConstructor term.name)
      ensureTypeIf rs loc (.term term.name) term.ret expected
      ensureCount loc term args.length
      return .call ⟨term.ret, loc⟩ id (← exprs rs args term.args)
  | .letIn loc bs body, expected => do
      let outer := (← get).visible
      let checked ← bindings rs bs
      let body ← expr rs body expected
      modify fun scope => { scope with visible := outer }
      return .letIn ⟨body.type, loc⟩ checked body

def exprs (rs : RuleSet) : List Expr → List TypeId → Check (List CheckedExpr)
  | e :: es, type :: types => do
      let first ← expr rs e (some type)
      let rest ← exprs rs es types
      return first :: rest
  | _, _ => return []

def bindings (rs : RuleSet) : List (Binding Expr) → Check (List (CheckedBinding CheckedExpr))
  | [] => return []
  | ⟨name, typeName, value⟩ :: rest => do
      let some type := rs.types.find? typeName.name
        | failAt typeName.loc (.undefinedType typeName.name)
      let value ← expr rs value (some type)
      let v ← bindVar name.name type
      let rest ← bindings rs rest
      return ⟨v, value⟩ :: rest

end

end Check

end TermRules

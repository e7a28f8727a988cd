import TermRules.Check.Expr
import TermRules.Check.Pattern

/-!
# Checking rules

A rule belongs to the term at the root of its pattern. All arguments of the root
are checked, each error being reported; guards and result follow only when all
arguments are right and stop at the first error.
-/

namespace TermRules

namespace Check

def ruleRoot (rs : RuleSet) : Pattern → Except SemanticError (TermId × List Pattern)
  | .term loc name args =>
      match rs.terms.find? name with
      | none => .error ⟨loc, .undefinedTerm name⟩
      | some id =>
          let term := rs.termInfo id
          match term.constructor with
          | .variant _ => .error ⟨loc, .rootIsVariant term.name⟩
          | .external .. => .error ⟨loc, .rootIsExternal term.name⟩
          | _ =>
              if args.length = term.args.length then .ok (id, args)
              else .error ⟨loc, .argumentCount term.name term.args.length args.length⟩
  | p => .error ⟨p.loc, .rootNotTerm⟩

/-- Checks the arguments one after the other, past errors, in one growing scope. -/
def rootArgs (rs : RuleSet) :
    List Pattern → List TypeId → Scope → List SemanticError × List CheckedPattern × Scope
  | p :: ps, type :: types, scope =>
      match (pattern rs p type).run scope with
      | .ok c scope' =>
          let (errors, cs, final) := rootArgs rs ps types scope'
          (errors, c :: cs, final)
      | .error e scope' =>
          let (errors, cs, final) := rootArgs rs ps types scope'
          (e :: errors, cs, final)
  | _, _, scope => ([], [], scope)

def guards (rs : RuleSet) : List Guard → Check (List CheckedGuard)
  | [] => return []
  | g :: gs => do
      let value ← expr rs g.value none
      let pattern ← pattern rs g.pattern value.type
      let rest ← guards rs gs
      return ⟨pattern, value⟩ :: rest

def ruleBody (rs : RuleSet) (r : Rule) (ret : TypeId) :
    Check (List CheckedGuard × CheckedExpr) := do
  let guards ← guards rs r.guards
  let result ← expr rs r.result (some ret)
  return (guards, result)

def rule (rs : RuleSet) (r : Rule) (order : Nat) : Except (List SemanticError) CheckedRule :=
  match ruleRoot rs r.pattern with
  | .error e => .error [e]
  | .ok (root, patterns) =>
      let term := rs.termInfo root
      match rootArgs rs patterns term.args .empty with
      | (e :: errors, _, _) => .error (e :: errors)
      | ([], args, scope) =>
          match (ruleBody rs r term.ret).run scope with
          | .error e _ => .error [e]
          | .ok (guards, result) scope' =>
              .ok {
                root, args, guards, result, order
                name := r.name.map Ident.name
                priority := r.priority
                vars := scope'.vars
                loc := r.loc }

end Check

end TermRules

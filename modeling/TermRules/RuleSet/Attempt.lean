import TermRules.Check.Error
import TermRules.RuleSet

/-!
# Attempts

An attempt to enter a definition either gives the larger rule set or the errors
for which the definition is refused. A refused definition changes nothing and
adds its errors, and the analysis goes on behind it.
-/

namespace TermRules

structure Analysis where
  ruleSet : RuleSet
  errors : List SemanticError

abbrev Attempt := Except (List SemanticError) RuleSet

namespace Analysis

def refuse (a : Analysis) (errors : List SemanticError) : Analysis :=
  { a with errors := a.errors ++ errors }

def attempt (a : Analysis) (step : RuleSet → Attempt) : Analysis :=
  match step a.ruleSet with
  | .ok rs => { a with ruleSet := rs }
  | .error errors => a.refuse errors

end Analysis

def bothOrErrors (a : Except (List ε) α) (b : Except (List ε) β) : Except (List ε) (α × β) :=
  match a, b with
  | .ok x, .ok y => .ok (x, y)
  | .ok _, .error es => .error es
  | .error es, .ok _ => .error es
  | .error es, .error fs => .error (es ++ fs)

namespace RuleSet

def resolveType (rs : RuleSet) (i : Ident) : Except (List SemanticError) TypeId :=
  match rs.types.find? i.name with
  | some id => .ok id
  | none => .error [⟨i.loc, .undefinedType i.name⟩]

def resolveTypes (rs : RuleSet) : List Ident → Except (List SemanticError) (List TypeId)
  | [] => .ok []
  | i :: is => (bothOrErrors (rs.resolveType i) (rs.resolveTypes is)).map fun (t, ts) => t :: ts

end RuleSet

end TermRules

import TermRules.Definition

/-!
# Templates and substitution

A template stands for its body with patterns in place of its parameters. All
parameters are replaced at once, arguments are not searched again, and the names
of terms stay. A parameter that binds a subpattern becomes a conjunction, since
the argument and the subpattern must both match.
-/

namespace TermRules

abbrev Substitution := List (Bytes × Pattern)

namespace Pattern

mutual

def subst (σ : Substitution) : Pattern → Pattern
  | .wildcard loc => .wildcard loc
  | .var loc name => (σ.lookup name).getD (.var loc name)
  | .bind loc name sub =>
      match σ.lookup name with
      | some arg => .all loc [arg, sub.subst σ]
      | none => .bind loc name (sub.subst σ)
  | .int loc value => .int loc value
  | .bool loc value => .bool loc value
  | .term loc name args => .term loc name (substAll σ args)
  | .all loc parts => .all loc (substAll σ parts)

def substAll (σ : Substitution) : List Pattern → List Pattern
  | [] => []
  | p :: ps => p.subst σ :: substAll σ ps

end

theorem substAll_eq_map (σ : Substitution) (ps : List Pattern) :
    substAll σ ps = ps.map (subst σ) := by
  induction ps with
  | nil => rfl
  | cons p ps ih => simp [substAll, ih]

end Pattern

namespace Template

/-- Of two parameters with one name the first counts. -/
def substitution (t : Template) (args : List Pattern) : Substitution :=
  (t.params.map Ident.name).zip args

def instantiate (t : Template) (args : List Pattern) : Pattern :=
  t.body.subst (t.substitution args)

end Template

end TermRules

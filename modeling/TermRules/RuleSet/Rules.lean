import TermRules.Check.Rule
import TermRules.RuleSet.Terms

/-!
# Entering rules

Rules are checked last, against all types and terms.
-/

namespace TermRules

namespace RuleSet

/-- A term that rules are written for gets a constructor, unless it has one. -/
def markInternal (rs : RuleSet) (r : Rule) : RuleSet :=
  match r.pattern with
  | .term _ name _ =>
      match rs.terms.find? name with
      | some id =>
          if (rs.termInfo id).constructor = .missing then rs.setConstructor id (.internal r.loc)
          else rs
      | none => rs
  | _ => rs

def addRule (r : Rule) (order : Nat) (rs : RuleSet) : Attempt :=
  (Check.rule rs r order).map fun checked => { rs with rules := rs.rules.push checked }

/-- Checks the rules in order. A rule whose name is taken is passed over; every other rule takes
the next place in the order, even when it is refused. -/
def addRules : List Bytes → Nat → Analysis → List Rule → Analysis
  | _, _, a, [] => a
  | names, order, a, r :: rs =>
      match r.name with
      | none => addRules names (order + 1) (a.attempt (addRule r order)) rs
      | some i =>
          if i.name ∈ names then
            addRules names order (a.refuse [⟨i.loc, .duplicateRule i.name⟩]) rs
          else
            addRules (i.name :: names) (order + 1) (a.attempt (addRule r order)) rs

end RuleSet

end TermRules

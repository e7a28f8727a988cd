import TermRules.RuleSet.Rules
import TermRules.RuleSet.Types

/-!
# Analysing definitions

Definitions enter a rule set in six rounds: type names, variants, term
declarations, external functions, templates and rules, so that a definition may
use names that are defined later.
-/

namespace TermRules

namespace Definition

def type? : Definition → Option TypeDef
  | .type d => some d
  | _ => none

def decl? : Definition → Option TermDecl
  | .decl d => some d
  | _ => none

def external? : Definition → Option ExternalDef
  | .external d => some d
  | _ => none

def template? : Definition → Option Template
  | .template d => some d
  | _ => none

def rule? : Definition → Option Rule
  | .rule d => some d
  | _ => none

end Definition

namespace Analysis

def markRules (a : Analysis) (rules : List Rule) : Analysis :=
  { a with ruleSet := rules.foldl RuleSet.markInternal a.ruleSet }

def run (a : Analysis) (defs : List Definition) : Analysis :=
  let rules := defs.filterMap Definition.rule?
  let a := RuleSet.addTypes a (defs.filterMap Definition.type?)
  let a := (defs.filterMap Definition.decl?).foldl (fun a d => a.attempt (RuleSet.addDecl d)) a
  let a :=
    (defs.filterMap Definition.external?).foldl (fun a d => a.attempt (RuleSet.addExternal d)) a
  let a :=
    (defs.filterMap Definition.template?).foldl (fun a d => a.attempt (RuleSet.addTemplate d)) a
  RuleSet.addRules [] 0 (a.markRules rules) rules

end Analysis

/-- The rule set after the definitions, and the errors in the order in which they are found. -/
def RuleSet.analyze (rs : RuleSet) (defs : List Definition) : RuleSet × List SemanticError :=
  let a := Analysis.run ⟨rs, []⟩ defs
  (a.ruleSet, a.errors)

end TermRules

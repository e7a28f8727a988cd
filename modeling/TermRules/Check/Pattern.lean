import TermRules.Check.Scope
import TermRules.Substitution

/-!
# Checking patterns

A pattern is checked against the type of the value that it meets, from left to
right. A term with a template is replaced by the instantiated template and
checked in its place. The terms under expansion are remembered, and none is
expanded inside its own expansion, so expansions nest no deeper than there are
terms.
-/

namespace TermRules

namespace Check

mutual

/-- Checks a pattern; `expand` takes over at a term that has a template. -/
def patternWith (rs : RuleSet)
    (expand : Loc → TermId → Pattern → TypeId → Check CheckedPattern) :
    Pattern → TypeId → Check CheckedPattern
  | .wildcard loc, type => return .wildcard ⟨type, loc⟩
  | .bool loc value, type => do
      ensureType rs loc .boolConstant boolType type
      return .bool ⟨type, loc⟩ value
  | .int loc value, type => do
      ensurePrimitive rs loc type
      return .int ⟨type, loc⟩ value
  | .var loc name, type => do
      let scope ← get
      match scope.find? name with
      | some v =>
          ensureType rs loc (.variable name) (scope.typeOf v) type
          return .equal ⟨type, loc⟩ v
      | none => return .bind ⟨type, loc⟩ (← bindVar name type)
  | .bind loc name sub, type => do
      let scope ← get
      require (scope.find? name).isNone loc (.alreadyBound name)
      let v ← bindVar name type
      return .bindAs ⟨type, loc⟩ v (← patternWith rs expand sub type)
  | .all loc parts, type =>
      return .all ⟨type, loc⟩ (← patternsWith rs expand parts (parts.map fun _ => type))
  | .term loc name args, type => do
      let id ← findTerm rs loc name
      let term := rs.termInfo id
      ensureType rs loc (.term term.name) term.ret type
      ensureCount loc term args.length
      match term.extractor with
      | .missing => failAt loc (.noExtractor term.name)
      | .template index _ =>
          expand loc id ((rs.templates[index]?.getD default).instantiate args) type
      | .variant _ => return .variant ⟨type, loc⟩ id (← patternsWith rs expand args term.args)
      | .external .. =>
          return .extractor ⟨type, loc⟩ id (← patternsWith rs expand args term.args)

def patternsWith (rs : RuleSet)
    (expand : Loc → TermId → Pattern → TypeId → Check CheckedPattern) :
    List Pattern → List TypeId → Check (List CheckedPattern)
  | p :: ps, type :: types => do
      let first ← patternWith rs expand p type
      let rest ← patternsWith rs expand ps types
      return first :: rest
  | _, _ => return []

end

def refuseExpansion (rs : RuleSet) (loc : Loc) (id : TermId) : Check CheckedPattern :=
  failAt loc (.recursiveExtractor (rs.termInfo id).name)

/-- Checks a pattern inside the expansion of the terms `expanding`, with room for as many
expansions more as the first number says. -/
def patternInside (rs : RuleSet) : Nat → List TermId → Pattern → TypeId → Check CheckedPattern
  | 0, _ => patternWith rs fun loc id _ _ => refuseExpansion rs loc id
  | room + 1, expanding =>
      patternWith rs fun loc id expanded type =>
        if id ∈ expanding then refuseExpansion rs loc id
        else patternInside rs room (id :: expanding) expanded type

def pattern (rs : RuleSet) (p : Pattern) (type : TypeId) : Check CheckedPattern :=
  patternInside rs rs.terms.size [] p type

end Check

end TermRules

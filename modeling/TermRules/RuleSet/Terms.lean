import TermRules.RuleSet.Attempt

/-!
# Entering terms

Declarations enter the terms. External functions and templates then say how a
declared term is built or matched, each at most once.
-/

namespace TermRules

namespace RuleSet

def addDecl (d : TermDecl) (rs : RuleSet) : Attempt := do
  let (args, ret) ← bothOrErrors (rs.resolveTypes d.args) (rs.resolveType d.ret)
  let term : TermInfo := {
    name := d.term.name
    args, ret
    isPure := d.isPure
    isPartial := d.isPartial
    loc := d.loc
    constructor := .missing
    extractor := .missing }
  match rs.terms.insert? term with
  | some terms => return { rs with terms }
  | none => throw [⟨d.term.loc, .duplicateTerm d.term.name⟩]

def setConstructor (rs : RuleSet) (id : TermId) (c : Constructor) : RuleSet :=
  { rs with terms := rs.terms.modify id fun t => { t with constructor := c } }

def setExtractor (rs : RuleSet) (id : TermId) (e : Extractor) : RuleSet :=
  { rs with terms := rs.terms.modify id fun t => { t with extractor := e } }

def addExternal (d : ExternalDef) (rs : RuleSet) : Attempt :=
  match rs.terms.find? d.term.name with
  | none => .error [⟨d.term.loc, .undeclaredExternal d.term.name⟩]
  | some id =>
      let term := rs.termInfo id
      match d.kind with
      | .constructor =>
          if term.constructor = .missing then
            .ok (rs.setConstructor id (.external d.function.name d.loc))
          else .error [⟨d.loc, .secondConstructor term.name⟩]
      | .extractor infallible =>
          if term.extractor = .missing then
            .ok (rs.setExtractor id (.external d.function.name infallible d.loc))
          else .error [⟨d.loc, .secondExtractor term.name⟩]

def addTemplate (d : Template) (rs : RuleSet) : Attempt :=
  match rs.terms.find? d.term.name with
  | none => .error [⟨d.term.loc, .undeclaredTemplate d.term.name⟩]
  | some id =>
      let term := rs.termInfo id
      if term.extractor ≠ .missing then .error [⟨d.loc, .secondExtractor term.name⟩]
      else if d.params.length ≠ term.args.length then
        .error [⟨d.loc, .parameterCount term.name d.params.length term.args.length⟩]
      else
        let rs' := rs.setExtractor id (.template rs.templates.size d.loc)
        .ok { rs' with templates := rs.templates.push d }

end RuleSet

end TermRules

import Mathlib.Logic.Relation
import TermRules.Proofs.Tables
import TermRules.RuleSet.Analysis

/-!
# Analysis as a sequence of steps

Analysis changes a rule set in seven ways only, and refused definitions change
nothing. An invariant of rule sets therefore needs one argument for each way.
-/

namespace TermRules.RuleSet

theorem termInfo_of_get? {rs : RuleSet} {id : TermId} {info : TermInfo}
    (h : rs.terms.get? id = some info) : rs.termInfo id = info := by
  simp only [termInfo, h, Option.getD_some]

theorem typeInfo_of_get? {rs : RuleSet} {id : TypeId} {info : TypeInfo}
    (h : rs.types.get? id = some info) : rs.typeInfo id = info := by
  simp only [typeInfo, h, Option.getD_some]

def IsMarked (rs : RuleSet) (r : Rule) : Prop :=
  ∀ loc name args id, r.pattern = .term loc name args → rs.terms.find? name = some id →
    (rs.termInfo id).constructor ≠ .missing

inductive Step (rs : RuleSet) : RuleSet → Prop
  | type (d : TypeDef) {types : Table TypeInfo}
      (inserted : rs.types.insert? (TypeInfo.ofDef d) = some types) :
      Step rs { rs with types }
  | variant {type : TypeId} {info : VariantInfo} {term : TermInfo} {terms : Table TermInfo}
      (isEnum : (rs.typeInfo type).shape.isEnum = true)
      (constructor_eq : term.constructor =
        .variant ⟨type, (rs.typeInfo type).shape.variants.size⟩)
      (extractor_eq : term.extractor = .variant ⟨type, (rs.typeInfo type).shape.variants.size⟩)
      (ret_eq : term.ret = type) (args_eq : term.args = info.fields.map FieldInfo.type)
      (name_eq : term.name = rs.typeName type ++ Byte.dot :: info.name)
      (term_eq : info.term = rs.terms.size)
      (inserted : rs.terms.insert? term = some terms) :
      Step rs { rs with
        terms
        types := rs.types.modify type fun t => { t with shape := t.shape.addVariant info } }
  | decl {term : TermInfo} {terms : Table TermInfo}
      (constructor_eq : term.constructor = .missing) (extractor_eq : term.extractor = .missing)
      (inserted : rs.terms.insert? term = some terms) :
      Step rs { rs with terms }
  | constructor {id : TermId} {info : TermInfo} {c : Constructor}
      (found : rs.terms.get? id = some info) (missing : info.constructor = .missing)
      (present : c ≠ .missing) (noVariant : ∀ ref, c ≠ .variant ref) :
      Step rs (rs.setConstructor id c)
  | extractor {id : TermId} {info : TermInfo} {e : Extractor}
      (found : rs.terms.get? id = some info) (missing : info.extractor = .missing)
      (present : e ≠ .missing) (noVariant : ∀ ref, e ≠ .variant ref)
      (noTemplate : ∀ index loc, e ≠ .template index loc) :
      Step rs (rs.setExtractor id e)
  | template {id : TermId} {info : TermInfo} (t : Template)
      (found : rs.terms.get? id = some info) (missing : info.extractor = .missing)
      (name_eq : t.term.name = info.name) (params : t.params.length = info.args.length) :
      Step rs { rs.setExtractor id (.template rs.templates.size t.loc) with
        templates := rs.templates.push t }
  | rule {r : Rule} {order : Nat} {checked : CheckedRule} (marked : rs.IsMarked r)
      (accepted : Check.rule rs r order = .ok checked) :
      Step rs { rs with rules := rs.rules.push checked }

abbrev Steps : RuleSet → RuleSet → Prop := Relation.ReflTransGen Step

end TermRules.RuleSet

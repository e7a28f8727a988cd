import TermRules.RuleSet.Attempt

/-!
# Entering types

The names of all types are entered before any variant, so that a field may have
a type that is defined later.
-/

namespace TermRules

def TypeInfo.ofDef (d : TypeDef) : TypeInfo where
  name := d.name.name
  isExternal := d.isExternal
  loc := d.loc
  shape :=
    match d.body with
    | .primitive spelling => .primitive spelling.name
    | .enum _ => .enum #[]

namespace RuleSet

def addTypeNames : Analysis → List TypeDef → Analysis × List (TypeId × TypeDef)
  | a, [] => (a, [])
  | a, d :: ds =>
      match a.ruleSet.types.insert? (TypeInfo.ofDef d) with
      | some types =>
          let (a', added) := addTypeNames { a with ruleSet := { a.ruleSet with types } } ds
          (a', (a.ruleSet.types.size, d) :: added)
      | none => addTypeNames (a.refuse [⟨d.name.loc, .duplicateType d.name.name⟩]) ds

/-- Enters a variant and its term, whose name is the type's and the variant's with a dot between. -/
def addVariant (type : TypeId) (typeName : Bytes) (v : Variant) (rs : RuleSet) : Attempt := do
  let types ← rs.resolveTypes (v.fields.map Field.type)
  let ref := ⟨type, (rs.typeInfo type).shape.variants.size⟩
  let term : TermInfo := {
    name := typeName ++ Byte.dot :: v.name.name
    args := types
    ret := type
    isPure := true
    isPartial := false
    loc := v.name.loc
    constructor := .variant ref
    extractor := .variant ref }
  let info : VariantInfo := {
    name := v.name.name
    fields := (v.fields.zip types).map fun (f, t) => ⟨f.name.name, t⟩
    term := rs.terms.size }
  match rs.terms.insert? term with
  | none => throw [⟨v.name.loc, .duplicateTerm term.name⟩]
  | some terms =>
      return { rs with
        terms
        types := rs.types.modify type fun t => { t with shape := t.shape.addVariant info } }

/-- Enters the variants of a type; each name counts once, even when its variant is refused. -/
def addVariants (type : TypeId) (typeName : Bytes) :
    List Bytes → Analysis → List Variant → Analysis
  | _, a, [] => a
  | seen, a, v :: vs =>
      if v.name.name ∈ seen then
        addVariants type typeName seen
          (a.refuse [⟨v.name.loc, .duplicateVariant v.name.name typeName⟩]) vs
      else
        addVariants type typeName (v.name.name :: seen) (a.attempt (addVariant type typeName v)) vs

def addBody (a : Analysis) : TypeId × TypeDef → Analysis
  | (id, d) =>
      match d.body with
      | .primitive _ => a
      | .enum variants => addVariants id d.name.name [] a variants

def addTypes (a : Analysis) (ds : List TypeDef) : Analysis :=
  let (a', added) := addTypeNames a ds
  added.foldl addBody a'

end RuleSet

end TermRules

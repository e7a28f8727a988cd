import TermRules.Checked
import TermRules.Definition

/-!
# Rule sets

A rule set holds all types, terms, templates and checked rules known so far.
`rulesFor` lists the rules of a term in the order in which they are tried.
-/

namespace TermRules

def insertBefore (le : α → α → Bool) (a : α) : List α → List α
  | [] => [a]
  | b :: bs => if le a b then a :: b :: bs else b :: insertBefore le a bs

/-- Sorts a list; elements that may precede each other keep their order. -/
def sortStably (le : α → α → Bool) (as : List α) : List α := as.foldr (insertBefore le) []

structure RuleSet where
  types : Table TypeInfo
  terms : Table TermInfo
  templates : Array Template
  rules : Array CheckedRule

namespace RuleSet

def empty : RuleSet := ⟨⟨#[boolInfo]⟩, .empty, #[], #[]⟩

/-- The entry of a type; a number beyond the table has a blank entry. -/
def typeInfo (rs : RuleSet) (id : TypeId) : TypeInfo := (rs.types.get? id).getD default

def termInfo (rs : RuleSet) (id : TermId) : TermInfo := (rs.terms.get? id).getD default

def typeName (rs : RuleSet) (id : TypeId) : Bytes := (rs.typeInfo id).name

def variantInfo (rs : RuleSet) (ref : VariantRef) : VariantInfo :=
  ((rs.typeInfo ref.type).shape.variants[ref.index]?).getD default

def numberedRulesFor (rs : RuleSet) (term : TermId) : List (CheckedRule × Nat) :=
  sortStably (fun a b => a.1.precedes b.1) (rs.rules.toList.zipIdx.filter (·.1.root = term))

def rulesFor (rs : RuleSet) (term : TermId) : List CheckedRule :=
  (rs.numberedRulesFor term).map Prod.fst

end RuleSet

end TermRules

import TermRules.Check.Error
import TermRules.RuleSet

/-!
# Scopes

A scope numbers the variables of a rule in the order in which they are bound and
knows which of them are visible. A later binding of a name hides an earlier one.
A check works in a scope and stops at its first error.
-/

namespace TermRules

structure Scope where
  vars : Array VarInfo
  visible : List (Bytes × VarId)
deriving DecidableEq, Repr

namespace Scope

def empty : Scope := ⟨#[], []⟩

def find? (s : Scope) (name : Bytes) : Option VarId := s.visible.lookup name

def typeOf (s : Scope) (v : VarId) : TypeId := ((s.vars[v]?).getD default).type

def bind (s : Scope) (name : Bytes) (type : TypeId) : Scope :=
  ⟨s.vars.push ⟨name, type⟩, (name, s.vars.size) :: s.visible⟩

end Scope

abbrev Check := EStateM SemanticError Scope

namespace Check

def failAt (loc : Loc) (fault : SemanticFault) : Check α := throw ⟨loc, fault⟩

def require (condition : Bool) (loc : Loc) (fault : SemanticFault) : Check Unit := do
  unless condition do failAt loc fault

def bindVar (name : Bytes) (type : TypeId) : Check VarId := do
  let scope ← get
  set (scope.bind name type)
  return scope.vars.size

def ensureType (rs : RuleSet) (loc : Loc) (subject : Subject) (found expected : TypeId) :
    Check Unit :=
  require (found = expected) loc
    (.typeMismatch subject (rs.typeName found) (rs.typeName expected))

/-- No expectation accepts every type. -/
def ensureTypeIf (rs : RuleSet) (loc : Loc) (subject : Subject) (found : TypeId) :
    Option TypeId → Check Unit
  | none => return
  | some expected => ensureType rs loc subject found expected

def findTerm (rs : RuleSet) (loc : Loc) (name : Bytes) : Check TermId :=
  match rs.terms.find? name with
  | some id => return id
  | none => failAt loc (.undefinedTerm name)

def ensureCount (loc : Loc) (term : TermInfo) (found : Nat) : Check Unit :=
  require (found = term.args.length) loc (.argumentCount term.name term.args.length found)

def ensurePrimitive (rs : RuleSet) (loc : Loc) (type : TypeId) : Check Unit :=
  require (rs.typeInfo type).shape.isPrimitive loc (.integerAsType (rs.typeName type))

end Check

end TermRules

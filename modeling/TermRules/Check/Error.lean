import TermRules.Diagnostic
import TermRules.IntLiteral

/-!
# Semantic errors

Why a definition is refused. Types, terms and variables appear by their names.
-/

namespace TermRules

inductive Subject
  | boolConstant
  | variable (name : Bytes)
  | term (name : Bytes)
deriving DecidableEq, Repr

def Subject.text : Subject → Bytes
  | .boolConstant => ascii "boolean constant"
  | .variable name => ascii "variable " ++ quoted name
  | .term name => ascii "term " ++ quoted name

inductive SemanticFault
  | undefinedType (name : Bytes)
  | undefinedTerm (name : Bytes)
  | duplicateType (name : Bytes)
  | duplicateVariant (name type : Bytes)
  | duplicateTerm (name : Bytes)
  | duplicateRule (name : Bytes)
  | undeclaredExternal (term : Bytes)
  | undeclaredTemplate (term : Bytes)
  | secondConstructor (term : Bytes)
  | secondExtractor (term : Bytes)
  | parameterCount (term : Bytes) (params args : Nat)
  | rootNotTerm
  | rootIsVariant (term : Bytes)
  | rootIsExternal (term : Bytes)
  | argumentCount (term : Bytes) (expected found : Nat)
  | typeMismatch (subject : Subject) (found expected : Bytes)
  | integerAsType (type : Bytes)
  | untypedInteger (value : IntLiteral)
  | alreadyBound (name : Bytes)
  | unbound (name : Bytes)
  | noExtractor (term : Bytes)
  | noConstructor (term : Bytes)
  | recursiveExtractor (term : Bytes)
deriving DecidableEq, Repr

namespace SemanticFault

def termText (name : Bytes) : Bytes := ascii "term " ++ quoted name

def message : SemanticFault → Bytes
  | undefinedType name => ascii "undefined type " ++ quoted name
  | undefinedTerm name => ascii "undefined term " ++ quoted name
  | duplicateType name => ascii "duplicate type " ++ quoted name
  | duplicateVariant name type =>
      ascii "duplicate variant " ++ quoted name ++ ascii " in type " ++ quoted type
  | duplicateTerm name => ascii "duplicate term " ++ quoted name
  | duplicateRule name => ascii "duplicate rule name " ++ quoted name
  | undeclaredExternal term => ascii "extern declared for undeclared term " ++ quoted term
  | undeclaredTemplate term => ascii "extractor declared for undeclared term " ++ quoted term
  | secondConstructor term => termText term ++ ascii " already has a constructor"
  | secondExtractor term => termText term ++ ascii " already has an extractor"
  | parameterCount term params args =>
      ascii "extractor " ++ quoted term ++ ascii " takes " ++ decimal params ++
        ascii " parameters but the term has " ++ decimal args ++ ascii " arguments"
  | rootNotTerm => ascii "rule pattern must be a term application"
  | rootIsVariant term => ascii "cannot define rules for enum variant " ++ quoted term
  | rootIsExternal term =>
      termText term ++ ascii " has an extern constructor and cannot have rules"
  | argumentCount term expected found =>
      termText term ++ ascii " expects " ++ decimal expected ++ ascii " arguments, got " ++
        decimal found
  | typeMismatch subject found expected =>
      subject.text ++ ascii " has type " ++ quoted found ++ ascii " but type " ++
        quoted expected ++ ascii " is expected"
  | integerAsType type =>
      ascii "integer constant used where type " ++ quoted type ++ ascii " is expected"
  | untypedInteger value => ascii "cannot infer the type of integer constant " ++ value.text
  | alreadyBound name => ascii "variable " ++ quoted name ++ ascii " is already bound"
  | unbound name => ascii "unbound variable " ++ quoted name
  | noExtractor term =>
      termText term ++ ascii " has no extractor and cannot be used in a pattern"
  | noConstructor term =>
      termText term ++ ascii " has no constructor and cannot be used in an expression"
  | recursiveExtractor term => ascii "recursive expansion of extractor " ++ quoted term

end SemanticFault

structure SemanticError where
  loc : Loc
  fault : SemanticFault
deriving DecidableEq, Repr

def SemanticError.diagnostic (e : SemanticError) : Diagnostic :=
  Diagnostic.error e.loc e.fault.message

end TermRules

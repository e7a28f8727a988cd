import TermRules.IntLiteral
import TermRules.Location

/-!
# The rule language

A rule file is a list of definitions: types, term declarations, external
functions for terms, extractor templates and rules. Patterns stand on the left
of a rule and expressions on the right. Every part keeps the place of its first
token.
-/

namespace TermRules

structure Ident where
  name : Bytes
  loc : Loc
deriving DecidableEq, Repr, Inhabited

/-- A variable matches anything on its first use and its own value on later ones. -/
inductive Pattern
  | wildcard (loc : Loc)
  | var (loc : Loc) (name : Bytes)
  | bind (loc : Loc) (name : Bytes) (sub : Pattern)
  | int (loc : Loc) (value : IntLiteral)
  | bool (loc : Loc) (value : Bool)
  | term (loc : Loc) (name : Bytes) (args : List Pattern)
  | all (loc : Loc) (parts : List Pattern)
deriving Repr, Inhabited

def Pattern.loc : Pattern → Loc
  | .wildcard loc | .var loc _ | .bind loc _ _ | .int loc _ | .bool loc _ | .term loc _ _
  | .all loc _ => loc

structure Binding (ε : Type) where
  var : Ident
  type : Ident
  value : ε
deriving Repr

inductive Expr
  | var (loc : Loc) (name : Bytes)
  | int (loc : Loc) (value : IntLiteral)
  | bool (loc : Loc) (value : Bool)
  | term (loc : Loc) (name : Bytes) (args : List Expr)
  | letIn (loc : Loc) (bindings : List (Binding Expr)) (body : Expr)
deriving Repr, Inhabited

structure Field where
  name : Ident
  type : Ident
deriving DecidableEq, Repr

structure Variant where
  name : Ident
  fields : List Field
deriving DecidableEq, Repr

inductive TypeBody
  | primitive (spelling : Ident)
  | enum (variants : List Variant)
deriving Repr

structure TypeDef where
  name : Ident
  isExternal : Bool
  noDebug : Bool
  body : TypeBody
  loc : Loc
deriving Repr

structure TermDecl where
  term : Ident
  args : List Ident
  ret : Ident
  isPure : Bool
  isPartial : Bool
  loc : Loc
deriving Repr

inductive ExternalKind
  | constructor
  | extractor (infallible : Bool)
deriving DecidableEq, Repr

structure ExternalDef where
  kind : ExternalKind
  term : Ident
  function : Ident
  loc : Loc
deriving Repr

/-- A pattern with parameters, which stands for the extractor of its term. -/
structure Template where
  term : Ident
  params : List Ident
  body : Pattern
  loc : Loc
deriving Repr, Inhabited

structure Guard where
  pattern : Pattern
  value : Expr
  loc : Loc
deriving Repr

structure Rule where
  name : Option Ident
  priority : Int64
  pattern : Pattern
  guards : List Guard
  result : Expr
  loc : Loc
deriving Repr

inductive Definition
  | type (d : TypeDef)
  | decl (d : TermDecl)
  | external (d : ExternalDef)
  | template (d : Template)
  | rule (d : Rule)
deriving Repr

end TermRules

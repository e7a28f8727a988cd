import TermRules.Env.Entry
import TermRules.IntLiteral

/-!
# Checked rules

Checked patterns and expressions know their types, name terms and variables by
number and hold no template. The variables of a rule are numbered in the order
in which they are bound.
-/

namespace TermRules

structure Site where
  type : TypeId
  loc : Loc
deriving DecidableEq, Repr, Inhabited

inductive CheckedPattern
  | wildcard (site : Site)
  | bind (site : Site) (var : VarId)
  | bindAs (site : Site) (var : VarId) (sub : CheckedPattern)
  | equal (site : Site) (var : VarId)
  | int (site : Site) (value : IntLiteral)
  | bool (site : Site) (value : Bool)
  | variant (site : Site) (term : TermId) (args : List CheckedPattern)
  | extractor (site : Site) (term : TermId) (args : List CheckedPattern)
  | all (site : Site) (parts : List CheckedPattern)
deriving Repr, Inhabited

def CheckedPattern.site : CheckedPattern → Site
  | .wildcard s | .bind s _ | .bindAs s _ _ | .equal s _ | .int s _ | .bool s _
  | .variant s _ _ | .extractor s _ _ | .all s _ => s

structure CheckedBinding (ε : Type) where
  var : VarId
  value : ε
deriving Repr

inductive CheckedExpr
  | var (site : Site) (var : VarId)
  | int (site : Site) (value : IntLiteral)
  | bool (site : Site) (value : Bool)
  | call (site : Site) (term : TermId) (args : List CheckedExpr)
  | letIn (site : Site) (bindings : List (CheckedBinding CheckedExpr)) (body : CheckedExpr)
deriving Repr, Inhabited

def CheckedExpr.site : CheckedExpr → Site
  | .var s _ | .int s _ | .bool s _ | .call s _ _ | .letIn s _ _ => s

def CheckedExpr.type (e : CheckedExpr) : TypeId := e.site.type

structure CheckedGuard where
  pattern : CheckedPattern
  value : CheckedExpr
deriving Repr

structure VarInfo where
  name : Bytes
  type : TypeId
deriving DecidableEq, Repr, Inhabited

structure CheckedRule where
  root : TermId
  name : Option Bytes
  priority : Int64
  order : Nat
  args : List CheckedPattern
  guards : List CheckedGuard
  result : CheckedExpr
  vars : Array VarInfo
  loc : Loc
deriving Repr

/-- Higher priorities come first, and earlier rules among equal priorities. -/
def CheckedRule.precedes (a b : CheckedRule) : Bool :=
  b.priority < a.priority || a.priority == b.priority && a.order ≤ b.order

end TermRules

import TermRules.Zig.Name

/-!
# Statements of generated functions

A function tries one block after the other. A block is a straight line of
statements; a statement that fails leaves the block, and one that returns leaves
the function. Values refer to terms, variants and types by number, and only
their text uses names.
-/

namespace TermRules.Zig

inductive Value
  | param (index : Nat)
  | temp (index : Nat)
  | int (value : IntLiteral)
  | bool (value : Bool)
  | payload (base : Value) (ref : VariantRef) (field : Nat)
  | component (base : Value) (index : Nat)
  | variant (ref : VariantRef) (args : List Value)
  | construct (term : TermId) (args : List Value)
  | contextBuild (term : TermId) (args : List Value)
  | contextMatch (term : TermId) (arg : Value)
  | undefined
deriving Repr, Inhabited

inductive Root
  | param (index : Nat)
  | temp (index : Nat)
deriving DecidableEq, Repr

def Value.root? : Value → Option Root
  | .param i => some (.param i)
  | .temp i => some (.temp i)
  | .payload base _ _ => base.root?
  | .component base _ => base.root?
  | _ => none

inductive Condition
  | differ (a b : Value)
  | differDeeply (a b : Value)
  | otherTag (value : Value) (ref : VariantRef)
  | isTrue (value : Value)
  | isFalse (value : Value)
deriving Repr

inductive Statement
  | const (temp : Nat) (type : Option TypeId) (value : Value) (orBreak : Bool)
  | breakIf (condition : Condition)
  | discard (value : Value)
  | ret (value : Value)
deriving Repr

def Statement.breaks : Statement → Bool
  | .const _ _ _ orBreak => orBreak
  | .breakIf _ => true
  | _ => false

structure Block where
  index : Nat
  ruleName : Option Bytes
  body : List Statement
deriving Repr

def Block.breaks (b : Block) : Bool := b.body.any Statement.breaks

structure Function where
  term : TermId
  blocks : List Block
  fallsThrough : Bool
  usesContext : Bool
  usedParams : List Nat
deriving Repr

end TermRules.Zig

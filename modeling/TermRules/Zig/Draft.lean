import TermRules.Zig.Statement

/-!
# Functions under construction

A draft collects the statements of a rule and knows what its variables stand
for, which locals it has, and what has been read so far.
-/

namespace TermRules.Zig

/-- The state of a function under construction. The body, the variables and the locals are those
of the current rule, the rest belongs to the whole function. -/
structure Draft where
  body : List Statement
  vars : List (VarId × Value)
  locals : List Nat
  usedTemps : List Nat
  usedParams : List Nat
  usesContext : Bool
  nextTemp : Nat
deriving Repr

def Draft.empty : Draft := ⟨[], [], [], [], [], false, 0⟩

abbrev Lower := StateM Draft

namespace Lower

def emit (t : Statement) : Lower Unit := modify fun d => { d with body := d.body ++ [t] }

def use (v : Value) : Lower Value := do
  match v.root? with
  | some (.param i) => modify fun d => { d with usedParams := i :: d.usedParams }
  | some (.temp i) => modify fun d => { d with usedTemps := i :: d.usedTemps }
  | none => pure ()
  return v

def useContext : Lower Unit := modify fun d => { d with usesContext := true }

def setVar (var : VarId) (v : Value) : Lower Unit :=
  modify fun d => { d with vars := (var, v) :: d.vars }

def getVar (var : VarId) : Lower Value := do
  return ((← get).vars.lookup var).getD .undefined

def newLocal (type : Option TypeId) (v : Value) (orBreak : Bool) : Lower Value := do
  let temp := (← get).nextTemp
  emit (.const temp type v orBreak)
  modify fun d => { d with locals := d.locals ++ [temp], nextTemp := temp + 1 }
  return .temp temp

end Lower

end TermRules.Zig

import Mathlib.Tactic.Ring
import TermRules.Zig.Lowering

/-!
# Calls in rules

The calls of a function are counted in emitted statements and in checked rules.
An expression keeps some of its calls in locals and leaves the others in the text
of its value. How often a variable is written is known from behind: it is what
the guards that follow and the result demand.
-/

namespace TermRules

inductive Callee
  | constructor (term : TermId)
  | extractor (term : TermId)
deriving DecidableEq, Repr

namespace Zig

section Emitted

variable (c : Callee)

mutual

def Value.calls : Value → Nat
  | .payload base _ _ => base.calls
  | .component base _ => base.calls
  | .variant _ args => callsAll args
  | .construct t args | .contextBuild t args =>
      (if c = .constructor t then 1 else 0) + callsAll args
  | .contextMatch t arg => (if c = .extractor t then 1 else 0) + arg.calls
  | _ => 0

def Value.callsAll : List Value → Nat
  | [] => 0
  | v :: vs => v.calls + callsAll vs

end

def Condition.calls : Condition → Nat
  | .differ a b | .differDeeply a b => a.calls c + b.calls c
  | .otherTag v _ | .isTrue v | .isFalse v => v.calls c

def Statement.calls : Statement → Nat
  | .const _ _ v _ => v.calls c
  | .breakIf condition => condition.calls c
  | .discard v => v.calls c
  | .ret v => v.calls c

def Block.calls (b : Block) : Nat := (b.body.map (Statement.calls c)).sum

end Emitted

end Zig

section Rules

variable (rs : RuleSet) (c : Callee)

def RuleSet.isVariantTerm (t : TermId) : Bool :=
  match (rs.termInfo t).constructor with
  | .variant _ => true
  | _ => false

mutual

def CheckedPattern.calls : CheckedPattern → Nat
  | .bindAs _ _ sub => sub.calls
  | .variant _ _ args => callsAll args
  | .extractor _ t args => (if c = .extractor t then 1 else 0) + callsAll args
  | .all _ parts => callsAll parts
  | _ => 0

def CheckedPattern.callsAll : List CheckedPattern → Nat
  | [] => 0
  | p :: ps => p.calls + callsAll ps

end

mutual

def CheckedExpr.calls : CheckedExpr → Nat
  | .call _ t args =>
      (if rs.isVariantTerm t then 0 else if c = .constructor t then 1 else 0) + callsAll args
  | .letIn _ bs body => callsIn bs + body.calls
  | _ => 0

def CheckedExpr.callsAll : List CheckedExpr → Nat
  | [] => 0
  | e :: es => e.calls + callsAll es

def CheckedExpr.callsIn : List (CheckedBinding CheckedExpr) → Nat
  | [] => 0
  | ⟨_, value⟩ :: bs => value.calls + callsIn bs

end

def CheckedGuard.calls (g : CheckedGuard) : Nat := g.value.calls rs c + g.pattern.calls c

def CheckedRule.calls (r : CheckedRule) : Nat :=
  CheckedPattern.callsAll c r.args + (r.guards.map (CheckedGuard.calls rs c)).sum +
    r.result.calls rs c

end Rules

structure Measure where
  onVar : VarId → Nat
  onCall : TermId → Nat

namespace Measure

def ofCallee (c : Callee) : Measure := ⟨fun _ => 0, fun t => if c = .constructor t then 1 else 0⟩

def ofVar (x : VarId) : Measure := ⟨fun y => if y = x then 1 else 0, fun _ => 0⟩

end Measure

section Kept

variable (rs : RuleSet)

def RuleSet.isKept (t : TermId) : Bool := !rs.isVariantTerm t && (rs.termInfo t).isPartial

def RuleSet.onCall (m : Measure) (t : TermId) : Nat := if rs.isVariantTerm t then 0 else m.onCall t

variable (m : Measure)

mutual

/-- What stands in the text of the value and is written as often as this is. -/
def CheckedExpr.inlined : CheckedExpr → Nat
  | .var _ x => m.onVar x
  | .call _ t args => if rs.isKept t then 0 else rs.onCall m t + inlinedAll args
  | .letIn _ _ body => body.inlined
  | _ => 0

def CheckedExpr.inlinedAll : List CheckedExpr → Nat
  | [] => 0
  | e :: es => e.inlined + inlinedAll es

end

mutual

/-- What stands in the locals of the expression and is written once. -/
def CheckedExpr.kept : CheckedExpr → Nat
  | .call _ t args =>
      keptAll args +
        if rs.isKept t then rs.onCall m t + CheckedExpr.inlinedAll rs m args else 0
  | .letIn _ bs body => keptIn bs + body.kept
  | _ => 0

def CheckedExpr.keptAll : List CheckedExpr → Nat
  | [] => 0
  | e :: es => e.kept + keptAll es

def CheckedExpr.keptIn : List (CheckedBinding CheckedExpr) → Nat
  | [] => 0
  | ⟨_, value⟩ :: bs => value.kept + value.inlined rs m + keptIn bs

end

mutual

theorem CheckedExpr.calls_eq (c : Callee) : ∀ (e : CheckedExpr),
    e.calls rs c = e.kept rs (.ofCallee c) + e.inlined rs (.ofCallee c)
  | .var _ _ => rfl
  | .int _ _ => rfl
  | .bool _ _ => rfl
  | .call _ t args => by
      rw [calls, kept, inlined, callsAll_eq c args, RuleSet.onCall]
      cases rs.isKept t <;> simp [Measure.ofCallee] <;> omega
  | .letIn _ bs body => by
      rw [calls, kept, inlined, callsIn_eq c bs, body.calls_eq c, Nat.add_assoc]

theorem CheckedExpr.callsAll_eq (c : Callee) : ∀ (es : List CheckedExpr),
    callsAll rs c es = keptAll rs (.ofCallee c) es + inlinedAll rs (.ofCallee c) es
  | [] => rfl
  | e :: es => by
      rw [callsAll, keptAll, inlinedAll, e.calls_eq c, callsAll_eq c es]
      omega

theorem CheckedExpr.callsIn_eq (c : Callee) : ∀ (bs : List (CheckedBinding CheckedExpr)),
    callsIn rs c bs = keptIn rs (.ofCallee c) bs
  | [] => rfl
  | ⟨_, value⟩ :: bs => by
      rw [callsIn, keptIn, value.calls_eq c, callsIn_eq c bs]

end

mutual

theorem CheckedExpr.inlined_extractor (t : TermId) : ∀ (e : CheckedExpr),
    e.inlined rs (.ofCallee (.extractor t)) = 0
  | .var _ _ => rfl
  | .int _ _ => rfl
  | .bool _ _ => rfl
  | .call _ u args => by
      rw [inlined, inlinedAll_extractor t args, RuleSet.onCall]
      simp [Measure.ofCallee]
  | .letIn _ _ body => by rw [inlined, body.inlined_extractor t]

theorem CheckedExpr.inlinedAll_extractor (t : TermId) : ∀ (es : List CheckedExpr),
    inlinedAll rs (.ofCallee (.extractor t)) es = 0
  | [] => rfl
  | e :: es => by rw [inlinedAll, e.inlined_extractor t, inlinedAll_extractor t es]

end

end Kept

section Demand

mutual

def CheckedPattern.equals (x : VarId) : CheckedPattern → Nat
  | .bindAs _ _ sub => sub.equals x
  | .equal _ y => if y = x then 1 else 0
  | .variant _ _ args | .extractor _ _ args => equalsAll x args
  | .all _ parts => equalsAll x parts
  | _ => 0

def CheckedPattern.equalsAll (x : VarId) : List CheckedPattern → Nat
  | [] => 0
  | p :: ps => p.equals x + equalsAll x ps

end

mutual

/-- How often the value is written that meets the pattern, if variables are written as often as
given behind the pattern. The results of an extractor are kept in a local. -/
def CheckedPattern.writes : CheckedPattern → (VarId → Nat) → Nat
  | .wildcard _, _ => 0
  | .bind _ x, D => D x
  | .bindAs _ x sub, D => D x + sub.equals x + sub.writes D
  | .variant _ _ args, D => 1 + writesAll args D
  | .all _ parts, D => writesAll parts D
  | _, _ => 1

def CheckedPattern.writesAll : List CheckedPattern → (VarId → Nat) → Nat
  | [], _ => 0
  | p :: ps, D => p.writes (fun x => D x + equalsAll x ps) + writesAll ps D

end

variable (rs : RuleSet)

def CheckedGuard.times (g : CheckedGuard) (D : VarId → Nat) : Nat :=
  if Zig.Lower.isWildcard g.pattern && Zig.Lower.isCall g.value then 1 else g.pattern.writes D

/-- How often a variable is written from the guard on. -/
def CheckedGuard.demand (g : CheckedGuard) (D : VarId → Nat) (x : VarId) : Nat :=
  D x + g.pattern.equals x + g.value.kept rs (.ofVar x) +
    g.times D * g.value.inlined rs (.ofVar x)

def CheckedGuard.demandAll (gs : List CheckedGuard) (D : VarId → Nat) : VarId → Nat :=
  gs.foldr (demand rs) D

def CheckedGuard.timesAll : List CheckedGuard → (VarId → Nat) → List (CheckedGuard × Nat)
  | [], _ => []
  | g :: gs, D => (g, g.times (demandAll rs gs D)) :: timesAll gs D

def CheckedRule.guardTimes (r : CheckedRule) : List (CheckedGuard × Nat) :=
  CheckedGuard.timesAll rs r.guards fun x =>
    r.result.kept rs (.ofVar x) + r.result.inlined rs (.ofVar x)

def CheckedRule.inlinedInGuards (r : CheckedRule) (t : TermId) : Nat :=
  (r.guards.map fun g => g.value.inlined rs (.ofCallee (.constructor t))).sum

def CheckedRule.writtenInGuards (r : CheckedRule) (t : TermId) : Nat :=
  ((r.guardTimes rs).map fun p => p.2 * p.1.value.inlined rs (.ofCallee (.constructor t))).sum

end Demand

end TermRules

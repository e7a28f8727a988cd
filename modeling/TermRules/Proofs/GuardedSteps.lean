import TermRules.Proofs.EmittedNames

/-!
# Guarded steps

The lowering reads types, terms and variants by number, variables by slot, and it
marks parameters and locals by position. In its guarded form each of these reads
fails if there is nothing to read. Code is legible if its text can be written
from what is there.
-/

namespace TermRules

def RuleSet.variant? (rs : RuleSet) (ref : VariantRef) : Option VariantInfo := do
  let type ← rs.types.get? ref.type
  type.shape.variants[ref.index]?

def Extractor.variant? : Extractor → Option VariantRef
  | .variant ref => some ref
  | _ => none

def Extractor.infallible? : Extractor → Option Bool
  | .external _ infallible _ => some infallible
  | _ => none

namespace Zig

/-- Steps of the lowering that may find nothing to read. -/
abbrev Guarded := StateT Draft Option

namespace Guarded

variable {α β : Type}

def lift (x : Lower α) : Guarded α := fun d => some (x.run d)

def found (a? : Option α) : Guarded α := fun d => a?.map fun a => (a, d)

def ensure (p : Prop) [Decidable p] : Guarded Unit := found (if p then some () else none)

section Rules

variable (rs : RuleSet) (arity slots : Nat)

def use (v : Value) : Guarded Value := do
  match v.root? with
  | some (.param i) => ensure (i < arity)
  | some (.temp i) => ensure (i ∈ (← get).locals)
  | none => pure ()
  lift (Lower.use v)

def setVar (var : VarId) (v : Value) : Guarded Unit := do
  ensure (var < slots)
  lift (Lower.setVar var v)

def getVar (var : VarId) : Guarded Value := do
  ensure (var < slots)
  found ((← get).vars.lookup var)

mutual

def matchPattern : CheckedPattern → Value → Guarded Unit
  | .wildcard _, _ => return
  | .bind _ var, v => setVar slots var v
  | .bindAs _ var sub, v => do
      setVar slots var v
      matchPattern sub v
  | .equal site var, v => do
      let bound ← getVar slots var
      let a ← use arity v
      let b ← use arity bound
      let type ← found (rs.types.get? site.type)
      lift (Lower.emit
        (.breakIf (if type.shape.isEnum then .differDeeply a b else .differ a b)))
  | .int _ n, v => do
      lift (Lower.emit (.breakIf (.differ (← use arity v) (.int n))))
  | .bool _ b, v => do
      let a ← use arity v
      lift (Lower.emit (.breakIf (if b then .isFalse a else .isTrue a)))
  | .variant _ term args, v => do
      let info ← found (rs.terms.get? term)
      let ref ← found info.extractor.variant?
      let variant ← found (rs.variant? ref)
      lift (Lower.emit (.breakIf (.otherTag (← use arity v) ref)))
      ensure (args.length ≤ variant.fields.length)
      matchAll args (Lower.payloads v ref args.length)
  | .extractor _ term args, v => do
      let info ← found (rs.terms.get? term)
      let infallible ← found info.extractor.infallible?
      lift Lower.useContext
      let call := Value.contextMatch term (← use arity v)
      if args.isEmpty then
        lift (Lower.emit (if infallible then .discard call else .breakIf (.isFalse call)))
      else
        let first ← lift (Lower.newLocal none call (!infallible))
        matchAll args (Lower.results first args.length)
  | .all _ parts, v => matchAll parts (parts.map fun _ => v)

def matchAll : List CheckedPattern → List Value → Guarded Unit
  | [], [] => return
  | p :: ps, v :: vs => do
      matchPattern p v
      matchAll ps vs
  | _, _ => found none

end

def build (term : TermId) (args : List Value) : Guarded Value := do
  let info ← found (rs.terms.get? term)
  match info.constructor with
  | .variant ref => do
      let variant ← found (rs.variant? ref)
      ensure (args.length ≤ variant.fields.length)
      return .variant ref args
  | .external .. => lift (Lower.call info (.contextBuild term args))
  | .internal _ => lift (Lower.call info (.construct term args))
  | .missing => found none

mutual

def expr : CheckedExpr → Guarded Value
  | .var _ var => getVar slots var
  | .int _ n => return .int n
  | .bool _ b => return .bool b
  | .call _ term args => do build rs term (← exprs args)
  | .letIn _ bs body => do
      bindings bs
      expr body

def exprs : List CheckedExpr → Guarded (List Value)
  | [] => return []
  | e :: es => do
      let v ← use arity (← expr e)
      let vs ← exprs es
      return v :: vs

def bindings : List (CheckedBinding CheckedExpr) → Guarded Unit
  | [] => return
  | ⟨var, value⟩ :: rest => do
      let v ← use arity (← expr value)
      let _ ← found (rs.types.get? value.type)
      setVar slots var (← lift (Lower.newLocal (some value.type) v false))
      bindings rest

end

def guard (g : CheckedGuard) : Guarded Unit := do
  let v ← expr rs arity slots g.value
  if Lower.isWildcard g.pattern && Lower.isCall g.value && !Lower.isTemp v then
    lift (Lower.emit (.discard (← use arity v)))
  else matchPattern rs arity slots g.pattern v

def guards : List CheckedGuard → Guarded Unit
  | [] => return
  | g :: gs => do
      guard rs arity slots g
      guards gs

end Rules

variable (rs : RuleSet) (arity : Nat)

def rule (r : CheckedRule) : Guarded Unit := do
  matchAll rs arity r.vars.size r.args ((List.range r.args.length).map .param)
  guards rs arity r.vars.size r.guards
  let result ← use arity (← expr rs arity r.vars.size r.result)
  lift Lower.discardUnused
  lift (Lower.emit (.ret result))

def block (index : Nat) (r : CheckedRule) : Guarded Block := do
  modify Draft.restart
  rule rs arity r
  return ⟨index, r.name, (← get).body⟩

def blocks : Nat → List CheckedRule → Guarded (List Block × Bool)
  | _, [] => return ([], true)
  | index, r :: rest => do
      let first ← block rs arity index r
      if first.breaks then
        let (more, fallsThrough) ← blocks (index + 1) rest
        return (first :: more, fallsThrough)
      else return ([first], false)

end Guarded

def Function.ofTerm? (rs : RuleSet) (term : TermId) : Option Function := do
  let info ← rs.terms.get? term
  let ((blocks, fallsThrough), d) ←
    (Guarded.blocks rs info.args.length 0 (rs.rulesFor term)).run .empty
  return { term, blocks, fallsThrough, usesContext := d.usesContext, usedParams := d.usedParams }

section Legible

variable (rs : RuleSet) (arity : Nat) (locals : List Nat)

mutual

/-- Every name that the text of the value needs is there. -/
def Value.Legible : Value → Prop
  | .param i => i < arity
  | .temp i => i ∈ locals
  | .int _ | .bool _ => True
  | .payload base ref field =>
      (∃ variant, rs.variant? ref = some variant ∧ field < variant.fields.length) ∧ base.Legible
  | .component base _ => base.Legible
  | .variant ref args =>
      (∃ variant, rs.variant? ref = some variant ∧ args.length ≤ variant.fields.length) ∧
        LegibleAll args
  | .construct term args => (∃ info, rs.terms.get? term = some info) ∧ LegibleAll args
  | .contextBuild term args =>
      (∃ info function loc, rs.terms.get? term = some info ∧
        info.constructor = .external function loc) ∧ LegibleAll args
  | .contextMatch term arg =>
      (∃ info function infallible loc, rs.terms.get? term = some info ∧
        info.extractor = .external function infallible loc) ∧ arg.Legible
  | .undefined => False

def Value.LegibleAll : List Value → Prop
  | [] => True
  | v :: vs => v.Legible ∧ LegibleAll vs

end

def Condition.Legible : Condition → Prop
  | .differ a b | .differDeeply a b =>
      a.Legible rs arity locals ∧ b.Legible rs arity locals
  | .otherTag v ref => v.Legible rs arity locals ∧ ∃ variant, rs.variant? ref = some variant
  | .isTrue v | .isFalse v => v.Legible rs arity locals

def Statement.Legible : Statement → Prop
  | .const _ type v _ =>
      (∀ id ∈ type, ∃ info, rs.types.get? id = some info) ∧ v.Legible rs arity locals
  | .breakIf condition => condition.Legible rs arity locals
  | .discard v | .ret v => v.Legible rs arity locals

end Legible

def LegibleFrom (rs : RuleSet) (arity : Nat) : List Nat → List Statement → Prop
  | _, [] => True
  | locals, t :: ts =>
      t.Legible rs arity locals ∧ LegibleFrom rs arity (locals ++ t.declared?.toList) ts

section

variable {rs : RuleSet} {arity : Nat} {locals locals' : List Nat}

mutual

theorem Value.Legible.mono (hsub : locals ⊆ locals') :
    ∀ {v : Value}, v.Legible rs arity locals → v.Legible rs arity locals'
  | .param _, h => h
  | .temp _, h => hsub h
  | .int _, _ => trivial
  | .bool _, _ => trivial
  | .payload _ _ _, ⟨hfield, hbase⟩ => ⟨hfield, hbase.mono hsub⟩
  | .component base _, h => Legible.mono (v := base) hsub h
  | .variant _ _, ⟨hvariant, hargs⟩ => ⟨hvariant, LegibleAll.mono hsub hargs⟩
  | .construct _ _, ⟨hterm, hargs⟩ => ⟨hterm, LegibleAll.mono hsub hargs⟩
  | .contextBuild _ _, ⟨hterm, hargs⟩ => ⟨hterm, LegibleAll.mono hsub hargs⟩
  | .contextMatch _ _, ⟨hterm, harg⟩ => ⟨hterm, harg.mono hsub⟩

theorem Value.LegibleAll.mono (hsub : locals ⊆ locals') :
    ∀ {vs : List Value}, LegibleAll rs arity locals vs → LegibleAll rs arity locals' vs
  | [], _ => trivial
  | _ :: _, ⟨hv, hvs⟩ => ⟨hv.mono hsub, hvs.mono hsub⟩

end

mutual

theorem Value.Legible.mem_locals {i : Nat} :
    ∀ {v : Value}, v.Legible rs arity locals → .temp i ∈ v.names → i ∈ locals
  | .param _, _, hi => by simp [names] at hi
  | .temp j, h, hi => by
      rw [names, List.mem_singleton, Binder.temp.injEq] at hi
      exact hi ▸ h
  | .payload _ _ _, ⟨_, hbase⟩, hi => hbase.mem_locals hi
  | .component base _, h, hi => Legible.mem_locals (v := base) h hi
  | .variant _ _, ⟨_, hargs⟩, hi => hargs.mem_locals hi
  | .construct _ _, ⟨_, hargs⟩, hi =>
      hargs.mem_locals ((List.mem_cons.mp hi).resolve_left (by simp))
  | .contextBuild _ _, ⟨_, hargs⟩, hi =>
      hargs.mem_locals ((List.mem_cons.mp hi).resolve_left (by simp))
  | .contextMatch _ _, ⟨_, harg⟩, hi =>
      harg.mem_locals ((List.mem_cons.mp hi).resolve_left (by simp))

theorem Value.LegibleAll.mem_locals {i : Nat} :
    ∀ {vs : List Value}, LegibleAll rs arity locals vs → .temp i ∈ namesAll vs → i ∈ locals
  | _ :: _, ⟨hv, hvs⟩, hi => (List.mem_append.mp hi).elim hv.mem_locals hvs.mem_locals

end

theorem Value.Legible.lt_arity {i : Nat} {v : Value} (h : v.Legible rs arity locals)
    (hroot : v.root? = some (.param i)) : i < arity := by
  fun_induction Value.root? v with
  | case1 j =>
    cases hroot
    rwa [Value.Legible] at h
  | case2 j => cases hroot
  | case3 base ref field ih =>
    rw [Value.Legible] at h
    exact ih h.2 hroot
  | case4 base index ih =>
    rw [Value.Legible] at h
    exact ih h hroot
  | case5 => cases hroot

theorem legibleFrom_append {ts us : List Statement} :
    LegibleFrom rs arity locals (ts ++ us) ↔
      LegibleFrom rs arity locals ts ∧
        LegibleFrom rs arity (locals ++ ts.filterMap Statement.declared?) us := by
  induction ts generalizing locals with
  | nil => simp [LegibleFrom]
  | cons t ts ih =>
    have hlocals : locals ++ t.declared?.toList ++ ts.filterMap Statement.declared? =
        locals ++ (t :: ts).filterMap Statement.declared? := by
      rw [List.append_assoc, List.filterMap_cons]
      cases t.declared? <;> rfl
    rw [List.cons_append, LegibleFrom, ih, hlocals, LegibleFrom, and_assoc]

end

end Zig

end TermRules

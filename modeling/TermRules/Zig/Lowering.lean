import TermRules.Zig.Draft

/-!
# From rules to statements

A rule becomes a block: its patterns are matched against the parameters, its
guards are evaluated and matched, and its result is returned. Tests leave the
block. A partial call is kept in a local, since its failure leaves the block; a
total call stays a value and is written where the value is read.
-/

namespace TermRules.Zig

namespace Lower

/-- The results of an extractor: the value itself if it is the only one, else its components. -/
def results (v : Value) (count : Nat) : List Value :=
  if count = 1 then [v] else (List.range count).map (.component v)

def payloads (v : Value) (ref : VariantRef) (count : Nat) : List Value :=
  (List.range count).map (.payload v ref)

def variantOf (rs : RuleSet) (term : TermId) : VariantRef :=
  match (rs.termInfo term).extractor with
  | .variant ref => ref
  | _ => default

def isInfallible (rs : RuleSet) (term : TermId) : Bool :=
  match (rs.termInfo term).extractor with
  | .external _ infallible _ => infallible
  | _ => false

mutual

def matchPattern (rs : RuleSet) : CheckedPattern → Value → Lower Unit
  | .wildcard _, _ => return
  | .bind _ var, v => setVar var v
  | .bindAs _ var sub, v => do
      setVar var v
      matchPattern rs sub v
  | .equal site var, v => do
      let bound ← getVar var
      let a ← use v
      let b ← use bound
      emit (.breakIf
        (if (rs.typeInfo site.type).shape.isEnum then .differDeeply a b else .differ a b))
  | .int _ n, v => do
      emit (.breakIf (.differ (← use v) (.int n)))
  | .bool _ b, v => do
      let a ← use v
      emit (.breakIf (if b then .isFalse a else .isTrue a))
  | .variant _ term args, v => do
      let ref := variantOf rs term
      emit (.breakIf (.otherTag (← use v) ref))
      matchAll rs args (payloads v ref args.length)
  | .extractor _ term args, v => do
      useContext
      let call := Value.contextMatch term (← use v)
      if args.isEmpty then
        emit (if isInfallible rs term then .discard call else .breakIf (.isFalse call))
      else
        let found ← newLocal none call (!isInfallible rs term)
        matchAll rs args (results found args.length)
  | .all _ parts, v => matchAll rs parts (parts.map fun _ => v)

def matchAll (rs : RuleSet) : List CheckedPattern → List Value → Lower Unit
  | p :: ps, v :: vs => do
      matchPattern rs p v
      matchAll rs ps vs
  | _, _ => return

end

/-- A call through the context; the call of a partial term is kept in a local. -/
def call (term : TermInfo) (v : Value) : Lower Value := do
  useContext
  if term.isPartial then newLocal none v true else return v

mutual

def expr (rs : RuleSet) : CheckedExpr → Lower Value
  | .var _ var => getVar var
  | .int _ n => return .int n
  | .bool _ b => return .bool b
  | .call _ term args => do
      let args ← exprs rs args
      let info := rs.termInfo term
      match info.constructor with
      | .variant ref => return .variant ref args
      | .external .. => call info (.contextBuild term args)
      | _ => call info (.construct term args)
  | .letIn _ bs body => do
      bindings rs bs
      expr rs body

def exprs (rs : RuleSet) : List CheckedExpr → Lower (List Value)
  | [] => return []
  | e :: es => do
      let v ← use (← expr rs e)
      let vs ← exprs rs es
      return v :: vs

def bindings (rs : RuleSet) : List (CheckedBinding CheckedExpr) → Lower Unit
  | [] => return
  | ⟨var, value⟩ :: rest => do
      let v ← use (← expr rs value)
      setVar var (← newLocal (some value.type) v false)
      bindings rs rest

end

def isCall : CheckedExpr → Bool
  | .call .. => true
  | _ => false

def isWildcard : CheckedPattern → Bool
  | .wildcard _ => true
  | _ => false

def isTemp (v : Value) : Bool :=
  match v.root? with
  | some (.temp _) => true
  | _ => false

/-- A call whose value is not looked at is written for its own sake. -/
def guard (rs : RuleSet) (g : CheckedGuard) : Lower Unit := do
  let v ← expr rs g.value
  if isWildcard g.pattern && isCall g.value && !isTemp v then emit (.discard (← use v))
  else matchPattern rs g.pattern v

def guards (rs : RuleSet) : List CheckedGuard → Lower Unit
  | [] => return
  | g :: gs => do
      guard rs g
      guards rs gs

def discardUnused : Lower Unit :=
  modify fun d =>
    { d with body := d.body ++
        (d.locals.filter (· ∉ d.usedTemps)).map fun temp => .discard (.temp temp) }

def rule (rs : RuleSet) (r : CheckedRule) : Lower Unit := do
  matchAll rs r.args ((List.range r.args.length).map .param)
  guards rs r.guards
  let result ← use (← expr rs r.result)
  discardUnused
  emit (.ret result)

def block (rs : RuleSet) (index : Nat) (r : CheckedRule) : Lower Block := do
  modify fun d => { d with body := [], vars := [], locals := [] }
  rule rs r
  return ⟨index, r.name, (← get).body⟩

/-- The blocks up to the first that cannot be left, and whether the last one can. -/
def blocks (rs : RuleSet) : Nat → List CheckedRule → Lower (List Block × Bool)
  | _, [] => return ([], true)
  | index, r :: rest => do
      let first ← block rs index r
      if first.breaks then
        let (more, fallsThrough) ← blocks rs (index + 1) rest
        return (first :: more, fallsThrough)
      else return ([first], false)

end Lower

def Function.ofTerm (rs : RuleSet) (term : TermId) : Function :=
  let ((blocks, fallsThrough), d) := (Lower.blocks rs 0 (rs.rulesFor term)).run .empty
  { term, blocks, fallsThrough, usesContext := d.usesContext, usedParams := d.usedParams }

end TermRules.Zig

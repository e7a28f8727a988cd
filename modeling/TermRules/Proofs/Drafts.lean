import TermRules.Proofs.WellFormed
import TermRules.Zig.Lowering

/-!
# Drafts under lowering

What each step of the lowering does to a draft, and what no lowering of a
pattern or an expression does: statements that are there stay, and only the
variables that the pattern or the expression defines get a new value.
-/

namespace TermRules.Zig

namespace Draft

def emit (d : Draft) (t : Statement) : Draft := { d with body := d.body ++ [t] }

def mark (d : Draft) (v : Value) : Draft :=
  match v.root? with
  | some (.param i) => { d with usedParams := i :: d.usedParams }
  | some (.temp i) => { d with usedTemps := i :: d.usedTemps }
  | none => d

def markContext (d : Draft) : Draft := { d with usesContext := true }

def setVar (d : Draft) (var : VarId) (v : Value) : Draft := { d with vars := (var, v) :: d.vars }

def getVar (d : Draft) (var : VarId) : Value := (d.vars.lookup var).getD .undefined

def keep (d : Draft) (type : Option TypeId) (v : Value) (orBreak : Bool) : Draft :=
  { d.emit (.const d.nextTemp type v orBreak) with
    locals := d.locals ++ [d.nextTemp]
    nextTemp := d.nextTemp + 1 }

def Lacks (d : Draft) (vs : List VarId) : Prop := (vs ++ d.vars.map Prod.fst).Nodup

def discards (d : Draft) : List Statement :=
  (d.locals.filter (· ∉ d.usedTemps)).map fun temp => .discard (.temp temp)

def restart (d : Draft) : Draft := { d with body := [], vars := [], locals := [] }

variable (d : Draft) (t : Statement) (v : Value) (var : VarId)

theorem Lacks.left {d : Draft} {vs ws : List VarId} (h : d.Lacks (vs ++ ws)) : d.Lacks vs := by
  refine List.Nodup.sublist ?_ h
  exact (List.sublist_append_left vs ws).append_right _

theorem Lacks.nodup_keys {d : Draft} {vs : List VarId} (h : d.Lacks vs) :
    (d.vars.map Prod.fst).Nodup := (List.nodup_append.mp h).2.1

@[simp] theorem emit_body : (d.emit t).body = d.body ++ [t] := rfl

@[simp] theorem emit_vars : (d.emit t).vars = d.vars := rfl

@[simp] theorem emit_locals : (d.emit t).locals = d.locals := rfl

@[simp] theorem mark_body : (d.mark v).body = d.body := by
  unfold mark
  split <;> rfl

@[simp] theorem mark_vars : (d.mark v).vars = d.vars := by
  unfold mark
  split <;> rfl

@[simp] theorem mark_locals : (d.mark v).locals = d.locals := by
  unfold mark
  split <;> rfl

@[simp] theorem mark_nextTemp : (d.mark v).nextTemp = d.nextTemp := by
  unfold mark
  split <;> rfl

@[simp] theorem setVar_body : (d.setVar var v).body = d.body := rfl

@[simp] theorem setVar_vars : (d.setVar var v).vars = (var, v) :: d.vars := rfl

variable (type : Option TypeId) (orBreak : Bool)

@[simp] theorem keep_body :
    (d.keep type v orBreak).body = d.body ++ [.const d.nextTemp type v orBreak] := rfl

@[simp] theorem keep_vars : (d.keep type v orBreak).vars = d.vars := rfl

@[simp] theorem keep_locals : (d.keep type v orBreak).locals = d.locals ++ [d.nextTemp] := rfl

@[simp] theorem keep_nextTemp : (d.keep type v orBreak).nextTemp = d.nextTemp + 1 := rfl

end Draft

namespace Lower

section Steps

variable {α β : Type} (d : Draft)

theorem run_bind (x : Lower α) (f : α → Lower β) :
    (x >>= f).run d = (f (x.run d).1).run (x.run d).2 := rfl

theorem run_pure (a : α) : (pure a : Lower α).run d = (a, d) := rfl

theorem run_emit (t : Statement) : (emit t).run d = ((), d.emit t) := rfl

theorem run_use (v : Value) : (use v).run d = (v, d.mark v) := by
  unfold use Draft.mark
  cases v.root? with
  | none => rfl
  | some root => cases root <;> rfl

theorem run_useContext : useContext.run d = ((), d.markContext) := rfl

theorem run_setVar (var : VarId) (v : Value) : (setVar var v).run d = ((), d.setVar var v) := rfl

theorem run_getVar (var : VarId) : (getVar var).run d = (d.getVar var, d) := rfl

theorem run_newLocal (type : Option TypeId) (v : Value) (orBreak : Bool) :
    (newLocal type v orBreak).run d = (.temp d.nextTemp, d.keep type v orBreak) := rfl

theorem run_discardUnused :
    discardUnused.run d = ((), { d with body := d.body ++ d.discards }) := rfl

end Steps

/-- The lowering appends statements and sets these variables, one after the other. -/
structure Effect {α : Type} (vs : List VarId) (x : Lower α) : Prop where
  appends : ∀ d, ∃ ts, (x.run d).2.body = d.body ++ ts
  sets : ∀ d, ∃ new, (x.run d).2.vars = new ++ d.vars ∧ new.map Prod.fst = vs.reverse

section Effects

variable {α β : Type} {vs ws : List VarId}

theorem Effect.keeps {x : Lower α} (h : Effect vs x) (d : Draft) {v : VarId} (hv : v ∉ vs) :
    (x.run d).2.vars.lookup v = d.vars.lookup v := by
  obtain ⟨new, hvars, hkeys⟩ := h.sets d
  have hnone : new.lookup v = none := by
    rw [List.lookup_eq_none_iff]
    intro p hp
    refine bne_iff_ne.mpr fun heq => hv ?_
    rw [← List.mem_reverse, ← hkeys, heq]
    exact List.mem_map_of_mem hp
  rw [hvars, List.lookup_append, hnone, Option.none_or]

theorem Effect.bind {x : Lower α} {f : α → Lower β} (hx : Effect vs x)
    (hf : ∀ a, Effect ws (f a)) : Effect (vs ++ ws) (x >>= f) where
  appends d := by
    obtain ⟨ts, ht⟩ := hx.appends d
    obtain ⟨us, hu⟩ := (hf (x.run d).1).appends (x.run d).2
    exact ⟨ts ++ us, by rw [run_bind, hu, ht, List.append_assoc]⟩
  sets d := by
    obtain ⟨new, hn, hkeys⟩ := hx.sets d
    obtain ⟨new', hn', hkeys'⟩ := (hf (x.run d).1).sets (x.run d).2
    refine ⟨new' ++ new, by rw [run_bind, hn', hn, List.append_assoc], ?_⟩
    rw [List.map_append, hkeys, hkeys', List.reverse_append]

theorem Effect.then {x : Lower α} {f : α → Lower β} (hx : Effect [] x)
    (hf : ∀ a, Effect vs (f a)) : Effect vs (x >>= f) := hx.bind hf

theorem Effect.before {x : Lower α} {f : α → Lower β} (hx : Effect vs x)
    (hf : ∀ a, Effect [] (f a)) : Effect vs (x >>= f) := by
  have h := hx.bind hf
  rwa [List.append_nil] at h

theorem effect_of_run {x : Lower α} (hbody : ∀ d, ∃ ts, (x.run d).2.body = d.body ++ ts)
    (hvars : ∀ d, (x.run d).2.vars = d.vars) : Effect [] x :=
  ⟨hbody, fun d => ⟨[], hvars d, rfl⟩⟩

theorem Effect.lacks {x : Lower α} (h : Effect vs x) {d : Draft} (hl : d.Lacks (vs ++ ws)) :
    (x.run d).2.Lacks ws := by
  obtain ⟨new, hvars, hkeys⟩ := h.sets d
  unfold Draft.Lacks at hl ⊢
  rw [hvars, List.map_append, hkeys]
  have hperm : (vs ++ ws ++ d.vars.map Prod.fst).Perm
      (ws ++ (vs.reverse ++ d.vars.map Prod.fst)) := by
    rw [List.append_assoc]
    refine (List.perm_append_comm_assoc vs ws _).trans ?_
    exact (List.Perm.append_right _ (List.reverse_perm vs).symm).append_left ws
  exact hperm.nodup hl

theorem effect_pure (a : α) : Effect [] (pure a : Lower α) :=
  effect_of_run (fun d => ⟨[], (List.append_nil d.body).symm⟩) fun _ => rfl

theorem effect_emit (t : Statement) : Effect [] (emit t) :=
  effect_of_run (fun _ => ⟨[t], rfl⟩) fun _ => rfl

theorem effect_use (v : Value) : Effect [] (use v) :=
  effect_of_run (fun d => ⟨[], by rw [run_use, Draft.mark_body, List.append_nil]⟩)
    fun d => by rw [run_use, Draft.mark_vars]

theorem effect_useContext : Effect [] useContext :=
  effect_of_run (fun d => ⟨[], (List.append_nil d.body).symm⟩) fun _ => rfl

theorem effect_getVar (var : VarId) : Effect [] (getVar var) :=
  effect_of_run (fun d => ⟨[], (List.append_nil d.body).symm⟩) fun _ => rfl

theorem effect_newLocal (type : Option TypeId) (v : Value) (orBreak : Bool) :
    Effect [] (newLocal type v orBreak) :=
  effect_of_run (fun _ => ⟨_, rfl⟩) fun _ => rfl

theorem effect_setVar (var : VarId) (v : Value) : Effect [var] (setVar var v) where
  appends d := ⟨[], (List.append_nil d.body).symm⟩
  sets _ := ⟨[(var, v)], rfl, rfl⟩

end Effects

section Lowering

theorem length_payloads (v : Value) (ref : VariantRef) (count : Nat) :
    (payloads v ref count).length = count := by
  rw [payloads, List.length_map, List.length_range]

theorem length_results (v : Value) (count : Nat) : (results v count).length = count := by
  unfold results
  split_ifs with hone
  · rw [hone, List.length_singleton]
  · rw [List.length_map, List.length_range]

theorem variantOf_eq {rs : RuleSet} {t : TermId} {ref : VariantRef}
    (h : (rs.termInfo t).extractor = .variant ref) : variantOf rs t = ref := by
  rw [variantOf, h]

theorem isInfallible_eq {rs : RuleSet} {t : TermId} {function : Bytes} {infallible : Bool}
    {loc : Loc} (h : (rs.termInfo t).extractor = .external function infallible loc) :
    isInfallible rs t = infallible := by
  rw [isInfallible, h]

variable (rs : RuleSet)

theorem run_extractor_nil (s : Site) (t : TermId) (v : Value) (d : Draft) :
    (matchPattern rs (.extractor s t []) v).run d =
      ((), (d.markContext.mark v).emit
        (if isInfallible rs t then .discard (.contextMatch t v)
          else .breakIf (.isFalse (.contextMatch t v)))) := by
  rw [matchPattern, run_bind, run_useContext, run_bind, run_use]
  rfl

theorem run_extractor_cons (s : Site) (t : TermId) (p : CheckedPattern)
    (ps : List CheckedPattern) (v : Value) (d : Draft) :
    (matchPattern rs (.extractor s t (p :: ps)) v).run d =
      (matchAll rs (p :: ps)
        (results (.temp (d.markContext.mark v).nextTemp) (p :: ps).length)).run
          ((d.markContext.mark v).keep none (.contextMatch t v) (!isInfallible rs t)) := by
  rw [matchPattern, run_bind, run_useContext, run_bind, run_use]
  rfl

mutual

theorem effect_matchPattern : ∀ (p : CheckedPattern) (v : Value),
    Effect p.defined (matchPattern rs p v)
  | .wildcard _, v => effect_pure ()
  | .bind _ var, v => effect_setVar var v
  | .bindAs _ var sub, v => (effect_setVar var v).bind fun _ => effect_matchPattern sub v
  | .equal site var, v =>
      (effect_getVar var).then fun bound => (effect_use v).then fun _ =>
        (effect_use bound).then fun _ => effect_emit _
  | .int _ n, v => (effect_use v).then fun _ => effect_emit _
  | .bool _ b, v => (effect_use v).then fun _ => effect_emit _
  | .variant _ term args, v =>
      (effect_use v).then fun _ => (effect_emit _).then fun _ =>
        effect_matchAll args (length_payloads _ _ _).symm
  | .extractor _ term args, v => by
      refine effect_useContext.then fun _ => (effect_use v).then fun _ => ?_
      cases args with
      | nil => exact effect_emit _
      | cons p ps =>
        exact (effect_newLocal none _ _).then fun found =>
          effect_matchAll (p :: ps) (length_results found (p :: ps).length).symm
  | .all _ parts, v => effect_matchAll parts (List.length_map _).symm

theorem effect_matchAll : ∀ (ps : List CheckedPattern) {vs : List Value},
    ps.length = vs.length → Effect (CheckedPattern.definedAll ps) (matchAll rs ps vs)
  | [], [], _ => effect_pure ()
  | p :: ps, v :: _, hl =>
      (effect_matchPattern p v).bind fun _ => effect_matchAll ps (Nat.succ.inj hl)

end

theorem effect_call (term : TermInfo) (v : Value) : Effect [] (call term v) := by
  refine effect_useContext.then fun _ => ?_
  split_ifs
  · exact effect_newLocal none v true
  · exact effect_pure v

def build (t : TermId) (args : List Value) : Lower Value :=
  match (rs.termInfo t).constructor with
  | .variant ref => return .variant ref args
  | .external .. => call (rs.termInfo t) (.contextBuild t args)
  | _ => call (rs.termInfo t) (.construct t args)

theorem expr_call (s : Site) (t : TermId) (args : List CheckedExpr) :
    expr rs (.call s t args) = exprs rs args >>= build rs t := rfl

theorem effect_build (t : TermId) (args : List Value) : Effect [] (build rs t args) := by
  unfold build
  split
  · exact effect_pure _
  · exact effect_call _ _
  · exact effect_call _ _

mutual

theorem effect_expr : ∀ (e : CheckedExpr), Effect e.defined (expr rs e)
  | .var _ var => effect_getVar var
  | .int _ _ => effect_pure _
  | .bool _ _ => effect_pure _
  | .call _ t args => (effect_exprs args).before (effect_build rs t)
  | .letIn _ bs body => (effect_bindings bs).bind fun _ => effect_expr body

theorem effect_exprs : ∀ (es : List CheckedExpr),
    Effect (CheckedExpr.definedAll es) (exprs rs es)
  | [] => effect_pure []
  | e :: es =>
      (effect_expr e).bind fun v => (effect_use v).then fun _ =>
        (effect_exprs es).before fun _ => effect_pure _

theorem effect_bindings : ∀ (bs : List (CheckedBinding CheckedExpr)),
    Effect (CheckedExpr.definedIn bs) (bindings rs bs)
  | [] => effect_pure ()
  | ⟨var, value⟩ :: bs =>
      (effect_expr value).bind fun v => (effect_use v).then fun _ =>
        (effect_newLocal _ _ _).then fun temp =>
          (effect_setVar var temp).bind fun _ => effect_bindings bs

end

def matchGuard (g : CheckedGuard) (v : Value) : Lower Unit :=
  if isWildcard g.pattern && isCall g.value && !isTemp v then do
    emit (.discard (← use v))
  else matchPattern rs g.pattern v

theorem guard_eq (g : CheckedGuard) : guard rs g = expr rs g.value >>= matchGuard rs g := rfl

theorem effect_matchGuard (g : CheckedGuard) (v : Value) :
    Effect g.pattern.defined (matchGuard rs g v) := by
  unfold matchGuard
  split_ifs with hdiscard
  · simp only [Bool.and_eq_true] at hdiscard
    cases hp : g.pattern with
    | wildcard => exact (effect_use v).then fun _ => effect_emit _
    | _ => simp [hp, isWildcard] at hdiscard
  · exact effect_matchPattern rs g.pattern v

theorem effect_guard (g : CheckedGuard) : Effect g.defined (guard rs g) :=
  (effect_expr rs g.value).bind (effect_matchGuard rs g)

theorem effect_guards (gs : List CheckedGuard) :
    Effect (gs.flatMap CheckedGuard.defined) (guards rs gs) := by
  induction gs with
  | nil => exact effect_pure ()
  | cons g gs ih => exact (effect_guard rs g).bind fun _ => ih

def ruleValue (r : CheckedRule) : Lower Value := do
  matchAll rs r.args ((List.range r.args.length).map .param)
  guards rs r.guards
  expr rs r.result

def ruleDraft (r : CheckedRule) (d : Draft) : Draft :=
  ((ruleValue rs r).run d).2.mark ((ruleValue rs r).run d).1

theorem run_rule (r : CheckedRule) (d : Draft) :
    ((rule rs r).run d).2 =
      { ruleDraft rs r d with
        body := (ruleDraft rs r d).body ++ (ruleDraft rs r d).discards ++
          [.ret ((ruleValue rs r).run d).1] } := by
  have hrun : (rule rs r).run d = (do
      let v ← ruleValue rs r
      let v ← use v
      discardUnused
      emit (.ret v)).run d := rfl
  rw [hrun, run_bind, run_bind, run_use, run_bind, run_discardUnused, run_emit]
  rfl

theorem body_rule (r : CheckedRule) (d : Draft) :
    ((rule rs r).run d).2.body = ((ruleValue rs r).run d).2.body ++ (ruleDraft rs r d).discards ++
      [.ret ((ruleValue rs r).run d).1] := by
  rw [run_rule]
  dsimp only
  rw [ruleDraft, Draft.mark_body]

theorem run_block (r : CheckedRule) (index : Nat) (d : Draft) :
    (block rs index r).run d =
      (⟨index, r.name, ((rule rs r).run d.restart).2.body⟩, ((rule rs r).run d.restart).2) := rfl

theorem blocks_getElem? (rules : List CheckedRule) (index : Nat) (d : Draft) {i : Nat} {b : Block}
    (h : ((blocks rs index rules).run d).1.1[i]? = some b) :
    ∃ r d', rules[i]? = some r ∧ b = ((block rs (index + i) r).run d').1 := by
  induction rules generalizing index d i with
  | nil =>
    rw [blocks, run_pure] at h
    cases h
  | cons r rules ih =>
    rw [blocks, run_bind] at h
    cases i with
    | zero =>
      refine ⟨r, d, rfl, ?_⟩
      split_ifs at h
      · rw [run_bind] at h
        exact (Option.some.inj h).symm
      · exact (Option.some.inj h).symm
    | succ i =>
      split_ifs at h
      · rw [run_bind] at h
        obtain ⟨r', d', hr', hb⟩ := ih (index + 1) ((block rs index r).run d).2 h
        exact ⟨r', d', hr', by rw [hb, Nat.add_assoc, Nat.add_comm 1 i]⟩
      · cases h

end Lowering

end Lower

end TermRules.Zig

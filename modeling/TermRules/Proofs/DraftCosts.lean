import Mathlib.Tactic.Linarith
import Mathlib.Tactic.Ring
import TermRules.Proofs.CallCounts
import TermRules.Proofs.Checking
import TermRules.Proofs.Drafts

/-!
# The cost of drafts

The cost of a draft are the calls in its statements and those that its variables
carry along, each as often as it is still to be written. The lowering of a
pattern or an expression adds to it what the rule counts there.
-/

namespace TermRules

namespace Zig

open Lower

section Cost

variable (c : Callee)

def tableCalls (vars : List (VarId × Value)) (D : VarId → Nat) : Nat :=
  (vars.map fun p => p.2.calls c * D p.1).sum

/-- The calls in the statements so far, and those to come from the variables. -/
def Draft.cost (d : Draft) (D : VarId → Nat) : Nat :=
  (d.body.map (Statement.calls c)).sum + tableCalls c d.vars D

theorem tableCalls_add (vars : List (VarId × Value)) (D E : VarId → Nat) :
    tableCalls c vars (fun x => D x + E x) = tableCalls c vars D + tableCalls c vars E := by
  induction vars with
  | nil => rfl
  | cons p vars ih =>
    simp only [tableCalls, List.map_cons, List.sum_cons] at ih ⊢
    rw [ih, Nat.mul_add]
    omega

theorem tableCalls_mul (vars : List (VarId × Value)) (n : Nat) (E : VarId → Nat) :
    tableCalls c vars (fun x => n * E x) = n * tableCalls c vars E := by
  induction vars with
  | nil => rfl
  | cons p vars ih =>
    simp only [tableCalls, List.map_cons, List.sum_cons] at ih ⊢
    rw [ih, Nat.mul_add, Nat.mul_left_comm]

theorem tableCalls_eq_zero {vars : List (VarId × Value)} {D : VarId → Nat}
    (h : ∀ p ∈ vars, D p.1 = 0) : tableCalls c vars D = 0 := by
  induction vars with
  | nil => rfl
  | cons p vars ih =>
    have hp := h p List.mem_cons_self
    have hvars := ih fun q hq => h q (List.mem_cons_of_mem p hq)
    simp only [tableCalls, List.map_cons, List.sum_cons] at hvars ⊢
    rw [hvars, hp, Nat.mul_zero]

theorem tableCalls_ofVar {d : Draft} (hkeys : (d.vars.map Prod.fst).Nodup) (x : VarId) :
    tableCalls c d.vars (fun y => if x = y then 1 else 0) = (d.getVar x).calls c := by
  rw [Draft.getVar]
  generalize d.vars = vars at hkeys
  induction vars with
  | nil => rfl
  | cons p vars ih =>
    obtain ⟨y, v⟩ := p
    rw [List.map_cons, List.nodup_cons] at hkeys
    obtain ⟨hnot, hkeys⟩ := hkeys
    by_cases hxy : x = y
    · subst hxy
      have hrest : tableCalls c vars (fun y => if x = y then 1 else 0) = 0 := by
        refine tableCalls_eq_zero c fun q hq => if_neg fun heq => hnot ?_
        exact List.mem_map.mpr ⟨q, hq, heq.symm⟩
      have hcons : tableCalls c ((x, v) :: vars) (fun y => if x = y then 1 else 0) =
          v.calls c * 1 + tableCalls c vars (fun y => if x = y then 1 else 0) := by
        simp [tableCalls]
      rw [hcons, hrest, List.lookup_cons, beq_self_eq_true]
      simp
    · have hcons : tableCalls c ((y, v) :: vars) (fun y => if x = y then 1 else 0) =
          tableCalls c vars (fun y => if x = y then 1 else 0) := by
        simp [tableCalls, hxy]
      rw [hcons, ih hkeys, List.lookup_cons, beq_false_of_ne hxy]

variable (d : Draft) (D : VarId → Nat)

theorem cost_emit (t : Statement) : (d.emit t).cost c D = d.cost c D + t.calls c := by
  simp only [Draft.cost, Draft.emit_body, Draft.emit_vars, List.map_append, List.sum_append,
    List.map_singleton, List.sum_singleton]
  omega

theorem cost_mark (v : Value) : (d.mark v).cost c D = d.cost c D := by
  rw [Draft.cost, Draft.cost, Draft.mark_body, Draft.mark_vars]

theorem cost_markContext : d.markContext.cost c D = d.cost c D := rfl

theorem cost_setVar (x : VarId) (v : Value) :
    (d.setVar x v).cost c D = d.cost c D + v.calls c * D x := by
  simp only [Draft.cost, Draft.setVar_body, Draft.setVar_vars, tableCalls, List.map_cons,
    List.sum_cons]
  omega

theorem cost_keep (type : Option TypeId) (v : Value) (orBreak : Bool) :
    (d.keep type v orBreak).cost c D = d.cost c D + v.calls c :=
  cost_emit c d D (.const d.nextTemp type v orBreak)

theorem cost_add (E : VarId → Nat) :
    d.cost c (fun x => D x + E x) = d.cost c D + tableCalls c d.vars E := by
  rw [Draft.cost, Draft.cost, tableCalls_add, Nat.add_assoc]

theorem calls_of_root : ∀ {v : Value}, v.root?.isSome = true → v.calls c = 0
  | .param _, _ => rfl
  | .temp _, _ => rfl
  | .payload base _ _, h => calls_of_root (v := base) h
  | .component base _, h => calls_of_root (v := base) h

theorem calls_payloads {v w : Value} {ref : VariantRef} {count : Nat}
    (h : w ∈ payloads v ref count) : w.calls c = v.calls c := by
  obtain ⟨i, -, rfl⟩ := List.mem_map.mp h
  rfl

theorem calls_results {v w : Value} {count : Nat} (h : w ∈ results v count) :
    w.calls c = v.calls c := by
  unfold results at h
  split_ifs at h
  · rw [List.mem_singleton.mp h]
  · obtain ⟨i, -, rfl⟩ := List.mem_map.mp h
    rfl

end Cost

section Lowering

variable (rs : RuleSet) (c : Callee)

mutual

theorem cost_matchPattern : ∀ (p : CheckedPattern) (v : Value) (d : Draft) (D : VarId → Nat),
    d.Lacks p.defined →
      ((matchPattern rs p v).run d).2.cost c D =
        d.cost c (fun x => D x + p.equals x) + v.calls c * p.writes D + p.calls c
  | .wildcard _, v, d, D, _ => rfl
  | .bind _ x, v, d, D, _ => by
      simp [matchPattern, run_setVar, cost_setVar, CheckedPattern.equals, CheckedPattern.writes,
        CheckedPattern.calls]
  | .bindAs _ x sub, v, d, D, hl => by
      -- The variable is set before its sub-pattern, so the tests in there write its value again.
      have hsub := cost_matchPattern sub v (d.setVar x v) D
        ((effect_setVar x v).lacks hl)
      rw [matchPattern, run_bind, run_setVar, hsub, cost_setVar, CheckedPattern.writes,
        CheckedPattern.calls]
      simp only [CheckedPattern.equals]
      ring
  | .equal s x, v, d, D, hl => by
      have hx := tableCalls_ofVar c hl.nodup_keys x
      rw [matchPattern, run_bind, run_getVar, run_bind, run_use, run_bind, run_use, run_emit,
        cost_emit, cost_mark, cost_mark, cost_add]
      simp only [CheckedPattern.equals, CheckedPattern.writes, CheckedPattern.calls, hx]
      cases (rs.typeInfo s.type).shape.isEnum <;>
        simp [Statement.calls, Condition.calls] <;> omega
  | .int _ n, v, d, D, _ => by
      rw [matchPattern, run_bind, run_use, run_emit, cost_emit, cost_mark]
      simp [Statement.calls, Condition.calls, Value.calls, CheckedPattern.equals,
        CheckedPattern.writes, CheckedPattern.calls]
  | .bool _ b, v, d, D, _ => by
      rw [matchPattern, run_bind, run_use, run_emit, cost_emit, cost_mark]
      cases b <;> simp [Statement.calls, Condition.calls, CheckedPattern.equals,
        CheckedPattern.writes, CheckedPattern.calls]
  | .variant _ t args, v, d, D, hl => by
      have hargs := cost_matchAll args (payloads v (variantOf rs t) args.length)
        ((d.mark v).emit (.breakIf (.otherTag v (variantOf rs t)))) D (v.calls c)
        (length_payloads _ _ _).symm (fun _ => calls_payloads c)
        (by rwa [Draft.Lacks, Draft.emit_vars, Draft.mark_vars])
      rw [matchPattern, run_bind, run_use, run_bind, run_emit, hargs, cost_emit, cost_mark,
        CheckedPattern.writes, CheckedPattern.calls]
      simp only [CheckedPattern.equals, Statement.calls, Condition.calls]
      ring
  | .extractor _ t args, v, d, D, hl => by
      cases args with
      | nil =>
        rw [run_extractor_nil]
        change ((d.markContext.mark v).emit _).cost c D =
          d.cost c D + v.calls c * 1 + (if c = .extractor t then 1 else 0)
        rw [cost_emit, cost_mark, cost_markContext]
        cases isInfallible rs t <;>
          simp [Statement.calls, Condition.calls, Value.calls] <;> omega
      | cons p ps =>
        let kept := (d.markContext.mark v).keep none (.contextMatch t v) (!isInfallible rs t)
        have hargs := cost_matchAll (p :: ps)
          (results (.temp (d.markContext.mark v).nextTemp) (p :: ps).length) kept D 0
          (length_results _ _).symm (fun _ h => calls_results c h)
          (by rwa [Draft.Lacks, Draft.keep_vars, Draft.mark_vars])
        rw [run_extractor_cons, hargs, cost_keep, cost_mark, cost_markContext]
        simp only [CheckedPattern.equals, CheckedPattern.writes, CheckedPattern.calls, Value.calls]
        ring
  | .all _ parts, v, d, D, hl => by
      rw [matchPattern, cost_matchAll parts _ d D (v.calls c) (List.length_map _).symm
        (fun w hw => by obtain ⟨-, -, rfl⟩ := List.mem_map.mp hw; rfl) hl]
      simp only [CheckedPattern.equals, CheckedPattern.writes, CheckedPattern.calls]

theorem cost_matchAll : ∀ (ps : List CheckedPattern) (vs : List Value) (d : Draft)
    (D : VarId → Nat) (k : Nat), ps.length = vs.length → (∀ v ∈ vs, v.calls c = k) →
      d.Lacks (CheckedPattern.definedAll ps) →
      ((matchAll rs ps vs).run d).2.cost c D =
        d.cost c (fun x => D x + CheckedPattern.equalsAll x ps) +
          k * CheckedPattern.writesAll ps D + CheckedPattern.callsAll c ps
  | [], [], d, D, k, _, _, _ => rfl
  | p :: ps, v :: vs, d, D, k, hl, hk, hlacks => by
      have hps := cost_matchAll ps vs ((matchPattern rs p v).run d).2 D k (Nat.succ.inj hl)
        (fun w hw => hk w (List.mem_cons_of_mem v hw)) ((effect_matchPattern rs p v).lacks hlacks)
      have hp := cost_matchPattern p v d (fun x => D x + CheckedPattern.equalsAll x ps) hlacks.left
      have hdemand : (fun x => D x + CheckedPattern.equalsAll x ps + p.equals x) =
          fun x => D x + CheckedPattern.equalsAll x (p :: ps) := by
        funext x
        rw [CheckedPattern.equalsAll]
        omega
      rw [hdemand, hk v List.mem_cons_self] at hp
      rw [matchAll, run_bind, hps, hp, CheckedPattern.writesAll, CheckedPattern.callsAll]
      ring

end

theorem lacks_congr {d d' : Draft} {vs : List VarId} (h : d.Lacks vs) (hvars : d'.vars = d.vars) :
    d'.Lacks vs := by
  rwa [Draft.Lacks, hvars]

theorem cost_call {t : TermId} {w : Value} {args : List Value}
    (hw : w.calls c = (if c = .constructor t then 1 else 0) + Value.callsAll c args)
    (hvariant : rs.isVariantTerm t = false) (d : Draft) (D : VarId → Nat) (n : Nat) :
    ((call (rs.termInfo t) w).run d).2.cost c D + n * ((call (rs.termInfo t) w).run d).1.calls c =
      d.cost c D + (if rs.isKept t then 1 else n) *
        (rs.onCall (.ofCallee c) t + Value.callsAll c args) := by
  rw [RuleSet.isKept, RuleSet.onCall, hvariant, Measure.ofCallee, call, run_bind, run_useContext]
  cases hpartial : (rs.termInfo t).isPartial with
  | true =>
    simp only [if_true, run_newLocal, cost_keep, cost_markContext, Value.calls, hw]
    simp
  | false =>
    simp only [Bool.false_eq_true, if_false, run_pure, cost_markContext, hw]
    simp

theorem cost_build (t : TermId) (args : List Value) (d : Draft) (D : VarId → Nat) (n : Nat) :
    ((build rs t args).run d).2.cost c D + n * ((build rs t args).run d).1.calls c =
      d.cost c D + (if rs.isKept t then 1 else n) *
        (rs.onCall (.ofCallee c) t + Value.callsAll c args) := by
  unfold build
  cases hk : (rs.termInfo t).constructor with
  | variant ref =>
    have hvariant : rs.isVariantTerm t = true := by rw [RuleSet.isVariantTerm, hk]
    rw [RuleSet.isKept, RuleSet.onCall, hvariant, run_pure, Value.calls]
    simp
  | external function loc => exact cost_call rs c rfl (by rw [RuleSet.isVariantTerm, hk]) d D n
  | internal loc => exact cost_call rs c rfl (by rw [RuleSet.isVariantTerm, hk]) d D n
  | missing => exact cost_call rs c rfl (by rw [RuleSet.isVariantTerm, hk]) d D n

mutual

/-- An expression writes what it keeps, and the rest as often as its value is written. -/
theorem cost_expr : ∀ (e : CheckedExpr) (d : Draft) (D : VarId → Nat) (n : Nat),
    d.Lacks e.defined →
      ((expr rs e).run d).2.cost c D + n * ((expr rs e).run d).1.calls c =
        d.cost c (fun x => D x + e.kept rs (.ofVar x) + n * e.inlined rs (.ofVar x)) +
          e.kept rs (.ofCallee c) + n * e.inlined rs (.ofCallee c)
  | .var _ x, d, D, n, hl => by
      have hx := tableCalls_ofVar c hl.nodup_keys x
      have hcost : d.cost c (fun y => D y + n * (if x = y then 1 else 0)) =
          d.cost c D + n * (d.getVar x).calls c := by
        rw [cost_add, tableCalls_mul, hx]
      exact hcost.symm
  | .int _ n', d, D, n, _ => rfl
  | .bool _ b, d, D, n, _ => rfl
  | .call s t args, d, D, n, hl => by
      -- The arguments are written as often as the call: once where it is kept.
      have hbuild := cost_build rs c t ((exprs rs args).run d).1 ((exprs rs args).run d).2 D n
      have hargs := cost_exprs args d D (if rs.isKept t then 1 else n) hl
      rw [expr_call, run_bind, hbuild, Nat.mul_add, Nat.add_left_comm, hargs]
      have hdemand : (fun x => D x + CheckedExpr.keptAll rs (.ofVar x) args +
            (if rs.isKept t then 1 else n) * CheckedExpr.inlinedAll rs (.ofVar x) args) =
          fun x => D x + (CheckedExpr.call s t args).kept rs (.ofVar x) +
            n * (CheckedExpr.call s t args).inlined rs (.ofVar x) := by
        funext x
        rw [CheckedExpr.kept, CheckedExpr.inlined, RuleSet.onCall]
        cases rs.isKept t <;> simp [Measure.ofVar, Nat.add_assoc]
      rw [hdemand, CheckedExpr.kept, CheckedExpr.inlined]
      cases rs.isKept t <;> simp <;> ring
  | .letIn s bs body, d, D, n, hl => by
      have hbs := cost_bindings bs d
        (fun x => D x + body.kept rs (.ofVar x) + n * body.inlined rs (.ofVar x)) hl.left
      have hbody := cost_expr body ((bindings rs bs).run d).2 D n
        ((effect_bindings rs bs).lacks hl)
      rw [expr, run_bind, hbody, hbs]
      have hdemand : (fun x => D x + body.kept rs (.ofVar x) + n * body.inlined rs (.ofVar x) +
            CheckedExpr.keptIn rs (.ofVar x) bs) =
          fun x => D x + (CheckedExpr.letIn s bs body).kept rs (.ofVar x) +
            n * (CheckedExpr.letIn s bs body).inlined rs (.ofVar x) := by
        funext x
        rw [CheckedExpr.kept, CheckedExpr.inlined]
        ring
      rw [hdemand, CheckedExpr.kept, CheckedExpr.inlined]
      ring

theorem cost_exprs : ∀ (es : List CheckedExpr) (d : Draft) (D : VarId → Nat) (n : Nat),
    d.Lacks (CheckedExpr.definedAll es) →
      ((exprs rs es).run d).2.cost c D + n * Value.callsAll c ((exprs rs es).run d).1 =
        d.cost c (fun x => D x + CheckedExpr.keptAll rs (.ofVar x) es +
          n * CheckedExpr.inlinedAll rs (.ofVar x) es) +
          CheckedExpr.keptAll rs (.ofCallee c) es + n * CheckedExpr.inlinedAll rs (.ofCallee c) es
  | [], d, D, n, _ => rfl
  | e :: es, d, D, n, hl => by
      let first := (expr rs e).run d
      have he := cost_expr e d (fun x => D x + CheckedExpr.keptAll rs (.ofVar x) es +
        n * CheckedExpr.inlinedAll rs (.ofVar x) es) n hl.left
      have hes := cost_exprs es (first.2.mark first.1) D n
        (lacks_congr ((effect_expr rs e).lacks hl) (Draft.mark_vars _ _))
      rw [cost_mark] at hes
      have hdemand : (fun x => D x + CheckedExpr.keptAll rs (.ofVar x) es +
            n * CheckedExpr.inlinedAll rs (.ofVar x) es + e.kept rs (.ofVar x) +
            n * e.inlined rs (.ofVar x)) =
          fun x => D x + CheckedExpr.keptAll rs (.ofVar x) (e :: es) +
            n * CheckedExpr.inlinedAll rs (.ofVar x) (e :: es) := by
        funext x
        rw [CheckedExpr.keptAll, CheckedExpr.inlinedAll]
        ring
      rw [hdemand] at he
      rw [exprs, run_bind, run_bind, run_use, run_bind, run_pure, Value.callsAll,
        CheckedExpr.keptAll, CheckedExpr.inlinedAll]
      change ((exprs rs es).run (first.2.mark first.1)).2.cost c D +
        n * (first.1.calls c + Value.callsAll c ((exprs rs es).run (first.2.mark first.1)).1) = _
      linarith

theorem cost_bindings : ∀ (bs : List (CheckedBinding CheckedExpr)) (d : Draft)
    (D : VarId → Nat), d.Lacks (CheckedExpr.definedIn bs) →
      ((bindings rs bs).run d).2.cost c D =
        d.cost c (fun x => D x + CheckedExpr.keptIn rs (.ofVar x) bs) +
          CheckedExpr.keptIn rs (.ofCallee c) bs
  | [], d, D, _ => rfl
  | ⟨var, value⟩ :: bs, d, D, hl => by
      -- The value is written into its local, and from then on the variable calls nothing.
      let first := (expr rs value).run d
      let kept := (first.2.mark first.1).keep (some value.type) first.1 false
      let temp := Value.temp (first.2.mark first.1).nextTemp
      have hvalue := cost_expr value d (fun x => D x + CheckedExpr.keptIn rs (.ofVar x) bs) 1
        hl.left
      have hlvar : kept.Lacks ([var] ++ CheckedExpr.definedIn bs) :=
        lacks_congr ((effect_expr rs value).lacks hl) (Draft.mark_vars _ _)
      have hbs := cost_bindings bs (kept.setVar var temp) D ((effect_setVar var temp).lacks hlvar)
      rw [cost_setVar, cost_keep, cost_mark] at hbs
      have hdemand : (fun x => D x + CheckedExpr.keptIn rs (.ofVar x) bs +
            value.kept rs (.ofVar x) + 1 * value.inlined rs (.ofVar x)) =
          fun x => D x + CheckedExpr.keptIn rs (.ofVar x) (⟨var, value⟩ :: bs) := by
        funext x
        rw [CheckedExpr.keptIn]
        ring
      rw [hdemand] at hvalue
      rw [bindings, run_bind, run_bind, run_use, run_bind, run_newLocal, run_bind, run_setVar,
        CheckedExpr.keptIn]
      change ((bindings rs bs).run (kept.setVar var temp)).2.cost c D = _
      have htemp : temp.calls c = 0 := rfl
      rw [htemp] at hbs
      linarith

end

end Lowering

end Zig

end TermRules

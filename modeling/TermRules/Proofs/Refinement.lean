import TermRules.Proofs.Checking
import TermRules.Proofs.Simulation

/-!
# Generated functions compute the rules

The block of a rule returns the value of the rule where it applies and is left
where it does not. A function therefore gives what its term means. The rules
behind a block that cannot be left are never needed.
-/

namespace TermRules.Zig

open Lower

section Rules

variable {rs : RuleSet} {P : Type} [DecidableEq P] {I : Interpretation rs P}

theorem meet_of_isWildcard {p : CheckedPattern} (h : isWildcard p = true) (x : Val P)
    (env : Env P) : p.meet I x env = some env := by
  cases p with
  | wildcard => rfl
  | _ => cases h

theorem simulates_guard (hc : rs.Coherent) {vars : Array VarInfo} {c : CheckedGuard} {d : Draft}
    {σ : Store P} {env : Env P} {g : Visible} (hvalue : c.value.Scoped vars g)
    (hpattern : c.pattern.Scoped vars g) (htyped : c.Typed rs vars)
    (hfree : Env.Free env c.defined) (ht : Tracks I d σ env) (hg : env.Shows g)
    (henv : Env.Typed rs vars env) :
    Simulates I (guard rs c) d σ ((c.value.eval I env).bind fun x => c.pattern.meet I x env)
      (Matches I σ) := by
  obtain ⟨hvaluet, hpatternt, htype⟩ := htyped
  refine .bind (simulates_expr hc c.value hvalue hvaluet hfree.left ht hg henv)
    (effect_matchGuard rs c) ?_
  rintro v x d' τ hx ⟨hv, ht', hle⟩
  split_ifs with hdiscard
  · simp only [Bool.and_eq_true] at hdiscard
    rw [meet_of_isWildcard hdiscard.1.1]
    refine simulates_use ⟨_, rfl, τ, ?_, (ht'.mark v).emit _, hle⟩
    rw [Value.eval_eq_some] at hv
    rw [exec_singleton, Statement.step, hv]
    rfl
  · have hxt := c.value.eval_typed hc hvaluet henv hx
    rw [← htype] at hxt
    exact .later hle (simulates_matchPattern hc c.pattern hpattern hpatternt hxt hv ht' hg henv)

theorem simulates_guards (hc : rs.Coherent) {vars : Array VarInfo} (cs : List CheckedGuard)
    {d : Draft} {σ : Store P} {env : Env P} {g : Visible}
    (hscoped : CheckedGuard.ScopedAll vars cs g) (htyped : ∀ c ∈ cs, c.Typed rs vars)
    (hfree : Env.Free env (cs.flatMap CheckedGuard.defined)) (ht : Tracks I d σ env)
    (hg : env.Shows g) (henv : Env.Typed rs vars env) :
    Simulates I (guards rs cs) d σ (CheckedGuard.passAll I cs env) (Matches I σ) := by
  induction cs generalizing d σ env g with
  | nil => exact .pure ⟨ht, .refl σ⟩
  | cons c cs ih =>
    obtain ⟨hvalue, hpattern, hscoped⟩ := hscoped
    have hc' := htyped c List.mem_cons_self
    have hpass : CheckedGuard.passAll I (c :: cs) env =
        ((c.value.eval I env).bind fun x => c.pattern.meet I x env).bind fun env =>
          CheckedGuard.passAll I cs env := by
      rw [CheckedGuard.passAll]
      cases c.value.eval I env <;> rfl
    rw [hpass]
    refine .bind (simulates_guard hc hvalue hpattern hc' hfree.left ht hg henv)
      (fun _ => effect_guards rs cs) ?_
    rintro _ mid d' τ hmid ⟨ht', hle⟩
    obtain ⟨x, hx, hmid⟩ := Option.bind_eq_some_iff.mp hmid
    have hkeys := c.pattern.meet_keys hmid
    have hxt := c.value.eval_typed hc hc'.1 henv hx
    rw [← hc'.2.2] at hxt
    exact .later hle (ih hscoped (fun c' hmem => htyped c' (List.mem_cons_of_mem c hmem))
      (hfree.extend (List.subset_append_right _ _) hkeys) ht' (hg.extend hkeys)
      (c.pattern.meet_typed hc hc'.2.1 hxt henv hmid))

theorem exec_discardTemps {σ : Store P} (temps : List Nat)
    (h : ∀ i ∈ temps, ∃ x, σ.temps i = some x) :
    exec I σ (temps.map fun temp => .discard (.temp temp)) = some (.running σ) := by
  induction temps with
  | nil => rfl
  | cons i temps ih =>
    obtain ⟨x, hx⟩ := h i List.mem_cons_self
    rw [List.map_cons, exec, Statement.step, Value.yield, hx]
    exact ih fun j hj => h j (List.mem_cons_of_mem i hj)

theorem simulates_ruleValue (hc : rs.Coherent) {r : CheckedRule} (hr : r.WellFormed rs)
    {args : List (Val P)} (hargs : Val.HaveTypes rs args (r.args.map CheckedPattern.type))
    {d : Draft} (hlocals : d.locals = []) :
    Simulates I (ruleValue rs r) d (Store.start args) (r.apply I args)
      (fun v x d' τ => v.eval I τ = some x ∧ Backs d' τ) := by
  obtain ⟨hsargs, hsguards, hsresult⟩ := hr.wellScoped
  obtain ⟨-, htargs, htguards, htresult⟩ := hr.wellTyped
  have hnodup : r.defined.Nodup := by
    rw [hr.numbered]
    exact List.nodup_range
  have hfree : Env.Free ([] : Env P) r.defined := ⟨hnodup, fun _ _ => by simp⟩
  rw [CheckedRule.defined, List.append_assoc] at hfree
  have ht : Tracks I d (Store.start args) [] := by
    refine ⟨⟨fun _ => rfl, fun hi => ?_⟩, fun hx => ?_⟩
    · rw [hlocals] at hi
      cases hi
    · cases hx
  have hlength := hargs.length_eq
  rw [List.length_map] at hlength
  have hparams : Value.evalAll I (Store.start args) ((List.range r.args.length).map .param) =
      some args := by
    rw [← hlength]
    refine Value.evalAll_range fun i => ?_
    rw [Value.eval, Value.yield, Store.start]
    cases args[i]? <;> rfl
  refine .bind (simulates_matchAll hc r.args hsargs htargs hargs hparams ht rfl
    fun _ _ _ hx => by cases hx) (fun _ => (effect_guards rs r.guards).bind fun _ =>
      effect_expr rs r.result) ?_
  rintro _ env d' τ henv ⟨ht', -⟩
  have hkeys := CheckedPattern.meetAll_keys r.args henv
  have henvt : Env.Typed rs r.vars env :=
    CheckedPattern.meetAll_typed hc r.args htargs hargs (fun _ _ _ hx => by cases hx) henv
  have hshows : env.Shows (Visible.bind r.vars [] (CheckedPattern.definedAll r.args)) :=
    Env.Shows.nil.extend hkeys
  have hfree' := hfree.extend (List.Subset.refl _) hkeys
  refine .bind (simulates_guards hc r.guards hsguards htguards hfree'.left ht' hshows henvt)
    (fun _ => effect_expr rs r.result) ?_
  rintro _ env' d'' υ henv' ⟨ht'', -⟩
  have hkeys' := CheckedGuard.passAll_keys r.guards henv'
  have hsub : CheckedGuard.boundAll r.guards ⊆ r.guards.flatMap CheckedGuard.defined := by
    intro v hv
    obtain ⟨g, hg, hv⟩ := List.mem_flatMap.mp hv
    exact List.mem_flatMap.mpr ⟨g, hg, List.mem_append_right _ hv⟩
  refine (simulates_expr hc r.result hsresult htresult (hfree'.extend hsub hkeys') ht''
    (hshows.extend hkeys') (CheckedGuard.passAll_typed hc r.guards htguards henvt henv')).imp ?_
  exact fun _ _ _ hq => ⟨hq.1, hq.2.1.toBacks⟩

theorem exec_block (hc : rs.Coherent) {r : CheckedRule} (hr : r.WellFormed rs)
    {args : List (Val P)} (hargs : Val.HaveTypes rs args (r.args.map CheckedPattern.type))
    (index : Nat) (d : Draft) :
    exec I (.start args) ((block rs index r).run d).1.body =
      some ((r.apply I args).elim .left .returned) := by
  obtain ⟨ts, hts, h⟩ := simulates_ruleValue (I := I) hc hr hargs (d := d.restart) rfl
  have hts : ((ruleValue rs r).run d.restart).2.body = ts := hts
  rw [run_block, body_rule, hts, List.append_assoc]
  cases happly : r.apply I args with
  | none =>
    rw [happly] at h
    exact exec_append_of_left h
  | some x =>
    rw [happly] at h
    obtain ⟨τ, hexec, hv, hbacks⟩ := h
    have hdiscards : exec I τ (ruleDraft rs r d.restart).discards = some (.running τ) := by
      refine exec_discardTemps _ fun i hi => ?_
      have hlocal := (List.mem_filter.mp hi).1
      rw [ruleDraft, Draft.mark_locals] at hlocal
      exact hbacks.declared hlocal
    rw [exec_append_of_running hexec, exec_append_of_running hdiscards, exec_singleton,
      Statement.step, hv]
    rfl

end Rules

section Functions

variable {rs : RuleSet} {P : Type} [DecidableEq P] {I : Interpretation rs P}

/-- Blocks return what the first rule that applies gives, and the last one can be left unless some
rule applies always. -/
theorem runBlocks_blocks (hc : rs.Coherent) {args : List (Val P)} (rules : List CheckedRule)
    (hrules : ∀ r ∈ rules, r.WellFormed rs ∧
      Val.HaveTypes rs args (r.args.map CheckedPattern.type)) (index : Nat) (d : Draft) :
    runBlocks I args ((blocks rs index rules).run d).1.1 =
        some (rules.findSome? fun r => r.apply I args) ∧
      ((rules.findSome? fun r => r.apply I args) = none →
        ((blocks rs index rules).run d).1.2 = true) := by
  induction rules generalizing index d with
  | nil => exact ⟨rfl, fun _ => rfl⟩
  | cons r rules ih =>
    obtain ⟨hr, hargs⟩ := hrules r List.mem_cons_self
    have hexec := exec_block (I := I) hc hr hargs index d
    obtain ⟨ihrun, ihfalls⟩ := ih (fun r' hr' => hrules r' (List.mem_cons_of_mem r hr'))
      (index + 1) ((block rs index r).run d).2
    rw [blocks, run_bind]
    cases hbreaks : ((block rs index r).run d).1.breaks with
    | true =>
      simp only [if_true, run_bind, run_pure]
      rw [runBlocks, hexec, List.findSome?_cons]
      cases happly : r.apply I args with
      | some x => exact ⟨rfl, fun h => by cases h⟩
      | none => exact ⟨ihrun, ihfalls⟩
    | false =>
      simp only [Bool.false_eq_true, if_false, run_pure]
      rw [runBlocks, hexec, List.findSome?_cons]
      cases happly : r.apply I args with
      | some x => exact ⟨rfl, fun h => by cases h⟩
      | none =>
        rw [happly] at hexec
        -- The block was left, against what its statements can do.
        have hany := exec_left_breaks hexec
        rw [Block.breaks] at hbreaks
        rw [hbreaks] at hany
        cases hany

end Functions

end TermRules.Zig

namespace TermRules

namespace Zig

/-- The generated function of a term computes the meaning of the term, for each interpretation of
the functions that it calls and for all arguments of the declared types. -/
theorem run_ofTerm (batches : List (List Definition)) {P : Type} [DecidableEq P]
    (I : Interpretation (RuleSet.afterAll batches) P) (term : TermId) (args : List (Val P))
    (hargs : Val.HaveTypes (RuleSet.afterAll batches) args
      ((RuleSet.afterAll batches).termInfo term).args) :
    (Function.ofTerm (RuleSet.afterAll batches) term).run I args =
      some (RuleSet.meaning I term args) := by
  obtain ⟨hc, hwf⟩ := RuleSet.afterAll_sound batches
  generalize RuleSet.afterAll batches = rs at *
  have hrules : ∀ r ∈ rs.rulesFor term, r.WellFormed rs ∧
      Val.HaveTypes rs args (r.args.map CheckedPattern.type) := by
    intro r hr
    obtain ⟨hmem, hroot⟩ := RuleSet.mem_of_mem_rulesFor hr
    have hr := hwf r hmem
    obtain ⟨-, htypes, -⟩ := RuleSet.termInfo_of_applies hr.wellTyped.1
    rw [hroot] at htypes
    exact ⟨hr, htypes ▸ hargs⟩
  obtain ⟨hrun, hfalls⟩ := runBlocks_blocks (I := I) hc (rs.rulesFor term) hrules 0 .empty
  have hblocks : (Function.ofTerm rs term).blocks =
      ((Lower.blocks rs 0 (rs.rulesFor term)).run .empty).1.1 := rfl
  have hflag : (Function.ofTerm rs term).fallsThrough =
      ((Lower.blocks rs 0 (rs.rulesFor term)).run .empty).1.2 := rfl
  have hterm : (Function.ofTerm rs term).term = term := rfl
  rw [Function.run, hblocks, hrun, hflag, hterm, RuleSet.meaning]
  cases happly : (rs.rulesFor term).findSome? fun r => r.apply I args with
  | some x => rfl
  | none =>
    rw [hfalls happly]
    rfl

end Zig

namespace RuleSet

theorem letSample_terms : ∀ info ∈ (afterAll [Definition.letSample]).terms.entries.toList,
    info.args = [1] ∧ info.ret = 1 ∧ info.extractor = .missing := by decide +kernel

theorem letSample_term {t : TermId} {info : TermInfo}
    (h : (afterAll [Definition.letSample]).terms.get? t = some info) :
    info.args = [1] ∧ info.ret = 1 ∧ info.extractor = .missing := by
  refine letSample_terms info ?_
  rw [Array.mem_toList_iff]
  exact Array.mem_of_getElem? h

def letSampleInterpretation : Interpretation (afterAll [Definition.letSample]) Int where
  numeral n := n
  build _ xs := xs.head?
  find _ _ := none
  build_total {t info xs} hget _ _ hxs := by
    rw [(letSample_term hget).1] at hxs
    cases xs with
    | nil => exact hxs.elim
    | cons x xs => rfl
  build_typed {t info xs y} hget _ hxs hy := by
    obtain ⟨hargs, hret, -⟩ := letSample_term hget
    rw [hargs] at hxs
    cases xs with
    | nil => cases hy
    | cons x xs =>
      cases hy
      rw [hret]
      exact hxs.1
  find_total hget he := by
    rw [(letSample_term hget).2.2] at he
    cases he
  find_typed hget he := by
    rw [(letSample_term hget).2.2] at he
    cases he

end RuleSet

namespace Zig

theorem run_ofTerm_letSample :
    (Function.ofTerm (RuleSet.afterAll [Definition.letSample]) 0).run
      RuleSet.letSampleInterpretation [.prim 7] = some (.value (.prim 7)) := by
  have hargs : Val.HaveTypes (RuleSet.afterAll [Definition.letSample]) [(.prim 7 : Val Int)]
      ((RuleSet.afterAll [Definition.letSample]).termInfo 0).args := by
    have htypes : ((RuleSet.afterAll [Definition.letSample]).termInfo 0).args = [1] := by
      decide +kernel
    have hp : ((RuleSet.afterAll [Definition.letSample]).typeInfo 1).shape.isPrimitive = true := by
      decide +kernel
    rw [htypes]
    exact ⟨hp, trivial⟩
  have hmeaning : RuleSet.meaning RuleSet.letSampleInterpretation 0 [.prim 7] =
      .value (.prim 7) := by
    decide +kernel
  rw [run_ofTerm [Definition.letSample] RuleSet.letSampleInterpretation 0 _ hargs, hmeaning]

end Zig

end TermRules

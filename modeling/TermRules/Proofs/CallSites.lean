import TermRules.Proofs.DraftCosts

/-!
# Call sites of emitted blocks

How often an emitted block calls a function, in terms of the rule. A total call
stays in the text of its value, so it is written as often as this text is. The
values of variables carry their text along, and how often a variable is written
is known from behind: the result is written once, and a guard's value as often
as its pattern tests it and the variables that it is bound to are written.
-/

namespace TermRules

namespace Zig

open Lower

section Lowering

variable (rs : RuleSet) (c : Callee)

theorem cost_matchGuard (g : CheckedGuard) (v : Value) (d : Draft) (D : VarId → Nat)
    (hl : d.Lacks g.pattern.defined) :
    ((matchGuard rs g v).run d).2.cost c D =
      d.cost c (fun x => D x + g.pattern.equals x) + v.calls c * g.times D + g.pattern.calls c := by
  have hmatch := cost_matchPattern rs c g.pattern v d D hl
  unfold matchGuard CheckedGuard.times
  cases hp : g.pattern with
  | wildcard site =>
    cases hcall : isCall g.value with
    | true =>
      cases htemp : isTemp v with
      | true =>
        have hroot : v.root?.isSome = true := by
          unfold isTemp at htemp
          split at htemp
          · rename_i i hr
            rw [hr]
            rfl
          · cases htemp
        rw [calls_of_root c hroot, Nat.zero_mul]
        rfl
      | false =>
        change ((use v >>= fun v => emit (.discard v)).run d).2.cost c D =
          d.cost c D + v.calls c * 1 + 0
        rw [run_bind, run_use, run_emit, cost_emit, cost_mark, Nat.mul_one]
        rfl
    | false =>
      rw [hp] at hmatch
      exact hmatch
  | _ =>
    rw [hp] at hmatch
    exact hmatch

theorem cost_guard (g : CheckedGuard) (d : Draft) (D : VarId → Nat) (hl : d.Lacks g.defined) :
    ((guard rs g).run d).2.cost c D =
      d.cost c (g.demand rs D) + g.value.kept rs (.ofCallee c) +
        g.times D * g.value.inlined rs (.ofCallee c) + g.pattern.calls c := by
  have hvalue := cost_expr rs c g.value d (fun x => D x + g.pattern.equals x) (g.times D) hl.left
  have hpattern := cost_matchGuard rs c g ((expr rs g.value).run d).1
    ((expr rs g.value).run d).2 D ((effect_expr rs g.value).lacks hl)
  rw [guard_eq, run_bind, hpattern, Nat.mul_comm, hvalue]
  rfl

theorem cost_guards (gs : List CheckedGuard) (d : Draft) (D : VarId → Nat)
    (hl : d.Lacks (gs.flatMap CheckedGuard.defined)) :
    ((guards rs gs).run d).2.cost c D =
      d.cost c (CheckedGuard.demandAll rs gs D) +
        ((CheckedGuard.timesAll rs gs D).map fun p => p.1.value.kept rs (.ofCallee c) +
          p.2 * p.1.value.inlined rs (.ofCallee c) + p.1.pattern.calls c).sum := by
  induction gs generalizing d with
  | nil => rfl
  | cons g gs ih =>
    have hg := cost_guard rs c g d (CheckedGuard.demandAll rs gs D) hl.left
    have hgs := ih ((guard rs g).run d).2 ((effect_guard rs g).lacks hl)
    rw [guards, run_bind, hgs, hg, CheckedGuard.timesAll, List.map_cons, List.sum_cons]
    change _ = d.cost c (g.demand rs (CheckedGuard.demandAll rs gs D)) + _
    ring

theorem calls_discards (d : Draft) : (d.discards.map (Statement.calls c)).sum = 0 := by
  simp [Draft.discards, Function.comp_def, Statement.calls, Value.calls, List.map_const']

theorem cost_ruleValue (r : CheckedRule) (d : Draft) (hl : d.Lacks r.defined) :
    ∃ D, ((ruleValue rs r).run d).2.cost c (fun _ => 0) + ((ruleValue rs r).run d).1.calls c =
      d.cost c D + CheckedPattern.callsAll c r.args +
        ((r.guardTimes rs).map fun p => p.1.value.kept rs (.ofCallee c) +
          p.2 * p.1.value.inlined rs (.ofCallee c) + p.1.pattern.calls c).sum +
        r.result.calls rs c := by
  let params := (List.range r.args.length).map Value.param
  let matched := ((matchAll rs r.args params).run d).2
  let guarded := ((guards rs r.guards).run matched).2
  let E : VarId → Nat := fun x => r.result.kept rs (.ofVar x) + r.result.inlined rs (.ofVar x)
  have hparams : r.args.length = params.length := by
    simp only [params, List.length_map, List.length_range]
  have hnone : ∀ v ∈ params, v.calls c = 0 := by
    intro v hv
    obtain ⟨i, -, rfl⟩ := List.mem_map.mp hv
    rfl
  rw [CheckedRule.defined, List.append_assoc] at hl
  have hmatched : matched.Lacks (r.guards.flatMap CheckedGuard.defined ++ r.result.defined) :=
    (effect_matchAll rs r.args hparams).lacks hl
  have hargs := cost_matchAll rs c r.args params d (CheckedGuard.demandAll rs r.guards E) 0
    hparams hnone hl.left
  have hguards := cost_guards rs c r.guards matched E hmatched.left
  have hresult := cost_expr rs c r.result guarded (fun _ => 0) 1
    ((effect_guards rs r.guards).lacks hmatched)
  have hE : (fun x => 0 + r.result.kept rs (.ofVar x) + 1 * r.result.inlined rs (.ofVar x)) =
      E := by
    funext x
    rw [Nat.zero_add, Nat.one_mul]
  have hrun : (ruleValue rs r).run d = (expr rs r.result).run guarded := rfl
  rw [hE, Nat.one_mul, Nat.one_mul] at hresult
  change guarded.cost c E = _ at hguards
  change matched.cost c _ = _ at hargs
  rw [Nat.zero_mul, Nat.add_zero] at hargs
  refine ⟨fun x => CheckedGuard.demandAll rs r.guards E x + CheckedPattern.equalsAll x r.args, ?_⟩
  rw [hrun, hresult, hguards, hargs, r.result.calls_eq rs c, CheckedRule.guardTimes, Nat.add_assoc]

theorem calls_block_eq_cost (r : CheckedRule) (index : Nat) (d : Draft) :
    ((block rs index r).run d).1.calls c =
      ((ruleValue rs r).run d.restart).2.cost c (fun _ => 0) +
        ((ruleValue rs r).run d.restart).1.calls c := by
  rw [Block.calls, run_block, body_rule, List.map_append, List.map_append, List.sum_append,
    List.sum_append, calls_discards, Draft.cost, tableCalls_eq_zero c fun _ _ => rfl]
  rfl

theorem calls_block (r : CheckedRule) (hr : r.defined.Nodup) (index : Nat) (d : Draft) :
    ((block rs index r).run d).1.calls c =
      CheckedPattern.callsAll c r.args +
        ((r.guardTimes rs).map fun p => p.1.value.kept rs (.ofCallee c) +
          p.2 * p.1.value.inlined rs (.ofCallee c) + p.1.pattern.calls c).sum +
        r.result.calls rs c := by
  have hl : d.restart.Lacks r.defined := by
    rw [Draft.Lacks, Draft.restart, List.map_nil, List.append_nil]
    exact hr
  obtain ⟨D, hcost⟩ := cost_ruleValue rs c r d.restart hl
  have hempty : d.restart.cost c D = 0 := rfl
  rw [calls_block_eq_cost, hcost, hempty, Nat.zero_add]

end Lowering

end Zig

namespace Definition

/-- A rule whose guard calls `f` on the value of a partial call of `h` and binds the value to a
variable that nothing reads. -/
def guardSample : List Definition :=
  let name (b : UInt8) : Ident := ⟨[b], .unknown⟩
  let u := name 117
  let f := name 102
  let g := name 103
  let h := name 104
  let x := name 120
  let y := name 121
  [.type ⟨u, false, false, .primitive u, .unknown⟩,
    .decl ⟨h, [u], u, false, true, .unknown⟩,
    .external ⟨.constructor, h, h, .unknown⟩,
    .decl ⟨f, [u], u, false, false, .unknown⟩,
    .external ⟨.constructor, f, f, .unknown⟩,
    .decl ⟨g, [u], u, false, false, .unknown⟩,
    .rule {
      name := none
      priority := 0
      pattern := .term .unknown g.name [.var .unknown x.name]
      guards := [{
        pattern := .var .unknown y.name
        value := .term .unknown f.name [.term .unknown h.name [.var .unknown x.name]]
        loc := .unknown }]
      result := .var .unknown x.name
      loc := .unknown }]

end Definition

theorem CheckedGuard.sum_timesAll (rs : RuleSet) (c : Callee) (gs : List CheckedGuard)
    (D : VarId → Nat) :
    ((timesAll rs gs D).map fun p => p.1.value.kept rs (.ofCallee c) +
        p.2 * p.1.value.inlined rs (.ofCallee c) + p.1.pattern.calls c).sum +
      (gs.map fun g => g.value.inlined rs (.ofCallee c)).sum =
    (gs.map (CheckedGuard.calls rs c)).sum +
      ((timesAll rs gs D).map fun p => p.2 * p.1.value.inlined rs (.ofCallee c)).sum := by
  induction gs with
  | nil => rfl
  | cons g gs ih =>
    have hg := g.value.calls_eq rs c
    simp only [timesAll, List.map_cons, List.sum_cons, CheckedGuard.calls, hg]
    omega

namespace Zig

/-- In each emitted block every extractor is called as often as in the rule. So is a constructor,
but for the calls in the text of the guards' values: they are lost or repeated with this text. -/
theorem calls_ofTerm (batches : List (List Definition)) (term : TermId) {i : Nat} {b : Block}
    (hb : (Function.ofTerm (RuleSet.afterAll batches) term).blocks[i]? = some b) :
    ∃ r, ((RuleSet.afterAll batches).rulesFor term)[i]? = some r ∧
      (∀ t, b.calls (.extractor t) = r.calls (RuleSet.afterAll batches) (.extractor t)) ∧
      (∀ t, b.calls (.constructor t) + r.inlinedInGuards (RuleSet.afterAll batches) t =
        r.calls (RuleSet.afterAll batches) (.constructor t) +
          r.writtenInGuards (RuleSet.afterAll batches) t) ∧
      ∀ t, b.calls (.constructor t) = r.calls (RuleSet.afterAll batches) (.constructor t) ↔
        r.writtenInGuards (RuleSet.afterAll batches) t =
          r.inlinedInGuards (RuleSet.afterAll batches) t := by
  have hwf := (RuleSet.afterAll_sound batches).wellFormed
  generalize RuleSet.afterAll batches = rs at *
  obtain ⟨r, d, hr, rfl⟩ := Lower.blocks_getElem? rs (rs.rulesFor term) 0 .empty hb
  have hmem := (RuleSet.mem_of_mem_rulesFor (List.mem_of_getElem? hr)).1
  have hnodup : r.defined.Nodup := by
    rw [(hwf r hmem).numbered]
    exact List.nodup_range
  have hcalls : ∀ c, ((Lower.block rs (0 + i) r).run d).1.calls c +
      (r.guards.map fun g => g.value.inlined rs (.ofCallee c)).sum =
      r.calls rs c +
        ((r.guardTimes rs).map fun p => p.2 * p.1.value.inlined rs (.ofCallee c)).sum := by
    intro c
    have hblock := calls_block rs c r hnodup (0 + i) d
    have hguards := CheckedGuard.sum_timesAll rs c r.guards fun x =>
      r.result.kept rs (.ofVar x) + r.result.inlined rs (.ofVar x)
    rw [CheckedRule.guardTimes] at hblock ⊢
    rw [hblock, CheckedRule.calls]
    omega
  refine ⟨r, hr, fun t => ?_, fun t => hcalls (.constructor t), fun t => ?_⟩
  · have h := hcalls (.extractor t)
    simpa [CheckedExpr.inlined_extractor, List.map_const'] using h
  · have h := hcalls (.constructor t)
    rw [CheckedRule.writtenInGuards, CheckedRule.inlinedInGuards]
    omega

/-- The call of `f` is lost: the rule writes it once, and its block never does. -/
theorem calls_ofTerm_guardSample :
    ∃ b, (Function.ofTerm (RuleSet.afterAll [Definition.guardSample]) 2).blocks = [b] ∧
      b.calls (.constructor 0) = 1 ∧ b.calls (.constructor 1) = 0 ∧
      ∃ r, ((RuleSet.afterAll [Definition.guardSample]).rulesFor 2)[0]? = some r ∧
        r.calls (RuleSet.afterAll [Definition.guardSample]) (.constructor 1) ≠
          b.calls (.constructor 1) := by
  let rs := RuleSet.afterAll [Definition.guardSample]
  have hblocks : (Function.ofTerm rs 2).blocks.length = 1 := by decide +kernel
  have hcalls : (Function.ofTerm rs 2).blocks.map (fun b =>
      (b.calls (.constructor 0), b.calls (.constructor 1))) = [(1, 0)] := by decide +kernel
  have hguards : (rs.rulesFor 2).map (fun r =>
      (r.writtenInGuards rs 1, r.inlinedInGuards rs 1)) = [(0, 1)] := by decide +kernel
  obtain ⟨b, hb⟩ := List.length_eq_one_iff.mp hblocks
  rw [hb] at hcalls
  simp only [List.map_cons, List.map_nil, List.cons.injEq, Prod.mk.injEq, and_true] at hcalls
  have hb0 : (Function.ofTerm rs 2).blocks[0]? = some b := by
    rw [hb]
    rfl
  obtain ⟨r, hr, -, -, hiff⟩ := calls_ofTerm [Definition.guardSample] 2 hb0
  refine ⟨b, hb, hcalls.1, hcalls.2, r, hr, fun heq => ?_⟩
  have hbalance := (hiff 1).mp heq.symm
  have hmem : (r.writtenInGuards rs 1, r.inlinedInGuards rs 1) ∈ [(0, 1)] := by
    rw [← hguards]
    exact List.mem_map_of_mem (List.mem_of_getElem? hr)
  simp only [List.mem_singleton, Prod.mk.injEq] at hmem
  rw [hmem.1, hmem.2] at hbalance
  cases hbalance

end Zig

end TermRules

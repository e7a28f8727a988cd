import TermRules.Proofs.Acceptance
import TermRules.Proofs.FollowedChecks

/-!
# Completeness of the check

The check follows a proper checked rule: a pattern or an expression that is the
erasure of a node is answered by this node, with all variables numbered as they
are in the rule. A rule without templates is therefore accepted exactly if it is
the erasure of a proper checked rule and no guard asks for the type of an integer
constant. The answer is then the only proper one up to places.
-/

namespace TermRules

namespace Check

variable {rs : RuleSet} {vars : Array VarInfo}

section Rules

variable {s s' : Scope}

theorem exists_pattern (hrs : rs.Consistent) {c : CheckedPattern} {p : Pattern}
    (hs : s.Serves rs vars) (hcont : s.Continues c.defined) (hfresh : c.Fresh vars s.visible)
    (hscoped : c.Scoped vars s.visible) (htyped : c.Typed rs vars)
    (hlt : c.type < rs.types.size)
    (hp : p.relocate Loc.forget = (c.erase rs vars).relocate Loc.forget) :
    ∃ c' s', (pattern rs p c.type).run s = .ok c' s' ∧
      c'.renumber .forgetting = c.renumber .forgetting ∧
      s.Moves rs vars s' c.defined c.defined := by
  have hexpand := expandsWell_inside hrs rs.terms.size []
  obtain ⟨c', s', hrun, hc, hw⟩ :=
    exists_patternWith hrs hexpand c hs hcont hfresh hscoped htyped hlt hp
  rw [pattern, patternInside_eq]
  exact ⟨c', s', hrun, hc, moves_patternWith hrs hexpand hs hlt hrun hc hw⟩

theorem rootArgs_of_patternsWith {ps : List Pattern} {types : List TypeId}
    {cs : List CheckedPattern}
    (h : (patternsWith rs (expandInside rs rs.terms.size []) ps types).run s = .ok cs s') :
    rootArgs rs ps types s = ([], cs, s') := by
  induction ps generalizing types s cs with
  | nil =>
    simp only [patternsWith, run_pure_ok] at h
    obtain ⟨rfl, rfl⟩ := h
    rfl
  | cons p ps ih =>
    cases types with
    | nil =>
      simp only [patternsWith, run_pure_ok] at h
      obtain ⟨rfl, rfl⟩ := h
      rfl
    | cons type types =>
      simp only [patternsWith, run_bind_ok, run_pure_ok] at h
      obtain ⟨c, t, hp, cs, u, hps, rfl, rfl⟩ := h
      refine rootArgs_cons_ok.mpr ⟨c, t, cs, ?_, ih hps, rfl⟩
      rw [pattern, patternInside_eq]
      exact hp

theorem ruleRoot_eq {id : TermId} {info : TermInfo} {loc : Loc} {ps : List Pattern}
    (hf : rs.terms.find? info.name = some id) (found : rs.terms.get? id = some info)
    (hcount : ps.length = info.args.length) (h : info.TakesRules) :
    ruleRoot rs (.term loc info.name ps) = .ok (id, ps) := by
  simp only [ruleRoot, hf, RuleSet.termInfo_of_get? found, hcount, if_true]
  cases hc : info.constructor with
  | variant ref => exact absurd hc (h.1 ref)
  | external function loc => exact absurd hc (h.2 function loc)
  | _ => rfl

theorem names_eq {given : Option Bytes} {name : Option Ident}
    (h : (given.map fun name => (⟨name, .unknown⟩ : Ident)).map (Ident.relocate Loc.forget) =
      name.map (Ident.relocate Loc.forget)) : name.map Ident.name = given := by
  have hnames := congrArg (Option.map Ident.name) h
  rw [Option.map_map, Option.map_map, Option.map_map] at hnames
  exact hnames.symm.trans (congrFun Option.map_id given)

theorem exists_guards (hrs : rs.Consistent) (cs : List CheckedGuard)
    {gs : List Guard} (hs : s.Serves rs vars)
    (hcont : s.Continues (cs.flatMap CheckedGuard.defined))
    (hfresh : CheckedGuard.FreshAll vars cs s.visible)
    (hscoped : CheckedGuard.ScopedAll vars cs s.visible) (htyped : ∀ c ∈ cs, c.Typed rs vars)
    (hshown : ∀ g ∈ gs, ¬g.value.EndsInInt)
    (hgs : gs.map (Guard.relocate Loc.forget) =
      (cs.map (CheckedGuard.erase rs vars)).map (Guard.relocate Loc.forget)) :
    ∃ cs' s', (guards rs gs).run s = .ok cs' s' ∧
      cs'.map (CheckedGuard.renumber .forgetting) = cs.map (CheckedGuard.renumber .forgetting) ∧
      s.Moves rs vars s' (cs.flatMap CheckedGuard.defined) (CheckedGuard.boundAll cs) := by
  induction cs generalizing gs s with
  | nil =>
    obtain rfl : gs = [] := List.map_eq_nil_iff.mp hgs
    exact ⟨[], s, rfl, rfl, hs, rfl, rfl⟩
  | cons c cs ih =>
    cases gs with
    | nil => cases hgs
    | cons g gs =>
      injection hgs with hg hgs
      injection hg with hp he
      obtain ⟨hshown, hshownAll⟩ := List.forall_mem_cons.mp hshown
      obtain ⟨⟨htypedValue, htypedPattern, htype⟩, htypedAll⟩ := List.forall_mem_cons.mp htyped
      obtain ⟨hcontGuard, hcontAll⟩ := hcont.append
      obtain ⟨hcontValue, hcontPattern⟩ := hcontGuard.append
      have hexpects : Expects rs g.value c.value none :=
        ⟨fun _ h => (by cases h), fun _ => hshown⟩
      obtain ⟨value, t, hvalue, hvalueEq, hw⟩ :=
        exists_expr hrs c.value hs hcontValue hscoped.1 htypedValue hexpects he
      have hmoves := moves_expr hrs hs hexpects hvalue hvalueEq hw
      have hvisible : t.visible = s.visible := hmoves.visible_eq
      have hlt : c.pattern.type < rs.types.size :=
        htype ▸ c.value.type_lt hrs.bounded hs.known hscoped.1 htypedValue
      obtain ⟨pattern, u, hpattern, hpatternEq, hmovesPattern⟩ := exists_pattern hrs hmoves.serves
        (hcontPattern t hmoves.size_eq) (hvisible ▸ hfresh.1) (hvisible ▸ hscoped.2.1)
        htypedPattern hlt hp
      have hmovesGuard := hmoves.append hmovesPattern
      obtain ⟨rest, w, hrest, hrestEq, hmovesRest⟩ := ih hmovesPattern.serves
        (hcontAll u hmovesGuard.size_eq) (hmovesGuard.visible_eq ▸ hfresh.2)
        (hmovesGuard.visible_eq ▸ hscoped.2.2) htypedAll hshownAll hgs
      refine ⟨⟨pattern, value⟩ :: rest, w, ?_, ?_, hmovesGuard.append hmovesRest⟩
      · simp only [guards, run_bind_ok, run_pure_ok]
        rw [htype, ← CheckedExpr.type_eq hvalueEq] at hpattern
        exact ⟨value, t, hvalue, pattern, u, hpattern, rest, w, hrest, rfl, rfl⟩
      · rw [List.map_cons, List.map_cons, hrestEq, CheckedGuard.renumber, CheckedGuard.renumber,
          hpatternEq, hvalueEq]

theorem exists_rootArgs (hrs : rs.Consistent) {cs : List CheckedPattern} {ps : List Pattern}
    {types : List TypeId} (hs : s.Serves rs vars)
    (hcont : s.Continues (CheckedPattern.definedAll cs))
    (hfresh : CheckedPattern.FreshAll vars cs s.visible)
    (hscoped : CheckedPattern.ScopedAll vars cs s.visible)
    (htyped : CheckedPattern.TypedAll rs vars cs) (htypes : types = cs.map CheckedPattern.type)
    (hlt : ∀ type ∈ types, type < rs.types.size)
    (hps : Pattern.relocateAll Loc.forget ps =
      Pattern.relocateAll Loc.forget (CheckedPattern.eraseAll rs vars cs)) :
    ∃ cs' s', rootArgs rs ps types s = ([], cs', s') ∧
      CheckedPattern.renumberAll .forgetting cs' = CheckedPattern.renumberAll .forgetting cs ∧
      s.Moves rs vars s' (CheckedPattern.definedAll cs) (CheckedPattern.definedAll cs) := by
  subst htypes
  have hexpand := expandsWell_inside hrs rs.terms.size []
  obtain ⟨cs', s', hrun, hcs, hw⟩ := exists_patternsWith hrs hexpand cs hs hcont hfresh hscoped
    htyped (fun c hc => hlt _ (List.mem_map_of_mem hc)) hps
  have hcount : ps.length = (cs.map CheckedPattern.type).length := by
    rw [length_eq_of_erased hps, List.length_map]
  exact ⟨cs', s', rootArgs_of_patternsWith hrun, hcs,
    moves_patternsWith hrs hexpand hs hcount hlt hrun hcs hw⟩

/-- Every proper rule that the rule could stand for is answered. -/
theorem exists_rule (hrs : rs.Consistent) {c : CheckedRule} {r : Rule} (h : c.Fits rs r)
    (hshown : ∀ g ∈ r.guards, ¬g.value.EndsInInt) (order : Nat) :
    ∃ c', rule rs r order = .ok c' ∧ c'.placeless = c.placeless := by
  obtain ⟨⟨hnumbered, ⟨hscoped, hscopedGuards, hscopedResult⟩, ⟨hfresh, hfreshGuards⟩,
    ⟨info, found, hargs, hret, takesRules⟩, htyped, htypedGuards, htypedResult⟩, herases⟩ := h
  obtain ⟨name, priority, root, guards, result, loc⟩ := r
  simp only [CheckedRule.erase, Rule.placeless, Rule.relocate, Rule.mk.injEq] at herases
  obtain ⟨hname, rfl, hpattern, hguards, hresult, -⟩ := herases
  obtain ⟨rootLoc, ps, rfl, hf, hps⟩ := term_of_erased hrs.linked found hpattern.symm
  have hinfo := RuleSet.termInfo_of_get? found
  have hbelow := hrs.bounded.terms c.root info found
  obtain ⟨hcontLeft, hcontResult⟩ := (Scope.continues_range hnumbered).append
  obtain ⟨hcontArgs, hcontGuards⟩ := hcontLeft.append
  -- The parts are answered one after the other, each in the scope that those before it leave.
  obtain ⟨args, s, hrunArgs, hargsEq, hmovesArgs⟩ := exists_rootArgs hrs
    (Scope.serves_empty rs c.vars) hcontArgs hfresh hscoped htyped hargs hbelow.args hps
  have hvisible : Visible.bind c.vars [] (CheckedPattern.definedAll c.args) = s.visible :=
    hmovesArgs.visible_eq.symm
  rw [hvisible] at hscopedGuards hfreshGuards hscopedResult
  obtain ⟨gs, t, hrunGuards, hguardsEq, hmovesGuards⟩ := exists_guards hrs c.guards
    hmovesArgs.serves (hcontGuards s hmovesArgs.size_eq) hfreshGuards hscopedGuards htypedGuards
    hshown hguards.symm
  rw [← hmovesGuards.visible_eq] at hscopedResult
  have hmovesLeft := hmovesArgs.append hmovesGuards
  have hexpects : Expects rs result c.result (some info.ret) :=
    hret ▸ expects_some (hret ▸ hbelow.ret)
  obtain ⟨result', u, hrunResult, hresultEq, hw⟩ := exists_expr hrs c.result hmovesLeft.serves
    (hcontResult t hmovesLeft.size_eq) hscopedResult htypedResult hexpects hresult.symm
  have hmoves := hmovesLeft.append
    (moves_expr hrs hmovesLeft.serves hexpects hrunResult hresultEq hw)
  have hvars : u.vars = c.vars := hmoves.vars_eq hnumbered
  have hcount : ps.length = info.args.length := by
    rw [hargs, List.length_map, length_eq_of_erased hps]
  refine ⟨_, rule_ok.mpr ⟨c.root, ps, args, s, gs, t, result', u, ruleRoot_eq hf found hcount
    takesRules, ?_, hrunGuards, ?_, rfl⟩, ?_⟩
  · rw [hinfo]
    exact hrunArgs
  · rw [hinfo]
    exact hrunResult
  · rw [CheckedRule.placeless, CheckedRule.placeless, CheckedRule.renumber, CheckedRule.renumber,
      hguardsEq, hresultEq, hvars, ← CheckedPattern.renumberAll_eq_map, hargsEq,
      CheckedPattern.renumberAll_eq_map, names_eq hname]
    rfl

end Rules

end Check

/-- The check of rules is complete. Of a rule without templates it finds the one checked rule that
is proper and erases to the rule, provided that there is one and that no guard asks for the type of
an integer constant; in every other case it finds an error. -/
theorem RuleSet.check_complete (batches : List (List Definition)) (r : Rule) (order : Nat)
    (free : ∀ p ∈ r.patterns, p.TemplateFree (afterAll batches)) :
    let rs := afterAll batches
    let accepts := (∃ c : CheckedRule, c.Fits rs r) ∧ ∀ g ∈ r.guards, ¬g.value.EndsInInt
    (accepts → ∃ c, Check.rule rs r order = .ok c ∧ c.Fits rs r ∧
      ∀ c' : CheckedRule, c'.Fits rs r → c'.placeless = c.placeless) ∧
    (¬accepts → ∃ e es, Check.rule rs r order = .error (e :: es)) := by
  intro rs accepts
  have hrs : rs.Consistent := (afterAll_consistent batches []).1
  constructor
  · rintro ⟨⟨c, hc⟩, hshown⟩
    obtain ⟨found, hfound, -⟩ := Check.exists_rule hrs hc hshown order
    refine ⟨found, hfound, (Check.fits_of_rule free hfound).1, fun c' hc' => ?_⟩
    obtain ⟨found', hfound', heq⟩ := Check.exists_rule hrs hc' hshown order
    cases hfound.symm.trans hfound'
    exact heq.symm
  · intro hrejected
    cases hcheck : Check.rule rs r order with
    | ok c =>
      obtain ⟨hfits, hshown⟩ := Check.fits_of_rule free hcheck
      exact absurd ⟨⟨c, hfits⟩, hshown⟩ hrejected
    | error es =>
      obtain ⟨e, es, rfl⟩ :=
        List.exists_cons_of_ne_nil ((Check.explained_rule rs r order).errors_ne_nil hcheck)
      exact ⟨e, es, rfl⟩

/-- The rule of the sample is the erasure of its answer; with a free name as its result no proper
rule erases to it. -/
theorem RuleSet.check_complete_letSample :
    let rs := afterAll [Definition.letSample]
    (∀ r ∈ Definition.letSample.filterMap Definition.rule?, ∃ c, Check.rule rs r 0 = .ok c ∧
      c.Fits rs r ∧ ∀ c' : CheckedRule, c'.Fits rs r → c'.placeless = c.placeless) ∧
    (∀ c : CheckedRule, ¬c.Fits rs Rule.strayResult) ∧
      ∃ e es, Check.rule rs Rule.strayResult 0 = .error (e :: es) := by
  intro rs
  have hrules : (Definition.letSample.filterMap Definition.rule?).all fun r =>
      (Check.rule rs r 0).toOption.isSome := by decide +kernel
  have hstray : (Check.rule rs Rule.strayResult 0).toOption.isSome = false := by decide +kernel
  constructor
  · intro r hr
    have haccepted := List.all_eq_true.mp hrules r hr
    have hcomplete := check_complete [Definition.letSample] r 0 (by
      intro p hp use huse
      obtain rfl := List.mem_singleton.mp hr
      obtain rfl := List.mem_singleton.mp hp
      cases huse)
    refine hcomplete.1 (by_contra fun hnot => ?_)
    obtain ⟨e, es, herror⟩ := hcomplete.2 hnot
    rw [herror] at haccepted
    cases haccepted
  · have hcomplete := check_complete [Definition.letSample] Rule.strayResult 0 (by
      intro p hp use huse
      obtain rfl := List.mem_singleton.mp hp
      cases huse)
    have hnone : ∀ c : CheckedRule, ¬c.Fits rs Rule.strayResult := by
      intro c hc
      obtain ⟨c', haccepted, -⟩ := hcomplete.1 ⟨⟨c, hc⟩, fun _ hg => by cases hg⟩
      rw [haccepted] at hstray
      cases hstray
    exact ⟨hnone, hcomplete.2 fun ⟨⟨c, hc⟩, _⟩ => hnone c hc⟩

end TermRules

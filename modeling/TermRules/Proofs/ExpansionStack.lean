import TermRules.Proofs.DefinitionOrder
import TermRules.Proofs.Erasure
import TermRules.Proofs.SharedStack

/-!
# The stack of expansions

The terms under expansion form one stack, which all checks of a run share: a
term is pushed before its instance is checked and popped behind it, whether or
not the instance passes. Only the stack bounds how deep instances nest: the depth
that the checks below have as an argument is read by none of them, and a check
that goes deeper never comes back. The stack refuses a term that it holds, so for
every large enough depth a check comes back with the same answer, with the stack
that it began with, and leaves nothing to the next one but the scope.
-/

namespace TermRules

namespace Checking

variable {rs : RuleSet} {bound : Nat} {stack : List TermId}

def rootArgs (rs : RuleSet) (depth : Nat) : List Pattern → List TypeId →
    StateT Checker Option (List SemanticError × List CheckedPattern)
  | p :: ps, type :: types => do
      match ← (pattern rs depth p type).run with
      | .ok c =>
          let (errors, cs) ← rootArgs rs depth ps types
          return (errors, c :: cs)
      | .error e =>
          let (errors, cs) ← rootArgs rs depth ps types
          return (e :: errors, cs)
  | _, _ => return ([], [])

def guards (rs : RuleSet) (depth : Nat) : List Guard → Checking (List CheckedGuard)
  | [] => return []
  | g :: gs => do
      let value ← lift (Check.expr rs g.value none)
      let pattern ← pattern rs depth g.pattern value.type
      let rest ← guards rs depth gs
      return ⟨pattern, value⟩ :: rest

def ruleBody (rs : RuleSet) (depth : Nat) (r : Rule) (ret : TypeId) :
    Checking (List CheckedGuard × CheckedExpr) := do
  let guards ← guards rs depth r.guards
  let result ← lift (Check.expr rs r.result (some ret))
  return (guards, result)

def rule (rs : RuleSet) (depth : Nat) (r : Rule) (order : Nat) :
    StateT Checker Option (Except (List SemanticError) CheckedRule) :=
  match Check.ruleRoot rs r.pattern with
  | .error e => return .error [e]
  | .ok (root, patterns) => do
      let term := rs.termInfo root
      modify fun m => { m with scope := .empty }
      match ← rootArgs rs depth patterns term.args with
      | (e :: errors, _) => return .error (e :: errors)
      | ([], args) =>
          match ← (ruleBody rs depth r term.ret).run with
          | .error e => return .error [e]
          | .ok (guards, result) =>
              return .ok {
                root, args, guards, result, order
                name := r.name.map Ident.name
                priority := r.priority
                vars := (← get).scope.vars
                loc := r.loc }

def enter (a : Analysis) : Except (List SemanticError) CheckedRule → Analysis
  | .ok c => { a with ruleSet := { a.ruleSet with rules := a.ruleSet.rules.push c } }
  | .error errors => a.refuse errors

def addRules (depth : Nat) :
    List Bytes → Nat → Analysis → List Rule → StateT Checker Option Analysis
  | _, _, a, [] => return a
  | names, order, a, r :: rules =>
      match r.name with
      | none => do
          addRules depth names (order + 1) (enter a (← rule a.ruleSet depth r order)) rules
      | some i =>
          if i.name ∈ names then
            addRules depth names order (a.refuse [⟨i.loc, .duplicateRule i.name⟩]) rules
          else do
            addRules depth (i.name :: names) (order + 1)
              (enter a (← rule a.ruleSet depth r order)) rules

theorem agrees_guards : ∀ gs : List Guard,
    Agrees rs.terms.size [] (fun depth => guards rs depth gs) (Check.guards rs gs)
  | [] => agrees_pure _
  | g :: gs => by
      refine (agrees_lift _).bind fun value => ?_
      refine Agrees.bind ?_ fun _ => (agrees_guards gs).bind fun _ => agrees_pure _
      exact agrees_patternInside rs.terms.size g.pattern value.type (unexpanded_nil rs).le

theorem agrees_ruleBody (rs : RuleSet) (r : Rule) (ret : TypeId) :
    Agrees rs.terms.size [] (fun depth => ruleBody rs depth r ret) (Check.ruleBody rs r ret) :=
  (agrees_guards r.guards).bind fun _ => (agrees_lift _).bind fun _ => agrees_pure _

section Ends

variable {α β : Type} {s t u : Scope} {a : α} {b : β}

def Ends (bound : Nat) (x : Nat → StateT Checker Option α) (s : Scope) (a : α) (t : Scope) :
    Prop :=
  ∀ held, ∃ held', (∀ stack ∈ held', stack.Nodup) ∧
    ∀ depth, bound < depth → (x depth).run ⟨s, [], held⟩ = some (a, ⟨t, [], held ++ held'⟩)

theorem ends_pure (bound : Nat) (a : α) (s : Scope) : Ends bound (fun _ => pure a) s a s := by
  intro held
  exact ⟨[], by simp, fun _ _ => by rw [List.append_nil]; rfl⟩

theorem Ends.bind {x : Nat → StateT Checker Option α} {f : Nat → α → StateT Checker Option β}
    (h : Ends bound x s a t) (hf : Ends bound (fun depth => f depth a) t b u) :
    Ends bound (fun depth => x depth >>= f depth) s b u := by
  intro held
  obtain ⟨held', hheld', hx⟩ := h held
  obtain ⟨held'', hheld'', hfa⟩ := hf (held ++ held')
  refine ⟨held' ++ held'', fun stack hstack => ?_, fun depth hdepth => ?_⟩
  · rcases List.mem_append.mp hstack with hstack | hstack
    · exact hheld' stack hstack
    · exact hheld'' stack hstack
  · rw [StateT.run_bind, hx depth hdepth, ← List.append_assoc]
    exact hfa depth hdepth

theorem Agrees.ends {x : Nat → Checking α} {y : Check α} (h : Agrees bound [] x y) (s : Scope) :
    Ends bound (fun depth => (x depth).run) s (answer (y.run s)).1 (answer (y.run s)).2 := by
  intro held
  obtain ⟨held', hheld', hx⟩ := h ⟨s, [], held⟩ rfl
  exact ⟨held', hheld' List.nodup_nil, hx⟩

end Ends

theorem ends_pattern (rs : RuleSet) (p : Pattern) (type : TypeId) (s : Scope) :
    Ends rs.terms.size (fun depth => (pattern rs depth p type).run) s
      (answer ((Check.pattern rs p type).run s)).1
      (answer ((Check.pattern rs p type).run s)).2 :=
  (agrees_patternInside rs.terms.size p type (unexpanded_nil rs).le).ends s

theorem ends_rootArgs (rs : RuleSet) (ps : List Pattern) (types : List TypeId) (s : Scope) :
    Ends rs.terms.size (fun depth => rootArgs rs depth ps types) s
      ((Check.rootArgs rs ps types s).1, (Check.rootArgs rs ps types s).2.1)
      (Check.rootArgs rs ps types s).2.2 := by
  induction ps generalizing types s with
  | nil => exact ends_pure _ _ s
  | cons p ps ih =>
    cases types with
    | nil => exact ends_pure _ _ s
    | cons type types =>
      have hp := ends_pattern rs p type s
      rw [Check.rootArgs]
      cases hc : (Check.pattern rs p type).run s with
      | ok c t =>
        rw [hc] at hp
        exact hp.bind ((ih types t).bind (ends_pure _ _ _))
      | error e t =>
        rw [hc] at hp
        exact hp.bind ((ih types t).bind (ends_pure _ _ _))

theorem ends_rule (rs : RuleSet) (r : Rule) (order : Nat) (s : Scope) :
    ∃ t, Ends rs.terms.size (fun depth => rule rs depth r order) s (Check.rule rs r order) t := by
  simp only [rule, Check.rule]
  rcases Check.ruleRoot rs r.pattern with e | ⟨root, patterns⟩
  · exact ⟨s, ends_pure _ _ s⟩
  · have hempty : Ends rs.terms.size
        (fun _ => modify fun m : Checker => { m with scope := .empty }) s () .empty := by
      intro held
      exact ⟨[], by simp, fun _ _ => by rw [List.append_nil]; rfl⟩
    have hargs := ends_rootArgs rs patterns (rs.termInfo root).args .empty
    dsimp only
    rcases hcs : Check.rootArgs rs patterns (rs.termInfo root).args .empty with
      ⟨_ | ⟨e, errors⟩, args, t⟩
    · rw [hcs] at hargs
      have hbody := (agrees_ruleBody rs r (rs.termInfo root).ret).ends t
      dsimp only
      rcases hr : (Check.ruleBody rs r (rs.termInfo root).ret).run t with ⟨⟨gs, result⟩, u⟩ | ⟨e, u⟩
      · rw [hr] at hbody
        -- The variables of the rule are read off the last scope.
        refine ⟨u, hempty.bind (hargs.bind (hbody.bind fun held => ⟨[], by simp, fun _ _ => ?_⟩))⟩
        rw [List.append_nil]
        rfl
      · rw [hr] at hbody
        exact ⟨u, hempty.bind (hargs.bind (hbody.bind (ends_pure _ _ u)))⟩
    · rw [hcs] at hargs
      exact ⟨t, hempty.bind (hargs.bind (ends_pure _ _ t))⟩

theorem enter_rule (a : Analysis) (r : Rule) (order : Nat) :
    enter a (Check.rule a.ruleSet r order) = a.attempt (RuleSet.addRule r order) := by
  rw [Analysis.attempt, RuleSet.addRule]
  cases Check.rule a.ruleSet r order <;> rfl

theorem terms_enter (a : Analysis) (x : Except (List SemanticError) CheckedRule) :
    (enter a x).ruleSet.terms = a.ruleSet.terms := by
  cases x <;> rfl

theorem addRules_refused {names : List Bytes} {r : Rule} {i : Ident} (hname : r.name = some i)
    (hi : i.name ∈ names) (depth order : Nat) (a : Analysis) (rules : List Rule) :
    addRules depth names order a (r :: rules) =
      addRules depth names order (a.refuse [⟨i.loc, .duplicateRule i.name⟩]) rules := by
  obtain ⟨name, priority, pattern, guards, result, loc⟩ := r
  subst hname
  exact if_pos hi

theorem addRules_attempted {names : List Bytes} {r : Rule}
    (hname : ∀ i, r.name = some i → i.name ∉ names) (depth order : Nat) (a : Analysis)
    (rules : List Rule) :
    addRules depth names order a (r :: rules) =
      rule a.ruleSet depth r order >>= fun c =>
        addRules depth ((r.name.map Ident.name).toList ++ names) (order + 1) (enter a c) rules := by
  obtain ⟨name, priority, pattern, guards, result, loc⟩ := r
  cases name with
  | none => rfl
  | some i => exact if_neg (hname i rfl)

theorem ends_addRules (bound : Nat) (names : List Bytes) (order : Nat) (a : Analysis)
    (hbound : a.ruleSet.terms.size = bound) (rules : List Rule) (s : Scope) :
    ∃ t, Ends bound (fun depth => addRules depth names order a rules) s
      (RuleSet.addRules names order a rules) t := by
  induction rules generalizing names order a s with
  | nil => exact ⟨s, ends_pure _ _ s⟩
  | cons r rules ih =>
    by_cases hfree : ∀ i, r.name = some i → i.name ∉ names
    · obtain ⟨t, hr⟩ := ends_rule a.ruleSet r order s
      obtain ⟨u, hrules⟩ := ih ((r.name.map Ident.name).toList ++ names) (order + 1)
        (enter a (Check.rule a.ruleSet r order)) (by rw [terms_enter, hbound]) t
      rw [hbound] at hr
      simp only [addRules_attempted hfree]
      rw [RuleSet.addRules_attempted hfree, ← enter_rule]
      exact ⟨u, hr.bind hrules⟩
    · push Not at hfree
      obtain ⟨i, hname, hi⟩ := hfree
      simp only [addRules_refused hname hi]
      rw [RuleSet.addRules_refused hname hi]
      exact ih names order (a.refuse _) hbound s

end Checking

theorem Pattern.Settles.not_endless {rs : RuleSet} {p : Pattern} (h : p.Settles rs) :
    ∀ f : Nat → Pattern, f 0 = p → ¬∀ n, (f n).Unfolds rs (f (n + 1)) := by
  induction h with
  | intro p _ ih =>
    rintro f rfl hf
    exact ih (f 1) (hf 0) (fun n => f (n + 1)) rfl fun n => hf (n + 1)

theorem RuleSet.check_addRules (rs : RuleSet) (names : List Bytes) (order : Nat)
    (errors : List SemanticError) (before : List Rule) (r : Rule) (place : Nat) :
    Check.rule (addRules names order ⟨rs, errors⟩ before).ruleSet r place =
      (Check.rule rs r 0).map fun c => { c with order := place } := by
  obtain ⟨rules, hrules⟩ := perform_ofRules names order ⟨rs, errors⟩ before
  rw [addRules_eq_perform, hrules, checkRule_withRules, Check.rule_placed]

/-- Each check of a pattern ends, whatever the templates are: from some depth on it makes no
difference how deep instances may nest. It ends with the stack of expansions that it began with,
and no stack on the way holds a term twice. What a rule is checked to, apart from its place,
depends on no rule that was checked before. A pattern that can be unfolded for ever is refused. -/
theorem RuleSet.expansions_end (rs : RuleSet) :
    (∀ (p : Pattern) (type : TypeId) (m : Checker), ∃ answer scope held,
      (∀ depth, rs.terms.size < depth → (Checking.pattern rs depth p type).run.run m =
          some (answer, ⟨scope, m.expanding, m.held ++ held⟩)) ∧
        (m.expanding.Nodup → ∀ stack ∈ held, stack.Nodup) ∧
        (m.expanding = [] →
          (answer, scope) = Checking.answer ((Check.pattern rs p type).run m.scope))) ∧
      (∀ (names : List Bytes) (order : Nat) (errors : List SemanticError) (before : List Rule)
        (m : Checker), m.expanding = [] →
          let a := addRules names order ⟨rs, errors⟩ before
          ∃ m', (∀ depth, rs.terms.size < depth →
              (Checking.addRules depth names order ⟨rs, errors⟩ before).run m = some (a, m')) ∧
            ∀ (r : Rule) (place : Nat), ∃ m'', ∀ depth, rs.terms.size < depth →
              (Checking.rule a.ruleSet depth r place).run m' =
                some ((Check.rule rs r 0).map fun c => { c with order := place }, m'')) ∧
      ∀ f : Nat → Pattern, (∀ n, (f n).Unfolds rs (f (n + 1))) → ∀ (type : TypeId) (m : Checker),
        ∃ e m', ∀ depth, rs.terms.size < depth →
          (Checking.pattern rs depth (f 0) type).run.run m = some (.error e, m') := by
  refine ⟨fun p type m => ?_, fun names order errors before m hm => ?_, fun f hf type m => ?_⟩
  · obtain ⟨held, hheld, hrun⟩ := Checking.agrees_patternInside _ p type le_rfl m rfl
    have hbound := Checking.unexpanded_le rs m.expanding
    refine ⟨_, _, held, fun depth hdepth => hrun depth (hbound.trans_lt hdepth), hheld,
      fun hm => ?_⟩
    rw [hm, Checking.unexpanded_nil]
    rfl
  · intro a
    obtain ⟨s, stack, held⟩ := m
    subst hm
    have hterms : a.ruleSet.terms.size = rs.terms.size := by
      obtain ⟨rules, hrules⟩ := perform_ofRules names order ⟨rs, errors⟩ before
      rw [show a = _ from addRules_eq_perform .., hrules]
    obtain ⟨t, ht⟩ := Checking.ends_addRules _ names order ⟨rs, errors⟩ rfl before s
    obtain ⟨held', -, hrun⟩ := ht held
    refine ⟨_, hrun, fun r place => ?_⟩
    obtain ⟨u, hu⟩ := Checking.ends_rule a.ruleSet r place t
    obtain ⟨held'', -, hrule⟩ := hu (held ++ held')
    rw [check_addRules, hterms] at hrule
    exact ⟨_, hrule⟩
  · obtain ⟨held, -, hrun⟩ := Checking.agrees_patternInside _ (f 0) type le_rfl m rfl
    have hbound := Checking.unexpanded_le rs m.expanding
    cases hcheck : (Check.patternInside rs (Checking.unexpanded rs m.expanding) m.expanding (f 0)
        type).run m.scope with
    | ok c s =>
      obtain ⟨q, hq⟩ := Check.exists_unfolded_inside _ _ hcheck
      exact absurd hf (hq.settles.not_endless f rfl)
    | error e s =>
      rw [hcheck] at hrun
      exact ⟨e, _, fun depth hdepth => hrun depth (hbound.trans_lt hdepth)⟩

namespace Definition

def loopUse : Pattern := .term .unknown [108] [.var .unknown [97]]

def loopRule : Rule where
  name := none
  priority := 0
  pattern := .term .unknown [103] [loopUse]
  guards := []
  result := .int .unknown ⟨false, 0⟩
  loc := .unknown

def loopSample : List Definition :=
  let name (b : UInt8) : Ident := ⟨[b], .unknown⟩
  let u := name 117
  let decl (b : UInt8) : Definition := .decl ⟨name b, [u], u, false, false, .unknown⟩
  [.type ⟨u, false, false, .primitive u, .unknown⟩, decl 108, decl 103,
    .template ⟨name 108, [name 97], loopUse, .unknown⟩, .rule loopRule]

end Definition

/-- The use of `l` can be unfolded for ever. It is refused, in one rule after the other. -/
theorem RuleSet.expansions_end_loopSample :
    let rs := (empty.analyze Definition.loopSample).1
    (∃ e m', (Checking.pattern rs 4 Definition.loopUse 1).run.run ⟨.empty, [], []⟩ =
        some (.error e, m')) ∧
      (∃ answer scope held, (Checking.pattern rs 4 Definition.loopUse 1).run.run ⟨.empty, [], []⟩ =
          some (answer, ⟨scope, [], held⟩) ∧
        (∀ stack ∈ held, stack.Nodup) ∧
        (answer, scope) = Checking.answer ((Check.pattern rs Definition.loopUse 1).run .empty)) ∧
      ∃ m', (Checking.addRules 4 [] 0 ⟨rs, []⟩ [Definition.loopRule]).run ⟨.empty, [], []⟩ =
          some (addRules [] 0 ⟨rs, []⟩ [Definition.loopRule], m') ∧
        ∃ m'', (Checking.rule (addRules [] 0 ⟨rs, []⟩ [Definition.loopRule]).ruleSet 4
          Definition.loopRule 1).run m' = some ((Check.rule rs Definition.loopRule 0).map
            fun c => { c with order := 1 }, m'') := by
  intro rs
  have htemplate : rs.template? [108] =
      some ⟨⟨[108], .unknown⟩, [⟨[97], .unknown⟩], Definition.loopUse, .unknown⟩ := by
    with_unfolding_all rfl
  have hloop : Definition.loopUse.Unfolds rs Definition.loopUse := .use htemplate
  obtain ⟨hpattern, hrules, hendless⟩ := expansions_end rs
  have hdepth : rs.terms.size < 4 := by decide +kernel
  obtain ⟨e, refused, hrefused⟩ := hendless (fun _ => Definition.loopUse) (fun _ => hloop) 1 _
  obtain ⟨answer, scope, held, hrun, hheld, hanswer⟩ :=
    hpattern Definition.loopUse 1 ⟨.empty, [], []⟩
  obtain ⟨m', hbefore, hrule⟩ := hrules [] 0 [] [Definition.loopRule] ⟨.empty, [], []⟩ rfl
  obtain ⟨m'', hafter⟩ := hrule Definition.loopRule 1
  exact ⟨⟨e, refused, hrefused 4 hdepth⟩,
    ⟨answer, scope, held, hrun 4 hdepth, hheld List.nodup_nil, hanswer rfl⟩,
    m', hbefore 4 hdepth, m'', hafter 4 hdepth⟩

end TermRules

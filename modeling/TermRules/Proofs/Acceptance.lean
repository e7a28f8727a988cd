import TermRules.Proofs.AcceptedEntries

/-!
# Accepted definitions

An analysis finds no error exactly when all its entries are accepted one after
the other, no type has two variants of one name, no two rules have one name, and
every rule passes its check against the finished types and terms.
-/

namespace TermRules

namespace RuleSet

theorem accepted_markRules (a : Analysis) (rules : List Rule) :
    (a.markRules rules).accepted = a.accepted.bind (Entry.enterAll (rules.map .mark)) := by
  rw [← Analysis.accepted_foldl_attempt]
  congr 1
  induction rules generalizing a with
  | nil => rfl
  | cons r rules ih => exact ih { a with ruleSet := a.ruleSet.markInternal r }

end RuleSet

def Rule.names (rules : List Rule) : List Bytes := rules.filterMap fun r => r.name.map Ident.name

def Check.Passes (rs : RuleSet) : List (Rule × Nat) → List CheckedRule → Prop :=
  List.Forall₂ fun p c => Check.rule rs p.1 p.2 = .ok c

theorem Check.passes_cons {rs : RuleSet} {p : Rule × Nat} {ps : List (Rule × Nat)}
    {cs : List CheckedRule} :
    Passes rs (p :: ps) cs ↔ ∃ c cs', Check.rule rs p.1 p.2 = .ok c ∧ Passes rs ps cs' ∧
      cs = c :: cs' :=
  List.forall₂_cons_left_iff

theorem Rule.names_cons (r : Rule) (rules : List Rule) :
    names (r :: rules) = (r.name.map Ident.name).toList ++ names rules := by
  rw [names, List.filterMap_cons]
  cases r.name <;> rfl

theorem Rule.names_free {names : List Bytes} {r : Rule}
    (hfree : ∀ i, r.name = some i → i.name ∉ names) (rules : List Rule) :
    (Rule.names rules).Nodup ∧
        (Rule.names rules).Disjoint ((r.name.map Ident.name).toList ++ names) ↔
      (Rule.names (r :: rules)).Nodup ∧ (Rule.names (r :: rules)).Disjoint names := by
  rw [Rule.names_cons]
  cases hname : r.name with
  | none => rfl
  | some i =>
    have hi := hfree i hname
    simp only [Option.map_some, Option.toList_some, List.singleton_append, List.nodup_cons,
      List.disjoint_cons_left, List.disjoint_cons_right, hi, not_false_eq_true, true_and]
    tauto

namespace RuleSet

theorem accepted_addRules {a : Analysis} (names : List Bytes) (order : Nat) (rules : List Rule)
    (s : RuleSet) :
    (addRules names order a rules).accepted = some s ↔
      ((Rule.names rules).Nodup ∧ (Rule.names rules).Disjoint names) ∧ a.errors = [] ∧
        ∃ cs, Check.Passes a.ruleSet (rules.zipIdx order) cs ∧
          { a.ruleSet with rules := a.ruleSet.rules ++ cs.toArray } = s := by
  induction rules generalizing names order a with
  | nil =>
    change a.accepted = some s ↔ _
    simp [Analysis.accepted_eq_some, Rule.names, Check.Passes]
  | cons r rules ih =>
    rcases addRules_cons names order a r rules with
      ⟨i, hname, htaken, hrefused⟩ | ⟨hfree, hattempted⟩
    · rw [hrefused, ih (a := a.refuse _), Rule.names_cons, hname]
      simp [Analysis.refuse, htaken]
    · rw [hattempted]
      have hexplained := Check.explained_rule a.ruleSet r order
      cases hcheck : Check.rule a.ruleSet r order with
      | error es =>
        rw [hcheck, explained_error] at hexplained
        have hattempt : a.attempt (addRule r order) = a.refuse es := by
          rw [Analysis.attempt, addRule, hcheck]
          rfl
        have herrors : (a.refuse es).errors ≠ [] := by simp [Analysis.refuse, hexplained]
        rw [hattempt, ih (a := a.refuse es), List.zipIdx_cons]
        constructor
        · rintro ⟨-, herrors, -⟩
          exact absurd (List.append_eq_nil_iff.mp herrors).2 hexplained
        · rintro ⟨-, -, cs, hpasses, -⟩
          obtain ⟨c, cs', hc, -⟩ := Check.passes_cons.mp hpasses
          rw [hcheck] at hc
          cases hc
      | ok c =>
        -- The checked rule joins the others, which the later checks do not read.
        have hattempt : a.attempt (addRule r order) =
            ⟨{ a.ruleSet with rules := a.ruleSet.rules.push c }, a.errors⟩ := by
          rw [Analysis.attempt, addRule, hcheck]
          rfl
        have hrest := ih (a := ⟨{ a.ruleSet with rules := a.ruleSet.rules.push c }, a.errors⟩)
          ((r.name.map Ident.name).toList ++ names) (order + 1)
        rw [hattempt, hrest, Rule.names_free hfree, List.zipIdx_cons]
        refine and_congr_right fun _ => and_congr_right fun herrors => ?_
        have hpasses (cs : List CheckedRule) :
            Check.Passes { a.ruleSet with rules := a.ruleSet.rules.push c }
              (rules.zipIdx (order + 1)) cs ↔
            Check.Passes a.ruleSet (rules.zipIdx (order + 1)) cs := by
          simp only [Check.Passes, RuleSet.checkRule_withRules]
        simp only [Check.passes_cons, hpasses, hcheck]
        constructor
        · rintro ⟨cs, hcs, rfl⟩
          exact ⟨c :: cs, ⟨c, cs, rfl, hcs, rfl⟩, by simp⟩
        · rintro ⟨_, ⟨_, cs, hc, hcs, rfl⟩, rfl⟩
          cases hc
          exact ⟨cs, hcs, by simp⟩

end RuleSet

def Entry.ofDefinitions (defs : List Definition) : List Entry :=
  (defs.filterMap Definition.type?).map .type ++
    (defs.filterMap Definition.type?).flatMap TypeDef.variantEntries ++
    (defs.filterMap Definition.decl?).map .decl ++
    (defs.filterMap Definition.external?).map .external ++
    (defs.filterMap Definition.template?).map .template ++
    (defs.filterMap Definition.rule?).map .mark

/-- What it takes to find no error in the definitions, with the rule set that they fill and the
rules that they check. -/
structure Accepted (defs : List Definition) (rs : RuleSet) (cs : List CheckedRule) : Prop where
  variantNames : ∀ d ∈ defs.filterMap Definition.type?, (d.variants.map (·.name.name)).Nodup
  ruleNames : (Rule.names (defs.filterMap Definition.rule?)).Nodup
  entered : Entry.enterAll (Entry.ofDefinitions defs) .empty = some rs
  checked : Check.Passes rs (defs.filterMap Definition.rule?).zipIdx cs

namespace RuleSet

theorem bounded_empty : Bounded .empty where
  bool := Nat.zero_lt_one
  types i info hi := by
    cases i with
    | zero =>
      cases hi
      exact fun v hv => absurd hv (Array.not_mem_empty v)
    | succ i => cases hi
  terms i info hi := by cases hi

theorem accepted_entries (defs : List Definition) (u : RuleSet) :
    let types := addTypes ⟨empty, []⟩ (defs.filterMap Definition.type?)
    let decls := (defs.filterMap Definition.decl?).foldl (fun a d => a.attempt (addDecl d)) types
    let externals :=
      (defs.filterMap Definition.external?).foldl (fun a d => a.attempt (addExternal d)) decls
    let templates :=
      (defs.filterMap Definition.template?).foldl (fun a d => a.attempt (addTemplate d)) externals
    (templates.markRules (defs.filterMap Definition.rule?)).accepted = some u ↔
      (∀ d ∈ defs.filterMap Definition.type?, (d.variants.map (·.name.name)).Nodup) ∧
        Entry.enterAll (Entry.ofDefinitions defs) .empty = some u := by
  intro types decls externals templates
  have hdecls : decls.accepted = _ := Analysis.accepted_foldl_attempt .decl types _
  have hexternals : externals.accepted = _ := Analysis.accepted_foldl_attempt .external decls _
  have htemplates : templates.accepted = _ := Analysis.accepted_foldl_attempt .template externals _
  rw [accepted_markRules, htemplates, hexternals, hdecls]
  simp only [Analysis.bind_enterAll_append]
  rw [Option.bind_eq_some_iff]
  simp only [types, accepted_addTypes, and_assoc, exists_and_left, ← Option.bind_eq_some_iff,
    Analysis.bind_enterAll_append, Entry.ofDefinitions, List.append_assoc]
  rfl

/-- Definitions are accepted exactly when all their entries are and all rules pass. -/
theorem analyze_accepted (defs : List Definition) (s : RuleSet) :
    empty.analyze defs = (s, []) ↔
      ∃ rs cs, Accepted defs rs cs ∧ { rs with rules := cs.toArray } = s := by
  have hrun : empty.analyze defs = (s, []) ↔ (Analysis.run ⟨empty, []⟩ defs).accepted = some s := by
    rw [Analysis.accepted_eq_some, analyze, Prod.mk.injEq, and_comm]
  have hentries := accepted_entries defs
  rw [hrun, Analysis.run]
  dsimp only at hentries ⊢
  generalize Analysis.markRules _ _ = marked at hentries ⊢
  have hentered (herrors : marked.errors = []) :=
    (hentries marked.ruleSet).mp (Analysis.accepted_eq_some.mpr ⟨herrors, rfl⟩)
  have hrules {rs : RuleSet} (cs : List CheckedRule)
      (h : Entry.enterAll (Entry.ofDefinitions defs) .empty = some rs) :
      rs.rules ++ cs.toArray = cs.toArray := by
    rw [Entry.enterAll_rules h]
    exact Array.empty_append
  rw [accepted_addRules]
  constructor
  · rintro ⟨⟨hnames, -⟩, herrors, cs, hcs, rfl⟩
    obtain ⟨hvariants, hentries⟩ := hentered herrors
    exact ⟨marked.ruleSet, cs, ⟨hvariants, hnames, hentries, hcs⟩, by rw [hrules cs hentries]⟩
  · rintro ⟨rs, cs, ⟨hvariants, hnames, hentries', hcs⟩, rfl⟩
    obtain ⟨herrors, rfl⟩ := Analysis.accepted_eq_some.mp ((hentries rs).mpr ⟨hvariants, hentries'⟩)
    exact ⟨⟨hnames, List.disjoint_nil_right _⟩, herrors, cs, hcs, by rw [hrules cs hentries']⟩

end RuleSet

end TermRules

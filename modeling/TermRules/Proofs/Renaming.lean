import TermRules.Proofs.Arguments
import TermRules.Proofs.JoinedFiles
import TermRules.Proofs.RenamedChecks
import TermRules.Proofs.Rendering

/-!
# Renamed variables

The variables of a rule can be renamed one to one, and the code stays. The body
of a template may have names of its own beside its parameters, and its expansion
introduces them into the scope of the rule. Nothing keeps them apart from the
variables of the rule, so a variable that shares its name with one of them has
to keep it, and no other variable may take such a name.
-/

namespace TermRules

def CheckedRule.rename (f : Bytes → Bytes) (c : CheckedRule) : CheckedRule :=
  { c with vars := c.vars.map (VarInfo.rename f) }

namespace Check

variable {rs : RuleSet} {ts : List Template} {σ : Equiv.Perm Bytes}

theorem ruleRoot_rename (f : Bytes → Bytes) {p : Pattern} {root : TermId} {args : List Pattern}
    (h : ruleRoot rs p = .ok (root, args)) :
    ruleRoot rs (p.rename f) = .ok (root, args.map (Pattern.rename f)) := by
  cases p with
  | term loc name ps =>
    rw [Pattern.rename, Pattern.renameAll_eq_map]
    simp only [ruleRoot, List.length_map] at h ⊢
    split at h
    · cases h
    · split at h
      · cases h
      · cases h
      · split_ifs at h with hcount
        cases h
        simp [*]
  | _ => cases h

variable (hts : Templated rs ts) (linked : rs.Linked)
include hts linked

theorem follows_pattern (p : Pattern) (type : TypeId)
    (hfixed : ∀ x, p.Introduces ts x → σ x = x) :
    Follows σ (pattern rs p type) (pattern rs (p.rename σ) type) :=
  follows_patternInside hts linked rs.terms.size [] p type hfixed

theorem rootArgs_rename {ps : List Pattern} {types : List TypeId} {s s' : Scope}
    {cs : List CheckedPattern} (hfixed : ∀ p ∈ ps, ∀ x, p.Introduces ts x → σ x = x)
    (h : rootArgs rs ps types s = ([], cs, s')) :
    rootArgs rs (ps.map (Pattern.rename σ)) types (s.rename σ) = ([], cs, s'.rename σ) := by
  induction ps generalizing types s cs with
  | nil =>
    cases h
    rfl
  | cons p ps ih =>
    obtain ⟨hp, hps⟩ := List.forall_mem_cons.mp hfixed
    cases types with
    | nil =>
      cases h
      rfl
    | cons type types =>
      obtain ⟨c, t, cs', hc, hcs, rfl⟩ := rootArgs_cons_ok.mp h
      exact rootArgs_cons_ok.mpr
        ⟨c, t.rename σ, cs', follows_pattern hts linked p type hp s c t hc, ih hps hcs, rfl⟩

theorem follows_guards : ∀ gs : List Guard,
    (∀ g ∈ gs, ∀ x, g.pattern.Introduces ts x → σ x = x) →
      Follows σ (guards rs gs) (guards rs (gs.map (Guard.rename σ)))
  | [], _ => follows_pure _
  | g :: gs, h => by
    obtain ⟨hg, hgs⟩ := List.forall_mem_cons.mp h
    apply (follows_expr g.value none).bind
    intro _ value _ _
    apply (follows_pattern hts linked g.pattern value.type hg).bind
    intro _ _ _ _
    exact (follows_guards gs hgs).bind fun _ _ _ _ => follows_pure _

theorem rule_rename {r : Rule} {order : Nat} {c : CheckedRule}
    (hfixed : ∀ x, r.Introduces ts x → σ x = x) (h : rule rs r order = .ok c) :
    rule rs (r.rename σ) order = .ok (c.rename σ) := by
  obtain ⟨root, patterns, args, s, gs, t, result, s', hroot, hargs, hguards, hresult, rfl⟩ :=
    rule_ok.mp h
  obtain ⟨loc, name, info, hpattern, -⟩ := ruleRoot_ok hroot
  have hpatterns (p : Pattern) (hp : p ∈ patterns ++ r.guards.map Guard.pattern) (x : Bytes)
      (hx : p.Introduces ts x) : σ x = x := by
    refine hfixed x ⟨p, ?_, hx⟩
    rwa [Rule.patterns, hpattern]
  obtain ⟨hleft, hright⟩ := List.forall_mem_append.mp hpatterns
  rw [List.forall_mem_map] at hright
  have hargs' := rootArgs_rename hts linked hleft hargs
  have hempty : Scope.empty.rename σ = Scope.empty := by
    rw [Scope.rename, Scope.empty, Array.map_empty]
    rfl
  rw [hempty] at hargs'
  exact rule_ok.mpr ⟨root, patterns.map (Pattern.rename σ), args, s.rename σ, gs, t.rename σ,
    result, s'.rename σ, ruleRoot_rename σ hroot, hargs',
    follows_guards hts linked r.guards hright s gs t hguards,
    follows_expr r.result _ t result s' hresult, rfl⟩

end Check

def CheckedRule.anonymous (c : CheckedRule) : CheckedRule := { c with vars := #[] }

namespace RuleSet

variable {rs : RuleSet} {cs cs' : List CheckedRule}
  (h : cs'.map CheckedRule.anonymous = cs.map CheckedRule.anonymous)

theorem rulesFor_anonymous (rs : RuleSet) (cs : List CheckedRule) (term : TermId) :
    (rulesFor { rs with rules := cs.toArray } term).map CheckedRule.anonymous =
      rulesFor { rs with rules := (cs.map CheckedRule.anonymous).toArray } term := by
  have hprecedes (a b : CheckedRule) : a.anonymous.precedes b.anonymous = a.precedes b := rfl
  rw [rulesFor_eq, rulesFor_eq, List.filter_map, sortStably_map hprecedes]
  rfl

include h in
theorem afterInputs_anonymous (options : Options) :
    (Zig.Setting.mk { rs with rules := cs'.toArray } options).afterInputs =
      (Zig.Setting.mk { rs with rules := cs.toArray } options).afterInputs := by
  refine Zig.Setting.afterInputs_of_blocks
    (rs.renumbered_refl.withRules cs.toArray cs'.toArray) (fun term => ?_) options
  have hblocks (rules : List CheckedRule) :
      Zig.Lower.blocks { rs with rules := cs'.toArray } 0 (rules.map CheckedRule.anonymous) =
        Zig.Lower.blocks { rs with rules := cs'.toArray } 0 rules :=
    Zig.Lower.blocks_map CheckedRule.anonymous (fun _ => rfl) (fun _ => rfl) (fun _ => rfl)
      (fun _ => rfl) 0 rules
  have hrefl : CheckedRule.renumber (.moving id rfl) = id := funext CheckedRule.renumber_refl
  rw [hrefl, List.map_id, ← hblocks, ← hblocks (rulesFor _ term), rulesFor_anonymous, h,
    rulesFor_anonymous]

end RuleSet

theorem markInternal_rename (f : Bytes → Bytes) (r : Rule) (rs : RuleSet) :
    rs.markInternal (r.rename f) = rs.markInternal r := by
  obtain ⟨name, priority, pattern, guards, result, loc⟩ := r
  cases pattern <;> rfl

namespace Check

variable {rs : RuleSet} {r r' : Rule}

theorem Passes.replace {rules rules' : List Rule}
    (hr : ∀ order c, rule rs r order = .ok c →
      ∃ c', rule rs r' order = .ok c' ∧ c'.anonymous = c.anonymous)
    {order : Nat} {cs : List CheckedRule}
    (h : Passes rs ((rules ++ r :: rules').zipIdx order) cs) :
    ∃ cs', Passes rs ((rules ++ r' :: rules').zipIdx order) cs' ∧
      cs'.map CheckedRule.anonymous = cs.map CheckedRule.anonymous := by
  induction rules generalizing order cs with
  | nil =>
    obtain ⟨c, cs, hc, hcs, rfl⟩ := passes_cons.mp h
    obtain ⟨c', hc', hanonymous⟩ := hr order c hc
    exact ⟨c' :: cs, passes_cons.mpr ⟨c', cs, hc', hcs, rfl⟩, by
      rw [List.map_cons, List.map_cons, hanonymous]⟩
  | cons first rules ih =>
    obtain ⟨c, cs, hc, hcs, rfl⟩ := passes_cons.mp h
    obtain ⟨cs', hcs', hmap⟩ := ih hcs
    exact ⟨c :: cs', passes_cons.mpr ⟨c, cs', hc, hcs', rfl⟩, by
      rw [List.map_cons, List.map_cons, hmap]⟩

end Check

section OneRule

variable (before after : List Definition)

theorem rules_of_rule (r : Rule) : (before ++ .rule r :: after).filterMap Definition.rule? =
    before.filterMap Definition.rule? ++ r :: after.filterMap Definition.rule? :=
  List.filterMap_append

theorem filterMap_of_rule {α : Type} {f : Definition → Option α} (h : ∀ r, f (.rule r) = none)
    (r : Rule) :
    (before ++ .rule r :: after).filterMap f = (before ++ after).filterMap f := by
  rw [List.filterMap_append, List.filterMap_append, List.filterMap_cons_none (h r)]

theorem Entry.ofDefinitions_rule : ∃ es : List Entry, ∀ r : Rule,
    ofDefinitions (before ++ .rule r :: after) =
      es ++ .mark r :: (after.filterMap Definition.rule?).map .mark := by
  refine ⟨((before ++ after).filterMap Definition.type?).map .type ++
    ((before ++ after).filterMap Definition.type?).flatMap TypeDef.variantEntries ++
    ((before ++ after).filterMap Definition.decl?).map .decl ++
    ((before ++ after).filterMap Definition.external?).map .external ++
    ((before ++ after).filterMap Definition.template?).map .template ++
    (before.filterMap Definition.rule?).map .mark, fun r => ?_⟩
  have hother {α : Type} {f : Definition → Option α} (h : ∀ r, f (.rule r) = none) :=
    filterMap_of_rule before after h r
  rw [ofDefinitions, rules_of_rule, hother fun _ => rfl, hother fun _ => rfl, hother fun _ => rfl,
    hother fun _ => rfl, List.map_append, List.map_cons]
  exact (List.append_assoc ..).symm

variable {before after}

theorem Accepted.rename {r : Rule} {rs : RuleSet} {cs : List CheckedRule} {f : Bytes → Bytes}
    (h : Accepted (before ++ .rule r :: after) rs cs)
    (hrule : ∀ order c, Check.rule rs r order = .ok c →
      ∃ c', Check.rule rs (r.rename f) order = .ok c' ∧ c'.anonymous = c.anonymous) :
    ∃ cs', Accepted (before ++ .rule (r.rename f) :: after) rs cs' ∧
      cs'.map CheckedRule.anonymous = cs.map CheckedRule.anonymous := by
  obtain ⟨variantNames, ruleNames, entered, checked⟩ := h
  rw [filterMap_of_rule _ _ fun _ => rfl] at variantNames
  rw [rules_of_rule] at ruleNames checked
  obtain ⟨cs', hcs', hmap⟩ := checked.replace hrule
  obtain ⟨es, hes⟩ := Entry.ofDefinitions_rule before after
  refine ⟨cs', ⟨?_, ?_, ?_, ?_⟩, hmap⟩
  · rwa [filterMap_of_rule _ _ fun _ => rfl]
  · rw [Rule.names, List.filterMap_append, List.filterMap_cons] at ruleNames
    rwa [rules_of_rule, Rule.names, List.filterMap_append, List.filterMap_cons]
  · have hmark : Entry.enter (.mark (r.rename f)) = Entry.enter (.mark r) :=
      funext fun rs => congrArg Except.ok (markInternal_rename f r rs)
    rw [hes, Entry.enterAll_append] at entered ⊢
    obtain ⟨s, hs, hmarked⟩ := Option.bind_eq_some_iff.mp entered
    refine Option.bind_eq_some_iff.mpr ⟨s, hs, ?_⟩
    rw [Entry.enterAll_cons] at hmarked ⊢
    rwa [hmark]
  · rwa [rules_of_rule]

end OneRule

/-- The new names are one for each variable, and none of them is introduced by an expansion; a
variable that stands under an introduced name keeps it. -/
structure Rule.Renaming (ts : List Template) (r : Rule) (ρ : Bytes → Bytes) : Prop where
  injective : ∀ x ∈ r.vars, ∀ y ∈ r.vars, ρ x = ρ y → x = y
  kept : ∀ x ∈ r.vars, r.Introduces ts x → ρ x = x
  fresh : ∀ x ∈ r.vars, r.Introduces ts (ρ x) → ρ x = x

namespace RuleSet

/-- The variables of a rule in accepted definitions can be renamed one to one, except for those
whose names the expansions of the rule introduce: the definitions stay accepted, and the code is
the same, wherever the renamed definitions stand in their files. -/
theorem analyze_rename {before after : List Definition} {r : Rule} {ρ : Bytes → Bytes}
    (accepted : (empty.analyze (before ++ .rule r :: after)).2 = [])
    (hρ : r.Renaming ((before ++ .rule r :: after).filterMap Definition.template?) ρ)
    {defs : List Definition}
    (placed : defs.map (Definition.relocate nowhere) =
      (before ++ .rule (r.rename ρ) :: after).map (Definition.relocate nowhere)) :
    (empty.analyze defs).2 = [] ∧ ∀ options inputs,
      (Zig.Setting.mk (empty.analyze defs).1 options).moduleText inputs =
        (Zig.Setting.mk (empty.analyze (before ++ .rule r :: after)).1 options).moduleText
          inputs := by
  -- On the variables of the rule the renaming is a permutation that fixes all introduced names.
  obtain ⟨σ, hσ, hfixed⟩ := exists_perm_eq hρ.injective hρ.kept hρ.fresh
  have hts := Check.templated_analyze (before ++ .rule r :: after)
  have linked : (empty.analyze (before ++ .rule r :: after)).1.Linked := afterAll_linked [_]
  obtain ⟨rs, cs, h, hrs⟩ := (analyze_accepted _ (empty.analyze (before ++ .rule r :: after)).1).mp
    (Prod.ext rfl accepted)
  rw [← hrs] at hts linked ⊢
  have hrule (order : Nat) (c : CheckedRule) (hc : Check.rule rs r order = .ok c) :
      ∃ c', Check.rule rs (r.rename ρ) order = .ok c' ∧ c'.anonymous = c.anonymous := by
    rw [← rs.checkRule_withRules cs.toArray] at hc ⊢
    rw [← Rule.rename_congr hσ]
    exact ⟨c.rename σ, Check.rule_rename hts linked hfixed hc, rfl⟩
  obtain ⟨cs', h', hmap⟩ := h.rename hrule
  have hanalyze := (analyze_accepted _ _).mpr ⟨rs, cs', h', rfl⟩
  obtain ⟨hfaults, hcode⟩ := analyze_congr placed
  rw [hanalyze] at hfaults hcode
  refine ⟨List.map_eq_nil_iff.mp hfaults, fun options inputs => ?_⟩
  rw [Zig.Setting.moduleText_eq, Zig.Setting.moduleText_eq, hcode,
    afterInputs_anonymous hmap]

end RuleSet

namespace Definition

def freeTemplate : Template :=
  ⟨⟨[109], .unknown⟩, [⟨[97], .unknown⟩],
    .term .unknown [112] [.var .unknown [97], .var .unknown [120]], .unknown⟩

def sharingRule : Rule where
  name := none
  priority := 0
  pattern := .term .unknown [103] [.term .unknown [109] [.var .unknown [121]], .var .unknown [120]]
  guards := []
  result := .var .unknown [121]
  loc := .unknown

def beforeSharing : List Definition :=
  let name (b : UInt8) : Ident := ⟨[b], .unknown⟩
  let u := name 117
  [.type ⟨u, false, false, .primitive u, .unknown⟩,
    .decl ⟨name 112, [u, u], u, false, false, .unknown⟩,
    .external ⟨.extractor false, name 112, name 112, .unknown⟩,
    .decl ⟨name 109, [u], u, false, false, .unknown⟩, .template freeTemplate,
    .decl ⟨name 103, [u, u], u, false, false, .unknown⟩]

theorem introduces_freeTemplate {r : Rule} {x : Bytes} (h : r.Introduces [freeTemplate] x) :
    x = [120] := by
  obtain ⟨-, -, -, -, t, ht, -, hvar, hparam⟩ := h
  rw [List.mem_singleton.mp ht] at hvar hparam
  rcases List.mem_cons.mp hvar with rfl | hvar
  · exact (hparam List.mem_cons_self).elim
  · exact List.mem_singleton.mp hvar

end Definition

open Definition in
/-- The variable `y` may be called `z`, since only `x` is introduced. -/
theorem RuleSet.analyze_rename_sharingRule :
    let ρ (x : Bytes) : Bytes := if x = [121] then [122] else x
    let ds := beforeSharing ++ [.rule sharingRule]
    let ds' := beforeSharing ++ [.rule (sharingRule.rename ρ)]
    (empty.analyze ds).2 = [] ∧ sharingRule.Renaming (ds.filterMap Definition.template?) ρ ∧
      (empty.analyze ds').2 = [] ∧ ∀ options inputs,
        (Zig.Setting.mk (empty.analyze ds').1 options).moduleText inputs =
          (Zig.Setting.mk (empty.analyze ds).1 options).moduleText inputs := by
  intro ρ ds ds'
  have accepted : (empty.analyze ds).2 = [] := by decide +kernel
  have hρ : sharingRule.Renaming (ds.filterMap Definition.template?) ρ := by
    refine ⟨by decide, fun x _ hx => ?_, fun x _ hx => ?_⟩
    · rw [introduces_freeTemplate hx]
      decide
    · have himage := introduces_freeTemplate hx
      dsimp only [ρ] at himage ⊢
      split_ifs at himage ⊢
      · cases himage
      · rfl
  exact ⟨accepted, hρ, analyze_rename accepted hρ rfl⟩

open Definition in
/-- New names for all variables of a rule are not enough: a name that the rule shares with a body
stands for one variable in both, and for two after it was changed in the rule alone. -/
theorem RuleSet.not_analyze_rename_all :
    ¬∀ (before after : List Definition) (r : Rule) (ρ : Bytes → Bytes),
      (empty.analyze (before ++ .rule r :: after)).2 = [] → Function.Injective ρ →
      (∀ x ∈ r.vars, ρ x ∉ [ascii "_", ascii "true", ascii "false"] ∧
        ∀ d ∈ before ++ .rule r :: after, Lexeme.symbol (ρ x) ∉ (d.form false).lexemes) →
      (empty.analyze (before ++ .rule (r.rename ρ) :: after)).2 = [] ∧ ∀ options inputs,
        (Zig.Setting.mk (empty.analyze (before ++ .rule (r.rename ρ) :: after)).1
            options).moduleText inputs =
          (Zig.Setting.mk (empty.analyze (before ++ .rule r :: after)).1 options).moduleText
            inputs := by
  intro h
  -- The names `x` and `y` change places with `v` and `w`.
  let ρ : Equiv.Perm Bytes := (Equiv.swap [120] [118]).trans (Equiv.swap [121] [119])
  obtain ⟨-, hcode⟩ := h beforeSharing [] sharingRule ρ (by decide +kernel) ρ.injective
    (by decide +kernel)
  have hdiffer : (Zig.Setting.mk (empty.analyze
      (beforeSharing ++ [.rule (sharingRule.rename ρ)])).1 .standard).moduleText [] ≠
        (Zig.Setting.mk (empty.analyze (beforeSharing ++ [.rule sharingRule])).1
          .standard).moduleText [] := by
    decide +kernel
  exact hdiffer (hcode .standard [])

end TermRules

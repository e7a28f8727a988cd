import TermRules.Proofs.RenumberedEntries

/-!
# Analysis under renumbering

Every step of the analysis does the same to corresponding rule sets, and refuses
a definition for the same reason. An analysis therefore finds the same errors
whatever the numbers and places are.
-/

namespace TermRules

variable {ρ : Renumbering}

structure Analysis.Renumbered (ρ : Renumbering) (a a' : Analysis) : Prop where
  ruleSet : a.ruleSet.Renumbered ρ a'.ruleSet
  rules : a'.ruleSet.rules = a.ruleSet.rules.map (CheckedRule.renumber ρ)
  errors : a'.errors = a.errors.map (SemanticError.relocate ρ.move)

namespace Analysis

variable {a a' : Analysis}

theorem Renumbered.refuse (h : a.Renumbered ρ a') (es : List SemanticError) :
    (a.refuse es).Renumbered ρ (a'.refuse (es.map (SemanticError.relocate ρ.move))) where
  ruleSet := h.ruleSet
  rules := h.rules
  errors := by rw [Analysis.refuse, Analysis.refuse, h.errors, List.map_append]

theorem Renumbered.attempt (h : a.Renumbered ρ a') {step step' : RuleSet → Attempt}
    (hstep : (step a.ruleSet).Renumbered ρ a.ruleSet a'.ruleSet (step' a'.ruleSet)) :
    (a.attempt step).Renumbered ρ (a'.attempt step') := by
  rw [Analysis.attempt, Analysis.attempt]
  generalize step a.ruleSet = x, step' a'.ruleSet = x' at hstep
  cases hstep with
  | ok hrs rules rules' => exact ⟨hrs, by rw [rules', rules, h.rules], h.errors⟩
  | error es => exact h.refuse es

theorem Renumbered.foldl_attempt {δ : Type} {move : δ → δ} {step : δ → RuleSet → Attempt}
    (hstep : ∀ d {rs rs' : RuleSet}, rs.Renumbered ρ rs' →
      (step d rs).Renumbered ρ rs rs' (step (move d) rs')) (ds : List δ)
    (h : a.Renumbered ρ a') :
    (ds.foldl (fun a d => a.attempt (step d)) a).Renumbered ρ
      ((ds.map move).foldl (fun a d => a.attempt (step d)) a') := by
  induction ds generalizing a a' with
  | nil => exact h
  | cons d ds ih => exact ih (h.attempt (hstep d h.ruleSet))

theorem Renumbered.addTypeNames (h : a.Renumbered ρ a') (ds : List TypeDef) :
    (RuleSet.addTypeNames a ds).1.Renumbered ρ
        (RuleSet.addTypeNames a' (ds.map (TypeDef.relocate ρ.move))).1 ∧
      (RuleSet.addTypeNames a' (ds.map (TypeDef.relocate ρ.move))).2 =
        (RuleSet.addTypeNames a ds).2.map (Prod.map ρ.type (TypeDef.relocate ρ.move)) := by
  induction ds generalizing a a' with
  | nil => exact ⟨h, rfl⟩
  | cons d ds ih =>
    rw [List.map_cons, RuleSet.addTypeNames, RuleSet.addTypeNames, ofDef_relocate]
    have htypes := h.ruleSet.types
    cases hinsert : a.ruleSet.types.insert? (TypeInfo.ofDef d) with
    | none =>
      rw [htypes.insert_none hinsert ((TypeInfo.ofDef d).renumber ρ) rfl]
      exact ih (h.refuse _)
    | some types =>
      obtain ⟨types', hinsert', htypes'⟩ :=
        htypes.insert_some hinsert ((TypeInfo.ofDef d).renumber ρ) rfl rfl
      rw [hinsert']
      have hnext : ρ.type a.ruleSet.types.size = a.ruleSet.types.size :=
        htypes.fresh _ (Nat.le_refl _)
      have hadded : Analysis.Renumbered ρ { a with ruleSet := { a.ruleSet with types } }
          { a' with ruleSet := { a'.ruleSet with types := types' } } :=
        ⟨{ h.ruleSet with types := htypes' }, h.rules, h.errors⟩
      have hrest := ih hadded
      refine ⟨hrest.1, ?_⟩
      dsimp only
      rw [hrest.2, List.map_cons, Prod.map_apply, hnext, htypes.size]

theorem Renumbered.addVariants (h : a.Renumbered ρ a') (type : TypeId) (typeName : Bytes)
    (seen : List Bytes) (vs : List Variant) :
    (RuleSet.addVariants type typeName seen a vs).Renumbered ρ
      (RuleSet.addVariants (ρ.type type) typeName seen a' (vs.map (Variant.relocate ρ.move))) := by
  induction vs generalizing seen a a' with
  | nil => exact h
  | cons v vs ih =>
    have hname : (v.relocate ρ.move).name.name = v.name.name := rfl
    rw [List.map_cons, RuleSet.addVariants, RuleSet.addVariants, hname]
    split_ifs
    · exact ih (h.refuse _) seen
    · exact ih (h.attempt (RuleSet.addVariant_renumber h.ruleSet type typeName v)) _

theorem Renumbered.addBody (h : a.Renumbered ρ a') (type : TypeId) (d : TypeDef) :
    (RuleSet.addBody a (type, d)).Renumbered ρ
      (RuleSet.addBody a' (ρ.type type, d.relocate ρ.move)) := by
  rw [RuleSet.addBody, RuleSet.addBody, TypeDef.relocate]
  cases d.body with
  | primitive spelling => exact h
  | enum variants => exact h.addVariants type d.name.name [] variants

theorem Renumbered.addTypes (h : a.Renumbered ρ a') (ds : List TypeDef) :
    (RuleSet.addTypes a ds).Renumbered ρ
      (RuleSet.addTypes a' (ds.map (TypeDef.relocate ρ.move))) := by
  obtain ⟨hnames, hadded⟩ := h.addTypeNames ds
  rw [RuleSet.addTypes, RuleSet.addTypes]
  dsimp only
  rw [hadded]
  generalize (RuleSet.addTypeNames a ds).1 = b, (RuleSet.addTypeNames a' _).1 = b' at hnames
  generalize (RuleSet.addTypeNames a ds).2 = added
  induction added generalizing b b' with
  | nil => exact hnames
  | cons p added ih => exact ih _ _ (hnames.addBody p.1 p.2)

theorem Renumbered.markRules (h : a.Renumbered ρ a') (rules : List Rule) :
    (a.markRules rules).Renumbered ρ (a'.markRules (rules.map (Rule.relocate ρ.move))) where
  ruleSet := RuleSet.foldl_markInternal_renumber h.ruleSet rules
  rules := by
    rw [Analysis.markRules, Analysis.markRules]
    dsimp only
    rw [RuleSet.rules_foldl_markInternal, RuleSet.rules_foldl_markInternal, h.rules]
  errors := h.errors

theorem Renumbered.attempt_addRule (h : a.Renumbered ρ a') (r : Rule) (order : Nat) :
    (a.attempt (RuleSet.addRule r order)).Renumbered ρ
      (a'.attempt (RuleSet.addRule (r.relocate ρ.move) order)) := by
  rw [Analysis.attempt, Analysis.attempt, RuleSet.addRule, RuleSet.addRule,
    RuleSet.checkRule_renumber h.ruleSet]
  cases Check.rule a.ruleSet r order with
  | error es => exact h.refuse es
  | ok c =>
    have hset := h.ruleSet
    refine ⟨⟨hset.types, hset.terms, hset.templateCount, hset.freshTemplate, hset.templates⟩, ?_,
      h.errors⟩
    change a'.ruleSet.rules.push _ = (a.ruleSet.rules.push c).map (CheckedRule.renumber ρ)
    rw [h.rules, Array.map_push]

theorem Renumbered.addRules (h : a.Renumbered ρ a') (names : List Bytes) (order : Nat)
    (rules : List Rule) :
    (RuleSet.addRules names order a rules).Renumbered ρ
      (RuleSet.addRules names order a' (rules.map (Rule.relocate ρ.move))) := by
  induction rules generalizing names order a a' with
  | nil => exact h
  | cons r rules ih =>
    have hname : (r.relocate ρ.move).name = r.name.map (Ident.relocate ρ.move) := rfl
    have hnames : ((r.relocate ρ.move).name.map Ident.name) = r.name.map Ident.name := by
      rw [hname, Option.map_map]
      rfl
    rw [List.map_cons]
    rcases RuleSet.addRules_cons names order a r rules with
      ⟨i, hi, htaken, hrefused⟩ | ⟨hfree, hattempted⟩
    · have hi' : (r.relocate ρ.move).name = some (i.relocate ρ.move) := by
        rw [hname, hi]
        rfl
      rw [hrefused, RuleSet.addRules_refused hi' htaken]
      exact ih (h.refuse _) names order
    · rw [hattempted, RuleSet.addRules_attempted, hnames]
      · exact ih (h.attempt_addRule r order) _ _
      · intro i hi
        rw [hname, Option.map_eq_some_iff] at hi
        obtain ⟨j, hj, rfl⟩ := hi
        exact hfree j hj

theorem Renumbered.run (h : a.Renumbered ρ a') (defs : List Definition) :
    (a.run defs).Renumbered ρ (a'.run (defs.map (Definition.relocate ρ.move))) := by
  have hpart : ∀ {δ : Type} (part : Definition → Option δ) (move : δ → δ)
      (_ : ∀ d : Definition, part (d.relocate ρ.move) = (part d).map move),
      (defs.map (Definition.relocate ρ.move)).filterMap part = (defs.filterMap part).map move := by
    intro δ part move hmove
    rw [List.filterMap_map, List.map_filterMap]
    exact List.filterMap_congr fun d _ => hmove d
  rw [Analysis.run, Analysis.run,
    hpart Definition.rule? (Rule.relocate ρ.move) fun d => by cases d <;> rfl,
    hpart Definition.type? (TypeDef.relocate ρ.move) fun d => by cases d <;> rfl,
    hpart Definition.decl? (TermDecl.relocate ρ.move) fun d => by cases d <;> rfl,
    hpart Definition.external? (ExternalDef.relocate ρ.move) fun d => by cases d <;> rfl,
    hpart Definition.template? (Template.relocate ρ.move) fun d => by cases d <;> rfl]
  have htypes := h.addTypes (defs.filterMap Definition.type?)
  have hdecls := htypes.foldl_attempt (fun d _ _ h => RuleSet.addDecl_renumber h d)
    (defs.filterMap Definition.decl?)
  have hexternals := hdecls.foldl_attempt (fun d _ _ h => RuleSet.addExternal_renumber h d)
    (defs.filterMap Definition.external?)
  have htemplates := hexternals.foldl_attempt (fun d _ _ h => RuleSet.addTemplate_renumber h d)
    (defs.filterMap Definition.template?)
  exact (htemplates.markRules _).addRules [] 0 _

end Analysis

namespace RuleSet

variable (move : Loc → Loc) (hmove : move .unknown = .unknown)

theorem empty_renumbered : RuleSet.empty.Renumbered (.moving move hmove) .empty where
  types := by
    refine ⟨rfl, fun _ _ => rfl, fun i => ?_, fun name => by simp [Renumbering.moving]⟩
    cases i with
    | zero =>
      refine Option.Rel.some ?_
      rw [TypeInfo.renumber]
      change boolInfo = ⟨ascii "bool", .builtin (ascii "bool"), false, move .unknown⟩
      rw [hmove]
      rfl
    | succ i => exact .none
  terms := ⟨rfl, fun _ _ => rfl, fun _ => .none, fun name => by simp [Renumbering.moving]⟩
  templateCount := rfl
  freshTemplate _ _ := rfl
  templates _ := rfl

theorem analyze_moving (defs : List Definition) :
    let defs' := defs.map (Definition.relocate move)
    (empty.analyze defs).1.Renumbered (.moving move hmove) (empty.analyze defs').1 ∧
      (empty.analyze defs').1.rules =
        (empty.analyze defs).1.rules.map (CheckedRule.renumber (.moving move hmove)) ∧
      (empty.analyze defs').2 = (empty.analyze defs).2.map (SemanticError.relocate move) := by
  have hempty : Analysis.Renumbered (.moving move hmove) ⟨.empty, []⟩ ⟨.empty, []⟩ :=
    ⟨empty_renumbered move hmove, Array.map_empty.symm, rfl⟩
  have hrun := hempty.run defs
  exact ⟨hrun.ruleSet, hrun.rules, hrun.errors⟩

end RuleSet

end TermRules

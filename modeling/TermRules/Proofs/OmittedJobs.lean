import TermRules.Proofs.DefinitionOrder
import TermRules.Proofs.Jobs

/-!
# Jobs that may be left out

A job that is refused changes nothing but the errors. Leaving it out shifts the
places of later rules, and names that it took stay taken; neither is seen in
types, terms and templates.
-/

namespace TermRules

theorem Explained.errors_ne_nil {α : Type} {x : Except (List SemanticError) α}
    {es : List SemanticError} (h : Explained x) (hx : x = .error es) : es ≠ [] := by
  rw [hx] at h
  exact explained_error.mp h

namespace Analysis

theorem perform_bounded {a : Analysis} (h : a.ruleSet.Bounded) (ts : List Job) :
    (a.perform ts).ruleSet.Bounded := by
  apply perform_induction h
  intro t _ rs rs' hrs hattempt
  cases t with
  | enter e => exact Entry.enter_bounded hattempt hrs
  | refuse error => cases hattempt
  | check r order =>
    obtain ⟨c, -, rfl⟩ := RuleSet.addRule_ok.mp hattempt
    exact ⟨hrs.bool, hrs.types, hrs.terms⟩

theorem perform_congr {ts us : List Job} (h : ts.map Job.attempt = us.map Job.attempt)
    (a : Analysis) : a.perform ts = a.perform us := by
  rw [perform, perform, ← List.foldl_map, h, List.foldl_map]

end Analysis

namespace RuleSet

/-- The rule sets differ in the places of their rules only. -/
structure SameUnplaced (a b : RuleSet) : Prop where
  types : a.types = b.types
  terms : a.terms = b.terms
  templates : a.templates = b.templates
  rules : a.rules.map CheckedRule.unplaced = b.rules.map CheckedRule.unplaced

theorem SameUnplaced.refl (a : RuleSet) : a.SameUnplaced a := ⟨rfl, rfl, rfl, rfl⟩

theorem SameUnplaced.trans {a b c : RuleSet} (hab : a.SameUnplaced b) (hbc : b.SameUnplaced c) :
    a.SameUnplaced c where
  types := hab.types.trans hbc.types
  terms := hab.terms.trans hbc.terms
  templates := hab.templates.trans hbc.templates
  rules := hab.rules.trans hbc.rules

theorem SameUnplaced.addRule {a b : RuleSet} (h : a.SameUnplaced b) (r : Rule)
    (order order' : Nat) :
    (∃ es, RuleSet.addRule r order a = .error es ∧ RuleSet.addRule r order' b = .error es) ∨
      ∃ a' b', RuleSet.addRule r order a = .ok a' ∧ RuleSet.addRule r order' b = .ok b' ∧
        a'.SameUnplaced b' := by
  obtain ⟨types, terms, templates, rules⟩ := b
  obtain ⟨htypes, hterms, htemplates, hrules⟩ := h
  dsimp only at htypes hterms htemplates hrules
  subst htypes hterms htemplates
  rw [RuleSet.addRule, RuleSet.addRule, a.checkRule_withRules rules, Check.rule_placed a r order,
    Check.rule_placed a r order']
  rcases Check.rule a r 0 with es | c
  · exact .inl ⟨es, rfl, rfl⟩
  · refine .inr ⟨_, _, rfl, rfl, rfl, rfl, rfl, ?_⟩
    rw [Array.map_push, Array.map_push, hrules]
    rfl

end RuleSet

namespace Analysis

/-- The analyses end alike, but the second one without the errors. -/
structure Without (a b : Analysis) (es : List SemanticError) : Prop where
  ruleSet : a.ruleSet.SameUnplaced b.ruleSet
  errors : ∃ fs gs, a.errors = fs ++ es ++ gs ∧ b.errors = fs ++ gs

/-- A refused job adds its errors and does nothing else. -/
theorem perform_without {a : Analysis} {ts : List Job} {t : Job} {es : List SemanticError}
    (h : t.attempt (a.perform ts).ruleSet = .error es) (us : List Job) :
    (a.perform (ts ++ t :: us)).Without (a.perform (ts ++ us)) es := by
  have hrefused : (a.perform ts).attempt t.attempt = (a.perform ts).refuse es := by
    rw [attempt, h]
  rw [perform_append, perform_append, perform_cons, hrefused, perform_refuse _ us,
    perform_refuse (a.perform ts) us]
  exact ⟨.refl _, (a.perform ts).errors, _, rfl, rfl⟩

end Analysis

namespace Job

inductive SameUnplaced : Job → Job → Prop
  | refuse (error : SemanticError) : SameUnplaced (.refuse error) (.refuse error)
  | check (r : Rule) (order order' : Nat) : SameUnplaced (.check r order) (.check r order')

theorem perform_sameUnplaced {ts us : List Job} (h : List.Forall₂ SameUnplaced ts us)
    {a b : Analysis} (hab : a.ruleSet.SameUnplaced b.ruleSet)
    (herrors : a.errors = b.errors) :
    (a.perform ts).ruleSet.SameUnplaced (b.perform us).ruleSet ∧
      (a.perform ts).errors = (b.perform us).errors := by
  induction h generalizing a b with
  | nil => exact ⟨hab, herrors⟩
  | @cons t u _ _ htu _ ih =>
    rw [Analysis.perform_cons, Analysis.perform_cons]
    cases htu with
    | refuse error =>
      exact ih hab (congrArg (· ++ [error]) herrors)
    | check r order order' =>
      rcases hab.addRule r order order' with ⟨es, hes, hes'⟩ | ⟨a', b', ha', hb', hab'⟩
      · have hleft : a.attempt (check r order).attempt = a.refuse es := by
          rw [Analysis.attempt, attempt, hes]
        have hright : b.attempt (check r order').attempt = b.refuse es := by
          rw [Analysis.attempt, attempt, hes']
        rw [hleft, hright]
        exact ih hab (congrArg (· ++ es) herrors)
      · have hleft : a.attempt (check r order).attempt = ⟨a', a.errors⟩ := by
          rw [Analysis.attempt, attempt, ha']
        have hright : b.attempt (check r order').attempt = ⟨b', b.errors⟩ := by
          rw [Analysis.attempt, attempt, hb']
        rw [hleft, hright]
        exact ih hab' herrors

theorem ofVariants_congr {typeName : Bytes} {seen seen' : List Bytes} {vs : List Variant}
    (h : ∀ v ∈ vs, v.name.name ∈ seen ↔ v.name.name ∈ seen') :
    ofVariants typeName seen vs = ofVariants typeName seen' vs := by
  induction vs generalizing seen seen' with
  | nil => rfl
  | cons v vs ih =>
    obtain ⟨hv, hvs⟩ := List.forall_mem_cons.mp h
    have hcons : ∀ w ∈ vs,
        w.name.name ∈ v.name.name :: seen ↔ w.name.name ∈ v.name.name :: seen' := by
      intro w hw
      rw [List.mem_cons, List.mem_cons, hvs w hw]
    by_cases hseen : v.name.name ∈ seen
    · rw [ofVariants_cons_seen hseen, ofVariants_cons_seen (hv.mp hseen), ih hvs]
    · rw [ofVariants_cons_new hseen, ofVariants_cons_new fun h => hseen (hv.mpr h), ih hcons]

theorem ofVariants_append (typeName : Bytes) (seen : List Bytes) (vs ws : List Variant) :
    ofVariants typeName seen (vs ++ ws) =
      ofVariants typeName seen vs ++ ofVariants typeName (vs.map (·.name.name) ++ seen) ws := by
  induction vs generalizing seen with
  | nil => rfl
  | cons v vs ih =>
    rw [List.cons_append]
    by_cases hv : v.name.name ∈ seen
    · rw [ofVariants_cons_seen hv, ofVariants_cons_seen hv, ih, List.cons_append]
      congr 2
      apply ofVariants_congr
      intro w _
      simp only [List.map_cons, List.cons_append, List.mem_cons, List.mem_append]
      constructor
      · exact .inr
      · rintro (h | h)
        · rw [h]
          exact .inr hv
        · exact h
    · rw [ofVariants_cons_new hv, ofVariants_cons_new hv, ih, List.cons_append]
      congr 2
      apply ofVariants_congr
      intro w _
      simp only [List.map_cons, List.cons_append, List.mem_cons, List.mem_append]
      tauto

theorem ofBodies_append (taken : List Bytes) (ds : List TypeDef) :
    ∃ taken', (∀ name, name ∈ taken' ↔ name ∈ ds.map (·.name.name) ∨ name ∈ taken) ∧
      ∀ ds', ofBodies taken (ds ++ ds') = ofBodies taken ds ++ ofBodies taken' ds' := by
  induction ds generalizing taken with
  | nil => exact ⟨taken, by simp, fun _ => rfl⟩
  | cons d ds ih =>
    by_cases hd : d.name.name ∈ taken
    · obtain ⟨taken', hmem, happend⟩ := ih taken
      refine ⟨taken', fun name => ?_, fun ds' => ?_⟩
      · rw [hmem, List.map_cons, List.mem_cons]
        constructor
        · tauto
        · rintro ((rfl | h) | h)
          · exact .inr hd
          · exact .inl h
          · exact .inr h
      · rw [List.cons_append, ofBodies_cons_taken hd, happend, ofBodies_cons_taken hd]
    · obtain ⟨taken', hmem, happend⟩ := ih (d.name.name :: taken)
      refine ⟨taken', fun name => ?_, fun ds' => ?_⟩
      · rw [hmem, List.map_cons, List.mem_cons, List.mem_cons]
        tauto
      · rw [List.cons_append, ofBodies_cons_free hd, happend, ofBodies_cons_free hd,
          List.append_assoc]

theorem mem_names_cons {r : Rule} {rs : List Rule} {names : List Bytes} {name : Bytes} :
    (name ∈ Rule.names rs ∨ name ∈ (r.name.map Ident.name).toList ++ names) ↔
      name ∈ Rule.names (r :: rs) ∨ name ∈ names := by
  rw [Rule.names_cons, List.mem_append, List.mem_append]
  tauto

theorem ofRules_append (names : List Bytes) (order : Nat) (rs : List Rule) :
    ∃ names' order', (∀ name, name ∈ names' ↔ name ∈ Rule.names rs ∨ name ∈ names) ∧
      ∀ rs', ofRules names order (rs ++ rs') =
        ofRules names order rs ++ ofRules names' order' rs' := by
  induction rs generalizing names order with
  | nil => exact ⟨names, order, by simp [Rule.names], fun _ => rfl⟩
  | cons r rs ih =>
    by_cases hfree : ∀ i, r.name = some i → i.name ∉ names
    · obtain ⟨names', order', hmem, happend⟩ := ih ((r.name.map Ident.name).toList ++ names)
        (order + 1)
      refine ⟨names', order', fun name => (hmem name).trans mem_names_cons, fun rs' => ?_⟩
      rw [List.cons_append, ofRules_cons_checked hfree, happend, ofRules_cons_checked hfree]
      rfl
    · push Not at hfree
      obtain ⟨i, hname, hi⟩ := hfree
      obtain ⟨names', order', hmem, happend⟩ := ih names order
      refine ⟨names', order', fun name => ?_, fun rs' => ?_⟩
      · rw [hmem, Rule.names_cons, hname, List.mem_append]
        constructor
        · tauto
        · rintro ((h | h) | h)
          · rw [List.mem_singleton.mp h]
            exact .inr hi
          · exact .inl h
          · exact .inr h
      · rw [List.cons_append, ofRules_cons_refused hname hi, happend,
          ofRules_cons_refused hname hi]
        rfl

theorem ofRules_sameUnplaced {names names' : List Bytes} {rs : List Rule}
    (h : ∀ name ∈ Rule.names rs, name ∈ names ↔ name ∈ names') (order order' : Nat) :
    List.Forall₂ SameUnplaced (ofRules names order rs) (ofRules names' order' rs) := by
  induction rs generalizing names names' order order' with
  | nil => exact .nil
  | cons r rs ih =>
    rw [Rule.names_cons, List.forall_mem_append] at h
    obtain ⟨hr, hrs⟩ := h
    by_cases hfree : ∀ i, r.name = some i → i.name ∉ names
    · have hfree' : ∀ i, r.name = some i → i.name ∉ names' := by
        intro i hi
        rw [← hr i.name (by simp [hi])]
        exact hfree i hi
      rw [ofRules_cons_checked hfree, ofRules_cons_checked hfree']
      refine .cons (.check r order order') (ih ?_ _ _)
      intro name hname
      rw [List.mem_append, List.mem_append, hrs name hname]
    · push Not at hfree
      obtain ⟨i, hname, hi⟩ := hfree
      have hi' : i.name ∈ names' := by
        rw [← hr i.name (by simp [hname])]
        exact hi
      rw [ofRules_cons_refused hname hi, ofRules_cons_refused hname hi']
      exact .cons (.refuse _) (ih hrs _ _)

end Job

theorem Analysis.perform_without_unplaced {a : Analysis} {ts us us' : List Job} {t : Job}
    {es : List SemanticError} (h : t.attempt (a.perform ts).ruleSet = .error es)
    (hus : List.Forall₂ Job.SameUnplaced us us') :
    (a.perform (ts ++ t :: us)).Without (a.perform (ts ++ us')) es := by
  obtain ⟨hruleSet, fs, gs, herrors, herrors'⟩ := perform_without h us
  rw [perform_append a ts us] at hruleSet herrors'
  obtain ⟨hsame, hsameErrors⟩ :=
    Job.perform_sameUnplaced hus (.refl (a.perform ts).ruleSet) rfl
  rw [perform_append a ts us']
  exact ⟨hruleSet.trans hsame, fs, gs, herrors, hsameErrors.symm.trans herrors'⟩

end TermRules

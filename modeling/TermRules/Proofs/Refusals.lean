import TermRules.Proofs.OmittedJobs

/-!
# Refused definitions

A refused definition or variant may be left out: the same types, terms,
templates and checked rules result and only its errors are gone. Names and marks
are the exception. A refused rule has still taken its name and marked its term,
and a refused variant has taken its name in its type.
-/

namespace TermRules

def TypeDef.withVariants (d : TypeDef) (vs : List Variant) : TypeDef := { d with body := .enum vs }

def Analysis.fresh (ts : List Job) : Analysis := perform ⟨.empty, []⟩ ts

def Job.reached (ts : List Job) : RuleSet := (Analysis.fresh ts).ruleSet

/-- The rule does not make its term one that is built by rules: an earlier rule does, or the term
is built in another way. -/
def Rule.Idle (r : Rule) (before : List Definition) (rs : RuleSet) : Prop :=
  ∀ name, r.root? = some name →
    (∃ r' ∈ before.filterMap Definition.rule?, r'.root? = some name) ∨
      ∀ id, rs.terms.find? name = some id → ∀ loc, (rs.termInfo id).constructor ≠ .internal loc

def TypeDef.IsFirst (d : TypeDef) (before : List Definition) : Prop :=
  d.name.name ≠ boolInfo.name ∧
    ∀ d' ∈ before.filterMap Definition.type?, d'.name.name ≠ d.name.name

open Job in
/-- A fresh analysis refuses one definition or variant of the first list, with the errors, and the
second list lacks it. The rule must be idle, and its name and that of the variant must not be asked
for again, unless they were taken before. -/
inductive Refused : List Definition → List Definition → List SemanticError → Prop
  | decl {before after : List Definition} {d : TermDecl} {es : List SemanticError}
      (refused : RuleSet.addDecl d (reached (types (before ++ after) ++
        variants [boolInfo.name] (before ++ after) ++ decls before)) = .error es) :
      Refused (before ++ .decl d :: after) (before ++ after) es
  | external {before after : List Definition} {d : ExternalDef} {es : List SemanticError}
      (refused : RuleSet.addExternal d (reached (types (before ++ after) ++
        variants [boolInfo.name] (before ++ after) ++ decls (before ++ after) ++
        externals before)) = .error es) :
      Refused (before ++ .external d :: after) (before ++ after) es
  | template {before after : List Definition} {d : Template} {es : List SemanticError}
      (refused : RuleSet.addTemplate d (reached (types (before ++ after) ++
        variants [boolInfo.name] (before ++ after) ++ decls (before ++ after) ++
        externals (before ++ after) ++ templates before)) = .error es) :
      Refused (before ++ .template d :: after) (before ++ after) es
  | variant {before after : List Definition} {d : TypeDef} {vs ws : List Variant} {v : Variant}
      {es : List SemanticError} (first : d.IsFirst before)
      (free : v.name.name ∉ vs.map (·.name.name)) (unasked : v.name.name ∉ ws.map (·.name.name))
      (refused : (Entry.variant d.name.name v).enter (reached
        (types (before ++ .type (d.withVariants vs) :: after) ++
          variants [boolInfo.name] (before ++ [.type (d.withVariants vs)]))) = .error es) :
      Refused (before ++ .type (d.withVariants (vs ++ v :: ws)) :: after)
        (before ++ .type (d.withVariants (vs ++ ws)) :: after) es
  | secondVariant {before after : List Definition} {d : TypeDef} {vs ws : List Variant}
      {v : Variant} (first : d.IsFirst before) (taken : v.name.name ∈ vs.map (·.name.name)) :
      Refused (before ++ .type (d.withVariants (vs ++ v :: ws)) :: after)
        (before ++ .type (d.withVariants (vs ++ ws)) :: after)
        [⟨v.name.loc, .duplicateVariant v.name.name d.name.name⟩]
  | rule {before after : List Definition} {r : Rule} {es : List SemanticError}
      (idle : r.Idle before (RuleSet.empty.analyze (before ++ .rule r :: after)).1)
      (free : ∀ i, r.name = some i → i.name ∉ Rule.names (before.filterMap Definition.rule?))
      (unasked : ∀ i, r.name = some i → i.name ∉ Rule.names (after.filterMap Definition.rule?))
      (refused : Check.rule (RuleSet.empty.analyze (before ++ .rule r :: after)).1 r 0 =
        .error es) :
      Refused (before ++ .rule r :: after) (before ++ after) es
  | secondRule {before after : List Definition} {r : Rule} {i : Ident}
      (idle : r.Idle before (RuleSet.empty.analyze (before ++ .rule r :: after)).1)
      (name : r.name = some i)
      (taken : i.name ∈ Rule.names (before.filterMap Definition.rule?)) :
      Refused (before ++ .rule r :: after) (before ++ after)
        [⟨i.loc, .duplicateRule i.name⟩]

namespace RuleSet

variable {before after : List Definition}

theorem analyze_empty (ds : List Definition) :
    empty.analyze ds = ((Analysis.fresh (Job.ofDefinitions [boolInfo.name] ds)).ruleSet,
      (Analysis.fresh (Job.ofDefinitions [boolInfo.name] ds)).errors) := by
  rw [analyze, Analysis.run_eq_perform]
  rfl

theorem markInternal_eq_self {rs : RuleSet} {r : Rule} (h : rs.IsMarked r) :
    rs.markInternal r = rs := by
  rw [markInternal]
  split
  · rename_i loc name args hp
    cases hid : rs.terms.find? name with
    | none => rfl
    | some id => exact if_neg (h loc name args id hp hid)
  · rfl

theorem pattern_of_root? {r : Rule} {name : Bytes} (h : r.root? = some name) :
    ∃ loc args, r.pattern = .term loc name args := by
  rw [Rule.root?] at h
  split at h
  · rename_i loc _ args hp
    cases h
    exact ⟨loc, args, hp⟩
  · cases h

theorem root?_of_pattern {r : Rule} {loc : Loc} {name : Bytes} {args : List Pattern}
    (h : r.pattern = .term loc name args) : r.root? = some name := by
  rw [Rule.root?, h]

theorem isMarked_of_idle {a : Analysis} {r : Rule} {rs : RuleSet} (h : r.Idle before rs)
    (later : List Rule)
    (hterms : rs.terms = (((a.markRules (before.filterMap Definition.rule?)).markRules
      [r]).markRules later).ruleSet.terms) :
    (a.markRules (before.filterMap Definition.rule?)).ruleSet.IsMarked r := by
  intro loc name args id hp hid
  rcases h name (root?_of_pattern hp) with ⟨r', hr', hroot⟩ | hbuilt
  · obtain ⟨loc', args', hp'⟩ := pattern_of_root? hroot
    exact isMarked_markRules a _ r' hr' loc' name args' id hp' hid
  · intro hmissing
    generalize a.markRules (before.filterMap Definition.rule?) = b at hterms hid hmissing
    obtain ⟨info, hinfo, -⟩ := Table.get?_of_find? hid
    -- Otherwise the mark of the rule would stay to the end.
    have hmark : (b.markRules [r]).ruleSet.terms.get? id =
        some { info with constructor := .internal r.loc } := by
      change (b.ruleSet.markInternal r).terms.get? id = _
      simp only [markInternal, hp, hid, hmissing, if_true, setConstructor, Table.get?_modify,
        hinfo, Option.map_some]
    obtain ⟨info', hinfo', hgrows⟩ :=
      (markRules_steps (b.markRules [r]) later).grows.terms hmark
    have hfind : rs.terms.find? name = some id := by
      rw [hterms]
      change ((later.foldl markInternal (b.ruleSet.markInternal r)).terms).find? name = some id
      rw [find?_foldl_markInternal, find?_markInternal, hid]
    have hend : rs.termInfo id = info' := termInfo_of_get? (by rw [hterms, hinfo'])
    apply hbuilt id hfind r.loc
    rw [hend, hgrows.constructor_eq (by simp)]

theorem perform_marks_idle {a : Analysis} {r : Rule}
    (h : (a.perform (Job.marks before)).ruleSet.IsMarked r) (after : List Definition) :
    a.perform (Job.marks (before ++ .rule r :: after)) =
      a.perform (Job.marks (before ++ after)) := by
  have hmarks : Job.marks (before ++ .rule r :: after) =
      Job.marks before ++ .enter (.mark r) :: Job.marks after := by
    simp [Job.marks, Definition.rule?]
  have hself : (a.perform (Job.marks before)).attempt (Job.enter (.mark r)).attempt =
      a.perform (Job.marks before) := by
    rw [Analysis.attempt, Job.attempt, Entry.enter, markInternal_eq_self h]
  rw [hmarks, Analysis.perform_append, Analysis.perform_cons, hself, ← Analysis.perform_append]
  congr 1
  simp [Job.marks]

theorem rules_without_checked {a : Analysis} {r : Rule} {es : List SemanticError}
    (free : ∀ i, r.name = some i → i.name ∉ Rule.names (before.filterMap Definition.rule?))
    (unasked : ∀ i, r.name = some i → i.name ∉ Rule.names (after.filterMap Definition.rule?))
    (refused : Check.rule (a.perform (Job.rules (before ++ .rule r :: after))).ruleSet r 0 =
      .error es) :
    (a.perform (Job.rules (before ++ .rule r :: after))).Without
      (a.perform (Job.rules (before ++ after))) es := by
  obtain ⟨names, order, hmem, happend⟩ :=
    Job.ofRules_append [] 0 (before.filterMap Definition.rule?)
  have hfree : ∀ i, r.name = some i → i.name ∉ names := by
    intro i hi
    simpa [hmem] using free i hi
  have hrules : Job.rules (before ++ .rule r :: after) =
      Job.rules before ++ .check r order :: Job.ofRules ((r.name.map Ident.name).toList ++ names)
        (order + 1) (after.filterMap Definition.rule?) := by
    rw [Job.rules, List.filterMap_append, happend]
    exact congrArg _ (Job.ofRules_cons_checked hfree order _)
  have hrules' : Job.rules (before ++ after) =
      Job.rules before ++ Job.ofRules names order (after.filterMap Definition.rule?) := by
    rw [Job.rules, List.filterMap_append, happend]
    rfl
  -- The rule set at the rule and the one at the end differ in their rules.
  obtain ⟨rules, hlater⟩ := perform_ofRules names order (a.perform (Job.rules before))
    (r :: after.filterMap Definition.rule?)
  rw [Job.ofRules_cons_checked hfree, ← Analysis.perform_append, ← hrules] at hlater
  rw [hlater, RuleSet.checkRule_withRules] at refused
  rw [hrules, hrules']
  apply Analysis.perform_without_unplaced
  · rw [Job.attempt, addRule, Check.rule_placed, refused]
    rfl
  · apply Job.ofRules_sameUnplaced
    intro name hname
    rw [List.mem_append, or_iff_right]
    intro htaken
    obtain ⟨i, hi, rfl⟩ := Option.map_eq_some_iff.mp (Option.mem_toList.mp htaken)
    exact unasked i hi hname

theorem rules_without_second {a : Analysis} {r : Rule} {i : Ident}
    (name : r.name = some i)
    (taken : i.name ∈ Rule.names (before.filterMap Definition.rule?)) :
    (a.perform (Job.rules (before ++ .rule r :: after))).Without
      (a.perform (Job.rules (before ++ after))) [⟨i.loc, .duplicateRule i.name⟩] := by
  obtain ⟨names, order, hmem, happend⟩ :=
    Job.ofRules_append [] 0 (before.filterMap Definition.rule?)
  have hrules : Job.rules (before ++ .rule r :: after) =
      Job.rules before ++ .refuse ⟨i.loc, .duplicateRule i.name⟩ ::
        Job.ofRules names order (after.filterMap Definition.rule?) := by
    rw [Job.rules, List.filterMap_append, happend]
    exact congrArg _ (Job.ofRules_cons_refused name ((hmem i.name).mpr (.inl taken)) order _)
  have hrules' : Job.rules (before ++ after) =
      Job.rules before ++ Job.ofRules names order (after.filterMap Definition.rule?) := by
    rw [Job.rules, List.filterMap_append, happend]
    rfl
  rw [hrules, hrules']
  exact Analysis.perform_without rfl _

theorem ofDefinitions_rule (before after : List Definition) (r : Rule) :
    ∃ ts, Job.ofDefinitions [boolInfo.name] (before ++ .rule r :: after) =
        ts ++ Job.marks (before ++ .rule r :: after) ++ Job.rules (before ++ .rule r :: after) ∧
      Job.ofDefinitions [boolInfo.name] (before ++ after) =
        ts ++ Job.marks (before ++ after) ++ Job.rules (before ++ after) := by
  refine ⟨_, rfl, ?_⟩
  simp [Job.ofDefinitions, Job.types, Job.variants, Job.decls, Job.externals, Job.templates,
    Definition.type?, Definition.decl?, Definition.external?, Definition.template?,
    List.filterMap_cons]

theorem analyze_rule_without {r : Rule} {es : List SemanticError}
    (idle : r.Idle before (empty.analyze (before ++ .rule r :: after)).1)
    (h : ∀ a : Analysis,
      (a.perform (Job.rules (before ++ .rule r :: after))).ruleSet =
        (empty.analyze (before ++ .rule r :: after)).1 →
      (a.perform (Job.rules (before ++ .rule r :: after))).Without
        (a.perform (Job.rules (before ++ after))) es) :
    (Analysis.fresh (Job.ofDefinitions [boolInfo.name] (before ++ .rule r :: after))).Without
      (Analysis.fresh (Job.ofDefinitions [boolInfo.name] (before ++ after))) es := by
  obtain ⟨ts, hjobs, hjobs'⟩ := ofDefinitions_rule before after r
  rw [analyze_empty, hjobs] at idle
  rw [hjobs, hjobs']
  simp only [Analysis.fresh, Analysis.perform_append] at idle ⊢
  generalize hentered : Analysis.perform ⟨.empty, []⟩ ts = entered at idle ⊢
  have hmarked : (entered.perform (Job.marks before)).ruleSet.IsMarked r := by
    have hmarks (a : Analysis) (defs : List Definition) :
        a.perform (Job.marks defs) = a.markRules (defs.filterMap Definition.rule?) :=
      (markRules_eq_perform a _).symm
    rw [hmarks] at idle ⊢
    apply isMarked_of_idle idle (after.filterMap Definition.rule?)
    obtain ⟨rules, hrules⟩ := perform_ofRules [] 0 (entered.markRules
      ((before ++ .rule r :: after).filterMap Definition.rule?))
      ((before ++ .rule r :: after).filterMap Definition.rule?)
    rw [Job.rules, hrules]
    simp [Analysis.markRules, Definition.rule?]
  have hmarks := perform_marks_idle hmarked after
  rw [hmarks]
  apply h
  rw [analyze_empty, hjobs]
  simp only [Analysis.fresh, Analysis.perform_append, hentered, hmarks]

theorem variants_withVariants {d : TypeDef} (first : d.IsFirst before) :
    ∃ taken, ∀ vs after,
      Job.variants [boolInfo.name] (before ++ .type (d.withVariants vs) :: after) =
        Job.variants [boolInfo.name] before ++ (Job.ofVariants d.name.name [] vs ++
          Job.ofBodies taken (after.filterMap Definition.type?)) := by
  obtain ⟨taken, hmem, happend⟩ :=
    Job.ofBodies_append [boolInfo.name] (before.filterMap Definition.type?)
  have hfree : d.name.name ∉ taken := by
    rw [hmem, List.mem_singleton, List.mem_map]
    rintro (⟨d', hd', hname⟩ | hname)
    · exact first.2 d' hd' hname
    · exact first.1 hname
  refine ⟨d.name.name :: taken, fun vs after => ?_⟩
  rw [Job.variants, List.filterMap_append, happend]
  have hfree' : (d.withVariants vs).name.name ∉ taken := hfree
  exact congrArg _ (Job.ofBodies_cons_free (d := d.withVariants vs) hfree' _)

theorem fresh_withVariants {d : TypeDef} (first : d.IsFirst before) (after : List Definition) :
    ∃ us, ∀ vs vs', Analysis.fresh (Job.ofDefinitions [boolInfo.name]
        (before ++ .type (d.withVariants vs) :: after)) =
      (Analysis.fresh (Job.types (before ++ .type (d.withVariants vs') :: after))).perform
        (Job.variants [boolInfo.name] before ++ Job.ofVariants d.name.name [] vs ++ us) := by
  obtain ⟨taken, hvariants⟩ := variants_withVariants first
  refine ⟨Job.ofBodies taken (after.filterMap Definition.type?) ++ Job.decls (before ++ after) ++
    Job.externals (before ++ after) ++ Job.templates (before ++ after) ++
    Job.marks (before ++ after) ++ Job.rules (before ++ after), fun vs vs' => ?_⟩
  -- The name of the type is entered without its variants.
  have htypes : (Job.types (before ++ .type (d.withVariants vs) :: after)).map Job.attempt =
      (Job.types (before ++ .type (d.withVariants vs') :: after)).map Job.attempt := by
    simp only [Job.types, List.filterMap_append, List.filterMap_cons, Definition.type?,
      List.map_append, List.map_cons]
    rfl
  rw [Analysis.fresh, Analysis.fresh, ← Analysis.perform_congr htypes, ← Analysis.perform_append,
    Job.ofDefinitions, hvariants]
  simp [Job.decls, Job.externals, Job.templates, Job.marks, Job.rules, Definition.decl?,
    Definition.external?, Definition.template?, Definition.rule?, List.filterMap_cons]

theorem fresh_without_of_eq {ts jobs jobs' : List Job} {t : Job} {es : List SemanticError}
    (h : t.attempt (Job.reached ts) = .error es) (us : List Job) (hjobs : jobs = ts ++ t :: us)
    (hjobs' : jobs' = ts ++ us) : (Analysis.fresh jobs).Without (Analysis.fresh jobs') es := by
  rw [hjobs, hjobs']
  exact Analysis.perform_without h us

theorem fresh_without {ds ds' : List Definition} {es : List SemanticError}
    (h : Refused ds ds' es) :
    (Analysis.fresh (Job.ofDefinitions [boolInfo.name] ds)).Without
      (Analysis.fresh (Job.ofDefinitions [boolInfo.name] ds')) es := by
  cases h with
  | @decl before after d _ refused =>
    refine fresh_without_of_eq (t := .enter (.decl d)) refused (Job.decls after ++
      Job.externals (before ++ after) ++ Job.templates (before ++ after) ++
      Job.marks (before ++ after) ++ Job.rules (before ++ after)) ?_ ?_ <;>
    simp [Job.ofDefinitions, Job.types, Job.variants, Job.decls, Job.externals, Job.templates,
      Job.marks, Job.rules, Definition.type?, Definition.decl?, Definition.external?,
      Definition.template?, Definition.rule?, List.filterMap_cons]
  | @external before after d _ refused =>
    refine fresh_without_of_eq (t := .enter (.external d)) refused (Job.externals after ++
      Job.templates (before ++ after) ++ Job.marks (before ++ after) ++
      Job.rules (before ++ after)) ?_ ?_ <;>
    simp [Job.ofDefinitions, Job.types, Job.variants, Job.decls, Job.externals, Job.templates,
      Job.marks, Job.rules, Definition.type?, Definition.decl?, Definition.external?,
      Definition.template?, Definition.rule?, List.filterMap_cons]
  | @template before after d _ refused =>
    refine fresh_without_of_eq (t := .enter (.template d)) refused (Job.templates after ++
      Job.marks (before ++ after) ++ Job.rules (before ++ after)) ?_ ?_ <;>
    simp [Job.ofDefinitions, Job.types, Job.variants, Job.decls, Job.externals, Job.templates,
      Job.marks, Job.rules, Definition.type?, Definition.decl?, Definition.external?,
      Definition.template?, Definition.rule?, List.filterMap_cons]
  | @variant before after d vs ws v _ first free unasked refused =>
    obtain ⟨us, hfresh⟩ := fresh_withVariants first after
    obtain ⟨taken, hvariants⟩ := variants_withVariants first
    have hv : v.name.name ∉ vs.map (·.name.name) ++ [] := by rwa [List.append_nil]
    have hlater : Job.ofVariants d.name.name (v.name.name :: (vs.map (·.name.name) ++ [])) ws =
        Job.ofVariants d.name.name (vs.map (·.name.name) ++ []) ws := by
      apply Job.ofVariants_congr
      intro w hw
      rw [List.mem_cons, or_iff_right]
      intro hname
      exact unasked (List.mem_map.mpr ⟨w, hw, hname⟩)
    rw [hfresh (vs ++ v :: ws) vs, hfresh (vs ++ ws) vs, Job.ofVariants_append,
      Job.ofVariants_append, Job.ofVariants_cons_new hv, hlater]
    rw [Job.reached, Analysis.fresh, Analysis.perform_append, hvariants, List.filterMap_nil,
      Job.ofBodies, List.append_nil] at refused
    have hwithout := Analysis.perform_without
      (a := Analysis.fresh (Job.types (before ++ .type (d.withVariants vs) :: after)))
      (t := .enter (.variant d.name.name v)) refused
      (Job.ofVariants d.name.name (vs.map (·.name.name) ++ []) ws ++ us)
    simpa using hwithout
  | @secondVariant before after d vs ws v first taken =>
    obtain ⟨us, hfresh⟩ := fresh_withVariants first after
    have hv : v.name.name ∈ vs.map (·.name.name) ++ [] := by rwa [List.append_nil]
    rw [hfresh (vs ++ v :: ws) vs, hfresh (vs ++ ws) vs, Job.ofVariants_append,
      Job.ofVariants_append, Job.ofVariants_cons_seen hv]
    let second : Job := .refuse ⟨v.name.loc, .duplicateVariant v.name.name d.name.name⟩
    let types := Analysis.fresh (Job.types (before ++ .type (d.withVariants vs) :: after))
    let earlier := Job.variants [boolInfo.name] before ++ Job.ofVariants d.name.name [] vs
    have hsecond : second.attempt (types.perform earlier).ruleSet =
        .error [⟨v.name.loc, .duplicateVariant v.name.name d.name.name⟩] := rfl
    have hwithout := Analysis.perform_without hsecond
      (Job.ofVariants d.name.name (vs.map (·.name.name) ++ []) ws ++ us)
    simpa [types, earlier, second] using hwithout
  | rule idle free unasked refused =>
    apply analyze_rule_without idle
    intro a hend
    rw [← hend] at refused
    exact rules_without_checked free unasked refused
  | secondRule idle name taken =>
    exact analyze_rule_without idle fun a _ => rules_without_second name taken

theorem errors_ne_nil_of_refused {ds ds' : List Definition} {es : List SemanticError}
    (h : Refused ds ds' es) : es ≠ [] := by
  cases h with
  | decl refused => exact (explained_addDecl _ _).errors_ne_nil refused
  | external refused => exact (explained_addExternal _ _).errors_ne_nil refused
  | template refused => exact (explained_addTemplate _ _).errors_ne_nil refused
  | variant first free unasked refused => exact (Entry.explained_enter _ _).errors_ne_nil refused
  | rule idle free unasked refused => exact (Check.explained_rule _ _ _).errors_ne_nil refused
  | secondVariant first taken => exact List.cons_ne_nil _ _
  | secondRule idle name taken => exact List.cons_ne_nil _ _

/-- A refused definition or variant leaves its errors behind and nothing else. -/
theorem analyze_refused {ds ds' : List Definition} {es : List SemanticError}
    (h : Refused ds ds' es) :
    (empty.analyze ds).1.SameUnplaced (empty.analyze ds').1 ∧
      es ≠ [] ∧ ∃ fs gs, (empty.analyze ds).2 = fs ++ es ++ gs ∧
        (empty.analyze ds').2 = fs ++ gs := by
  obtain ⟨hruleSet, herrors⟩ := fresh_without h
  rw [analyze_empty, analyze_empty]
  exact ⟨hruleSet, errors_ne_nil_of_refused h, herrors⟩

end RuleSet

def Rule.strayResult : Rule where
  name := none
  priority := 0
  pattern := .term .unknown [102] [.var .unknown [120]]
  guards := []
  result := .var .unknown [122]
  loc := .unknown

/-- The first rule for `f` has marked it, so that the second one leaves no trace. -/
theorem RuleSet.analyze_refused_strayResult :
    let ds := Definition.letSample ++ .rule Rule.strayResult :: []
    let e : SemanticError := ⟨.unknown, .unbound [122]⟩
    Refused ds (Definition.letSample ++ []) [e] ∧
      (empty.analyze ds).1.SameUnplaced (empty.analyze (Definition.letSample ++ [])).1 ∧
      (empty.analyze ds).2 = [e] := by
  intro ds e
  have hrefused : Refused ds (Definition.letSample ++ []) [e] := by
    apply Refused.rule
    · intro name hname
      cases hname
      exact .inl ⟨_, List.mem_cons_self, rfl⟩
    · intro i hi
      cases hi
    · intro i hi
      cases hi
    · have hcheck : (Check.rule (empty.analyze ds).1 Rule.strayResult 0).map (fun _ => ()) =
          .error [e] := by decide +kernel
      cases h : Check.rule (empty.analyze ds).1 Rule.strayResult 0 with
      | ok c =>
        rw [h] at hcheck
        cases hcheck
      | error es =>
        rw [h] at hcheck
        exact congrArg Except.error (Except.error.inj hcheck)
  obtain ⟨hsame, -, fs, gs, herrors, herrors'⟩ := analyze_refused hrefused
  have hnone : (empty.analyze (Definition.letSample ++ [])).2 = [] := by decide +kernel
  rw [hnone] at herrors'
  obtain ⟨rfl, rfl⟩ := List.append_eq_nil_iff.mp herrors'.symm
  exact ⟨hrefused, hsame, herrors⟩

end TermRules

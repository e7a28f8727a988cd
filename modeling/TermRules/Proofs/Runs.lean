import TermRules.Proofs.Growth

/-!
# Runs of the analysis

Every round of an analysis is a sequence of steps, hence so is the analysis of
any number of definition lists one after the other. What holds of the empty rule
set and survives each step holds of every rule set that is ever reached.
-/

namespace TermRules

namespace RuleSet

/-- The rule set after several analyses, each with its own definitions, right or wrong. -/
def afterAll (batches : List (List Definition)) : RuleSet :=
  batches.foldl (fun rs defs => (rs.analyze defs).1) .empty

theorem length_resolveTypes {rs : RuleSet} {is : List Ident} {types : List TypeId}
    (h : rs.resolveTypes is = .ok types) : types.length = is.length := by
  induction is generalizing types with
  | nil =>
    cases h
    rfl
  | cons i is ih =>
    simp only [resolveTypes] at h
    cases hi : rs.resolveType i <;> cases hs : rs.resolveTypes is <;>
      simp only [hi, hs, bothOrErrors, Except.map, reduceCtorEq, Except.ok.injEq] at h
    rw [← h, List.length_cons, List.length_cons, ih hs]

theorem addVariant_step {rs rs' : RuleSet} {type : TypeId} {typeName : Bytes} {v : Variant}
    (isEnum : rs.IsEnum type typeName) (h : addVariant type typeName v rs = .ok rs') :
    Step rs rs' := by
  obtain ⟨info, found, isEnum, rfl⟩ := isEnum
  simp only [addVariant] at h
  cases ht : rs.resolveTypes (v.fields.map Field.type) with
  | error es => simp [ht, bind, Except.bind] at h
  | ok types =>
    simp only [ht, bind, Except.bind] at h
    split at h
    · simp [throw, throwThe, MonadExceptOf.throw] at h
    · rename_i terms hi
      cases h
      rw [← typeInfo_of_get? found] at isEnum
      refine .variant isEnum rfl rfl rfl ?_ (by rw [typeName, typeInfo_of_get? found]) rfl hi
      have hl := length_resolveTypes ht
      rw [List.length_map] at hl
      simp only [List.map_map, Function.comp_def]
      exact (List.map_snd_zip (Nat.le_of_eq hl)).symm

theorem addDecl_step {rs rs' : RuleSet} {d : TermDecl} (h : addDecl d rs = .ok rs') :
    Step rs rs' := by
  simp only [addDecl] at h
  cases hb : bothOrErrors (rs.resolveTypes d.args) (rs.resolveType d.ret) with
  | error es => simp [hb, bind, Except.bind] at h
  | ok types =>
    simp only [hb, bind, Except.bind] at h
    split at h
    · rename_i terms hi
      cases h
      exact .decl rfl rfl hi
    · simp [throw, throwThe, MonadExceptOf.throw] at h

theorem addExternal_step {rs rs' : RuleSet} {d : ExternalDef} (h : addExternal d rs = .ok rs') :
    Step rs rs' := by
  simp only [addExternal] at h
  cases hf : rs.terms.find? d.term.name with
  | none => simp [hf] at h
  | some id =>
    obtain ⟨info, found, -⟩ := Table.get?_of_find? hf
    simp only [hf, termInfo_of_get? found] at h
    cases hk : d.kind with
    | constructor =>
      simp only [hk] at h
      split_ifs at h with missing
      cases h
      exact .constructor found missing (by simp) (by simp)
    | extractor infallible =>
      simp only [hk] at h
      split_ifs at h with missing
      cases h
      exact .extractor found missing (by simp) (by simp) (by simp)

theorem addTemplate_step {rs rs' : RuleSet} {d : Template} (h : addTemplate d rs = .ok rs') :
    Step rs rs' := by
  simp only [addTemplate] at h
  cases hf : rs.terms.find? d.term.name with
  | none => simp [hf] at h
  | some id =>
    obtain ⟨info, found, hname⟩ := Table.get?_of_find? hf
    simp only [hf, termInfo_of_get? found] at h
    split_ifs at h with missing params
    cases h
    exact .template d found (not_not.mp missing) hname.symm (not_not.mp params)

theorem markInternal_steps (rs : RuleSet) (r : Rule) : Steps rs (rs.markInternal r) := by
  simp only [markInternal]
  split
  · split
    · rename_i id hf
      obtain ⟨info, found, -⟩ := Table.get?_of_find? hf
      rw [termInfo_of_get? found]
      split_ifs with missing
      · exact .single (.constructor found missing (by simp) (by simp))
      · exact .refl
    · exact .refl
  · exact .refl

theorem attempt_steps {a : Analysis} {step : RuleSet → Attempt}
    (h : ∀ rs', step a.ruleSet = .ok rs' → Step a.ruleSet rs') :
    Steps a.ruleSet (a.attempt step).ruleSet := by
  simp only [Analysis.attempt]
  cases hs : step a.ruleSet with
  | ok rs' => exact .single (h rs' hs)
  | error es => exact .refl

theorem foldl_attempt_steps {δ : Type} {step : δ → RuleSet → Attempt}
    (h : ∀ d rs rs', step d rs = .ok rs' → Step rs rs') (a : Analysis) (ds : List δ) :
    Steps a.ruleSet (ds.foldl (fun a d => a.attempt (step d)) a).ruleSet := by
  induction ds generalizing a with
  | nil => exact .refl
  | cons d ds ih => exact (attempt_steps (h d a.ruleSet)).trans (ih _)

theorem addTypeNames_steps (a : Analysis) (ds : List TypeDef) :
    Steps a.ruleSet (addTypeNames a ds).1.ruleSet := by
  induction ds generalizing a with
  | nil => exact .refl
  | cons d ds ih =>
    simp only [addTypeNames]
    split
    · rename_i types hi
      exact .head (.type d hi) (ih { a with ruleSet := { a.ruleSet with types } })
    · exact ih (a.refuse _)

theorem addTypeNames_isEnum (a : Analysis) (ds : List TypeDef) :
    ∀ id d vs, (id, d) ∈ (addTypeNames a ds).2 → d.body = .enum vs →
      (addTypeNames a ds).1.ruleSet.IsEnum id d.name.name := by
  induction ds generalizing a with
  | nil => simp [addTypeNames]
  | cons d ds ih =>
    intro id e vs hmem hbody
    cases hi : a.ruleSet.types.insert? (TypeInfo.ofDef d) with
    | some types =>
      simp only [addTypeNames, hi] at hmem ⊢
      rcases List.mem_cons.mp hmem with heq | htail
      · obtain ⟨rfl, rfl⟩ := Prod.mk.inj heq
        apply (addTypeNames_steps { a with ruleSet := { a.ruleSet with types } } ds).grows.isEnum
        refine ⟨.ofDef e, ?_, ?_, rfl⟩
        · exact (Table.get?_of_insert? hi _).trans (if_pos rfl)
        · simp only [TypeInfo.ofDef, hbody, TypeShape.isEnum]
      · exact ih _ id e vs htail hbody
    | none =>
      simp only [addTypeNames, hi] at hmem ⊢
      exact ih _ id e vs hmem hbody

theorem addVariants_steps {type : TypeId} {typeName : Bytes} (seen : List Bytes) (a : Analysis)
    (vs : List Variant) (isEnum : a.ruleSet.IsEnum type typeName) :
    Steps a.ruleSet (addVariants type typeName seen a vs).ruleSet := by
  induction vs generalizing a seen with
  | nil => exact .refl
  | cons v vs ih =>
    simp only [addVariants]
    split_ifs
    · exact ih _ (a.refuse _) isEnum
    · have hstep : Steps a.ruleSet (a.attempt (addVariant type typeName v)).ruleSet :=
        attempt_steps fun _ h => addVariant_step isEnum h
      exact hstep.trans (ih _ _ (hstep.grows.isEnum isEnum))

theorem foldl_addBody_steps (a : Analysis) (added : List (TypeId × TypeDef))
    (isEnum : ∀ id d vs, (id, d) ∈ added → d.body = .enum vs →
      a.ruleSet.IsEnum id d.name.name) :
    Steps a.ruleSet (added.foldl addBody a).ruleSet := by
  induction added generalizing a with
  | nil => exact .refl
  | cons p added ih =>
    obtain ⟨id, d⟩ := p
    have hstep : Steps a.ruleSet (addBody a (id, d)).ruleSet := by
      simp only [addBody]
      split
      · exact .refl
      · rename_i vs hbody
        exact addVariants_steps _ a vs (isEnum id d vs List.mem_cons_self hbody)
    refine hstep.trans (ih _ fun id' d' vs hmem hbody => ?_)
    exact hstep.grows.isEnum (isEnum id' d' vs (List.mem_cons_of_mem _ hmem) hbody)

theorem addTypes_steps (a : Analysis) (ds : List TypeDef) :
    Steps a.ruleSet (addTypes a ds).ruleSet :=
  (addTypeNames_steps a ds).trans (foldl_addBody_steps _ _ (addTypeNames_isEnum a ds))

theorem markRules_steps (a : Analysis) (rules : List Rule) :
    Steps a.ruleSet (a.markRules rules).ruleSet := by
  simp only [Analysis.markRules]
  generalize a.ruleSet = rs
  induction rules generalizing rs with
  | nil => exact .refl
  | cons r rules ih => exact (markInternal_steps rs r).trans (ih _)

theorem find?_setConstructor (rs : RuleSet) (id : TermId) (c : Constructor) (name : Bytes) :
    (rs.setConstructor id c).terms.find? name = rs.terms.find? name :=
  Table.find?_modify rs.terms id (f := fun t => { t with constructor := c }) (fun _ => rfl) name

theorem find?_markInternal (rs : RuleSet) (r : Rule) (name : Bytes) :
    (rs.markInternal r).terms.find? name = rs.terms.find? name := by
  simp only [markInternal]
  split
  · split
    · split_ifs
      · exact find?_setConstructor rs _ _ name
      · rfl
    · rfl
  · rfl

theorem isMarked_markInternal (rs : RuleSet) (r : Rule) : (rs.markInternal r).IsMarked r := by
  intro loc name args id hp hf
  rw [find?_markInternal] at hf
  obtain ⟨info, found, -⟩ := Table.get?_of_find? hf
  simp only [markInternal, hp, hf, termInfo_of_get? found]
  split_ifs with missing
  · have hset : (rs.setConstructor id (.internal r.loc)).terms.get? id =
        some { info with constructor := .internal r.loc } := by
      simp only [setConstructor, Table.get?_modify, found, if_true, Option.map_some]
    rw [termInfo_of_get? hset]
    simp
  · rwa [termInfo_of_get? found]

theorem IsMarked.mono {a b : RuleSet} {r : Rule} (h : a.IsMarked r) (hg : a.Grows b)
    (hf : ∀ name, b.terms.find? name = a.terms.find? name) : b.IsMarked r := by
  intro loc name args id hp hid
  rw [hf] at hid
  obtain ⟨info, found, -⟩ := Table.get?_of_find? hid
  obtain ⟨info', found', hi⟩ := hg.terms found
  have hm := h loc name args id hp hid
  rw [termInfo_of_get? found] at hm
  rw [termInfo_of_get? found', hi.constructor_eq hm]
  exact hm

theorem find?_foldl_markInternal (rs : RuleSet) (rules : List Rule) (name : Bytes) :
    (rules.foldl markInternal rs).terms.find? name = rs.terms.find? name := by
  induction rules generalizing rs with
  | nil => rfl
  | cons r rules ih => rw [List.foldl_cons, ih, find?_markInternal]

theorem isMarked_markRules (a : Analysis) (rules : List Rule) :
    ∀ r ∈ rules, (a.markRules rules).ruleSet.IsMarked r := by
  induction rules generalizing a with
  | nil => simp
  | cons r rules ih =>
    intro r' hr'
    rcases List.mem_cons.mp hr' with rfl | htail
    · have hg := (markRules_steps { a with ruleSet := a.ruleSet.markInternal r' } rules).grows
      exact (isMarked_markInternal a.ruleSet r').mono hg (find?_foldl_markInternal _ rules)
    · exact ih { a with ruleSet := a.ruleSet.markInternal r } r' htail

theorem addRule_step {rs rs' : RuleSet} {r : Rule} {order : Nat} (marked : rs.IsMarked r)
    (h : addRule r order rs = .ok rs') : Step rs rs' := by
  simp only [addRule] at h
  cases hc : Check.rule rs r order with
  | error es => simp [hc, Except.map] at h
  | ok checked =>
    simp only [hc, Except.map] at h
    cases h
    exact .rule marked hc

theorem terms_attempt_addRule (a : Analysis) (r : Rule) (order : Nat) :
    (a.attempt (addRule r order)).ruleSet.terms = a.ruleSet.terms := by
  simp only [Analysis.attempt, addRule]
  cases Check.rule a.ruleSet r order <;> rfl

theorem IsMarked.of_terms_eq {a b : RuleSet} {r : Rule} (h : a.IsMarked r)
    (ht : b.terms = a.terms) : b.IsMarked r := by
  intro loc name args id hp hid
  rw [ht] at hid
  simpa only [termInfo, ht] using h loc name args id hp hid

theorem addRules_refused {names : List Bytes} {r : Rule} {i : Ident} (hname : r.name = some i)
    (hi : i.name ∈ names) (order : Nat) (a : Analysis) (rules : List Rule) :
    addRules names order a (r :: rules) =
      addRules names order (a.refuse [⟨i.loc, .duplicateRule i.name⟩]) rules := by
  obtain ⟨name, priority, pattern, guards, result, loc⟩ := r
  subst hname
  exact if_pos hi

theorem addRules_attempted {names : List Bytes} {r : Rule}
    (hname : ∀ i, r.name = some i → i.name ∉ names) (order : Nat) (a : Analysis)
    (rules : List Rule) :
    addRules names order a (r :: rules) =
      addRules ((r.name.map Ident.name).toList ++ names) (order + 1)
        (a.attempt (addRule r order)) rules := by
  obtain ⟨name, priority, pattern, guards, result, loc⟩ := r
  cases name with
  | none => rfl
  | some i => exact if_neg (hname i rfl)

theorem addRules_cons (names : List Bytes) (order : Nat) (a : Analysis) (r : Rule)
    (rules : List Rule) :
    (∃ i, r.name = some i ∧ i.name ∈ names ∧ addRules names order a (r :: rules) =
        addRules names order (a.refuse [⟨i.loc, .duplicateRule i.name⟩]) rules) ∨
      (∀ i, r.name = some i → i.name ∉ names) ∧
        addRules names order a (r :: rules) = addRules ((r.name.map Ident.name).toList ++ names)
          (order + 1) (a.attempt (addRule r order)) rules := by
  by_cases hfree : ∀ i, r.name = some i → i.name ∉ names
  · exact .inr ⟨hfree, addRules_attempted hfree order a rules⟩
  · push Not at hfree
    obtain ⟨i, hname, hi⟩ := hfree
    exact .inl ⟨i, hname, hi, addRules_refused hname hi order a rules⟩

theorem addRules_steps (names : List Bytes) (order : Nat) (a : Analysis) (rules : List Rule)
    (marked : ∀ r ∈ rules, a.ruleSet.IsMarked r) :
    Steps a.ruleSet (addRules names order a rules).ruleSet := by
  induction rules generalizing names order a with
  | nil => exact .refl
  | cons r rules ih =>
    rcases addRules_cons names order a r rules with ⟨i, -, -, hrefused⟩ | ⟨-, hattempted⟩
    · rw [hrefused]
      exact ih names order (a.refuse _) fun r' hr' => marked r' (List.mem_cons_of_mem _ hr')
    · rw [hattempted]
      have hstep : Steps a.ruleSet (a.attempt (addRule r order)).ruleSet :=
        attempt_steps fun _ h => addRule_step (marked r List.mem_cons_self) h
      refine hstep.trans (ih _ _ _ fun r' hr' => ?_)
      have hr := marked r' (List.mem_cons_of_mem _ hr')
      exact hr.of_terms_eq (terms_attempt_addRule a r order)

theorem analyze_steps (rs : RuleSet) (defs : List Definition) :
    Steps rs (rs.analyze defs).1 := by
  let types := addTypes ⟨rs, []⟩ (defs.filterMap Definition.type?)
  let decls := (defs.filterMap Definition.decl?).foldl (fun a d => a.attempt (addDecl d)) types
  let externals :=
    (defs.filterMap Definition.external?).foldl (fun a d => a.attempt (addExternal d)) decls
  let templates :=
    (defs.filterMap Definition.template?).foldl (fun a d => a.attempt (addTemplate d)) externals
  let rules := defs.filterMap Definition.rule?
  have htypes : Steps rs types.ruleSet := addTypes_steps ⟨rs, []⟩ _
  have hdecls : Steps types.ruleSet decls.ruleSet :=
    foldl_attempt_steps (fun _ _ _ h => addDecl_step h) _ _
  have hexternals : Steps decls.ruleSet externals.ruleSet :=
    foldl_attempt_steps (fun _ _ _ h => addExternal_step h) _ _
  have htemplates : Steps externals.ruleSet templates.ruleSet :=
    foldl_attempt_steps (fun _ _ _ h => addTemplate_step h) _ _
  have hrules : Steps templates.ruleSet
      (addRules [] 0 (templates.markRules rules) rules).ruleSet :=
    (markRules_steps _ _).trans (addRules_steps _ _ _ _ (isMarked_markRules _ _))
  exact (((htypes.trans hdecls).trans hexternals).trans htemplates).trans hrules

theorem afterAll_steps (batches : List (List Definition)) : Steps .empty (afterAll batches) := by
  simp only [afterAll]
  generalize empty = rs
  induction batches generalizing rs with
  | nil => exact .refl
  | cons defs batches ih => exact (analyze_steps rs defs).trans (ih _)

theorem afterAll_induction {P : RuleSet → Prop} (start : P .empty)
    (step : ∀ a b, P a → Step a b → P b) (batches : List (List Definition)) :
    P (afterAll batches) := by
  have hsteps := afterAll_steps batches
  generalize afterAll batches = rs at hsteps ⊢
  induction hsteps with
  | refl => exact start
  | tail _ hstep ih => exact step _ _ ih hstep

end RuleSet

end TermRules

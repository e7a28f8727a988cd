import TermRules.Proofs.Acceptance

/-!
# An analysis as a list of jobs

What an analysis attempts can be written down before the first attempt is made:
entries, checks of rules, and refusals of names that stand twice. A job that is
refused may be left out, which only takes its errors away.
-/

namespace TermRules

inductive Job
  | enter (e : Entry)
  | refuse (error : SemanticError)
  | check (r : Rule) (order : Nat)

namespace Job

def attempt : Job → RuleSet → Attempt
  | .enter e, rs => e.enter rs
  | .refuse error, _ => .error [error]
  | .check r order, rs => RuleSet.addRule r order rs

def ofVariants (typeName : Bytes) : List Bytes → List Variant → List Job
  | _, [] => []
  | seen, v :: vs =>
      if seen.contains v.name.name then
        .refuse ⟨v.name.loc, .duplicateVariant v.name.name typeName⟩ ::
          ofVariants typeName seen vs
      else .enter (.variant typeName v) :: ofVariants typeName (v.name.name :: seen) vs

def ofBodies : List Bytes → List TypeDef → List Job
  | _, [] => []
  | taken, d :: ds =>
      if taken.contains d.name.name then ofBodies taken ds
      else ofVariants d.name.name [] d.variants ++ ofBodies (d.name.name :: taken) ds

def ofRules : List Bytes → Nat → List Rule → List Job
  | _, _, [] => []
  | names, order, r :: rs =>
      match r.name.filter (names.contains ·.name) with
      | some i => .refuse ⟨i.loc, .duplicateRule i.name⟩ :: ofRules names order rs
      | none =>
          .check r order :: ofRules ((r.name.map Ident.name).toList ++ names) (order + 1) rs

theorem ofVariants_cons_seen {seen : List Bytes} {v : Variant} (h : v.name.name ∈ seen)
    (typeName : Bytes) (vs : List Variant) :
    ofVariants typeName seen (v :: vs) =
      .refuse ⟨v.name.loc, .duplicateVariant v.name.name typeName⟩ ::
        ofVariants typeName seen vs := by
  rw [ofVariants, if_pos (List.contains_iff_mem.mpr h)]

theorem ofVariants_cons_new {seen : List Bytes} {v : Variant} (h : v.name.name ∉ seen)
    (typeName : Bytes) (vs : List Variant) :
    ofVariants typeName seen (v :: vs) =
      .enter (.variant typeName v) :: ofVariants typeName (v.name.name :: seen) vs := by
  rw [ofVariants, if_neg fun hv => h (List.contains_iff_mem.mp hv)]

theorem ofBodies_cons_taken {taken : List Bytes} {d : TypeDef} (h : d.name.name ∈ taken)
    (ds : List TypeDef) : ofBodies taken (d :: ds) = ofBodies taken ds := by
  rw [ofBodies, if_pos (List.contains_iff_mem.mpr h)]

theorem ofBodies_cons_free {taken : List Bytes} {d : TypeDef} (h : d.name.name ∉ taken)
    (ds : List TypeDef) :
    ofBodies taken (d :: ds) =
      ofVariants d.name.name [] d.variants ++ ofBodies (d.name.name :: taken) ds := by
  rw [ofBodies, if_neg fun hd => h (List.contains_iff_mem.mp hd)]

theorem ofRules_cons_refused {names : List Bytes} {r : Rule} {i : Ident}
    (hname : r.name = some i) (hi : i.name ∈ names) (order : Nat) (rs : List Rule) :
    ofRules names order (r :: rs) =
      .refuse ⟨i.loc, .duplicateRule i.name⟩ :: ofRules names order rs := by
  rw [ofRules, hname, Option.filter_some, if_pos (List.contains_iff_mem.mpr hi)]

theorem ofRules_cons_checked {names : List Bytes} {r : Rule}
    (hfree : ∀ i, r.name = some i → i.name ∉ names) (order : Nat) (rs : List Rule) :
    ofRules names order (r :: rs) =
      .check r order :: ofRules ((r.name.map Ident.name).toList ++ names) (order + 1) rs := by
  have hnone : r.name.filter (names.contains ·.name) = none := by
    simpa [Option.filter_eq_none_iff] using hfree
  rw [ofRules, hnone]

variable (taken : List Bytes) (defs : List Definition)

def types : List Job := (defs.filterMap Definition.type?).map fun d => .enter (.type d)

def variants : List Job := ofBodies taken (defs.filterMap Definition.type?)

def decls : List Job := (defs.filterMap Definition.decl?).map fun d => .enter (.decl d)

def externals : List Job :=
  (defs.filterMap Definition.external?).map fun d => .enter (.external d)

def templates : List Job :=
  (defs.filterMap Definition.template?).map fun d => .enter (.template d)

def marks : List Job := (defs.filterMap Definition.rule?).map fun r => .enter (.mark r)

def rules : List Job := ofRules [] 0 (defs.filterMap Definition.rule?)

def ofDefinitions : List Job :=
  types defs ++ variants taken defs ++ decls defs ++ externals defs ++ templates defs ++
    marks defs ++ rules defs

end Job

namespace Job

inductive AskedBy (defs : List Definition) : Job → Prop
  | type {d : TypeDef} (mem : d ∈ defs.filterMap Definition.type?) :
      AskedBy defs (.enter (.type d))
  | variant {d : TypeDef} {v : Variant} (mem : d ∈ defs.filterMap Definition.type?)
      (variant : v ∈ d.variants) : AskedBy defs (.enter (.variant d.name.name v))
  | secondVariant {d : TypeDef} {v : Variant} (mem : d ∈ defs.filterMap Definition.type?)
      (variant : v ∈ d.variants) :
      AskedBy defs (.refuse ⟨v.name.loc, .duplicateVariant v.name.name d.name.name⟩)
  | decl {d : TermDecl} (mem : d ∈ defs.filterMap Definition.decl?) :
      AskedBy defs (.enter (.decl d))
  | external {d : ExternalDef} (mem : d ∈ defs.filterMap Definition.external?) :
      AskedBy defs (.enter (.external d))
  | template {d : Template} (mem : d ∈ defs.filterMap Definition.template?) :
      AskedBy defs (.enter (.template d))
  | mark {r : Rule} (mem : r ∈ defs.filterMap Definition.rule?) : AskedBy defs (.enter (.mark r))
  | rule {r : Rule} (mem : r ∈ defs.filterMap Definition.rule?) (order : Nat) :
      AskedBy defs (.check r order)
  | secondRule {r : Rule} {i : Ident} (mem : r ∈ defs.filterMap Definition.rule?)
      (name : r.name = some i) : AskedBy defs (.refuse ⟨i.loc, .duplicateRule i.name⟩)

theorem mem_ofVariants {typeName : Bytes} {seen : List Bytes} {vs : List Variant} {t : Job}
    (h : t ∈ ofVariants typeName seen vs) :
    ∃ v ∈ vs, t = .enter (.variant typeName v) ∨
      t = .refuse ⟨v.name.loc, .duplicateVariant v.name.name typeName⟩ := by
  induction vs generalizing seen with
  | nil => cases h
  | cons v vs ih =>
    by_cases hv : v.name.name ∈ seen
    · rw [ofVariants_cons_seen hv] at h
      rcases List.mem_cons.mp h with rfl | h
      · exact ⟨v, List.mem_cons_self, .inr rfl⟩
      · obtain ⟨w, hw, ht⟩ := ih h
        exact ⟨w, List.mem_cons_of_mem v hw, ht⟩
    · rw [ofVariants_cons_new hv] at h
      rcases List.mem_cons.mp h with rfl | h
      · exact ⟨v, List.mem_cons_self, .inl rfl⟩
      · obtain ⟨w, hw, ht⟩ := ih h
        exact ⟨w, List.mem_cons_of_mem v hw, ht⟩

theorem mem_ofBodies {taken : List Bytes} {ds : List TypeDef} {t : Job}
    (h : t ∈ ofBodies taken ds) :
    ∃ d ∈ ds, d.name.name ∉ taken ∧ t ∈ ofVariants d.name.name [] d.variants := by
  induction ds generalizing taken with
  | nil => cases h
  | cons d ds ih =>
    by_cases hd : d.name.name ∈ taken
    · rw [ofBodies_cons_taken hd] at h
      obtain ⟨e, he, hfree, ht⟩ := ih h
      exact ⟨e, List.mem_cons_of_mem d he, hfree, ht⟩
    · rw [ofBodies_cons_free hd] at h
      rcases List.mem_append.mp h with h | h
      · exact ⟨d, List.mem_cons_self, hd, h⟩
      · obtain ⟨e, he, hfree, ht⟩ := ih h
        exact ⟨e, List.mem_cons_of_mem d he, fun hmem => hfree (List.mem_cons_of_mem _ hmem), ht⟩

theorem mem_ofRules {names : List Bytes} {order : Nat} {rs : List Rule} {t : Job}
    (h : t ∈ ofRules names order rs) :
    ∃ r ∈ rs, (∃ place, t = .check r place) ∨
      ∃ i, r.name = some i ∧ t = .refuse ⟨i.loc, .duplicateRule i.name⟩ := by
  induction rs generalizing names order with
  | nil => cases h
  | cons r rs ih =>
    by_cases hfree : ∀ i, r.name = some i → i.name ∉ names
    · rw [ofRules_cons_checked hfree] at h
      rcases List.mem_cons.mp h with rfl | h
      · exact ⟨r, List.mem_cons_self, .inl ⟨order, rfl⟩⟩
      · obtain ⟨r', hr', ht⟩ := ih h
        exact ⟨r', List.mem_cons_of_mem r hr', ht⟩
    · push Not at hfree
      obtain ⟨i, hname, hi⟩ := hfree
      rw [ofRules_cons_refused hname hi] at h
      rcases List.mem_cons.mp h with rfl | h
      · exact ⟨r, List.mem_cons_self, .inr ⟨i, hname, rfl⟩⟩
      · obtain ⟨r', hr', ht⟩ := ih h
        exact ⟨r', List.mem_cons_of_mem r hr', ht⟩

theorem askedBy_of_mem {taken : List Bytes} {defs : List Definition} {t : Job}
    (h : t ∈ ofDefinitions taken defs) : AskedBy defs t := by
  simp only [ofDefinitions, List.mem_append] at h
  rcases h with (((((h | h) | h) | h) | h) | h) | h
  · obtain ⟨d, hd, rfl⟩ := List.mem_map.mp h
    exact .type hd
  · obtain ⟨d, hd, -, ht⟩ := mem_ofBodies h
    obtain ⟨v, hv, rfl | rfl⟩ := mem_ofVariants ht
    · exact .variant hd hv
    · exact .secondVariant hd hv
  · obtain ⟨d, hd, rfl⟩ := List.mem_map.mp h
    exact .decl hd
  · obtain ⟨d, hd, rfl⟩ := List.mem_map.mp h
    exact .external hd
  · obtain ⟨d, hd, rfl⟩ := List.mem_map.mp h
    exact .template hd
  · obtain ⟨r, hr, rfl⟩ := List.mem_map.mp h
    exact .mark hr
  · obtain ⟨r, hr, ⟨order, rfl⟩ | ⟨i, hi, rfl⟩⟩ := mem_ofRules h
    · exact .rule hr order
    · exact .secondRule hr hi

end Job

namespace Analysis

def perform (a : Analysis) (ts : List Job) : Analysis := ts.foldl (fun a t => a.attempt t.attempt) a

theorem perform_append (a : Analysis) (ts us : List Job) :
    a.perform (ts ++ us) = (a.perform ts).perform us := List.foldl_append

theorem perform_cons (a : Analysis) (t : Job) (ts : List Job) :
    a.perform (t :: ts) = (a.attempt t.attempt).perform ts := rfl

theorem perform_map {δ : Type} (job : δ → Job) (a : Analysis) (ds : List δ) :
    a.perform (ds.map job) = ds.foldl (fun a d => a.attempt (job d).attempt) a :=
  List.foldl_map

theorem perform_refuse (a : Analysis) (ts : List Job) :
    a.perform ts = ⟨(perform ⟨a.ruleSet, []⟩ ts).ruleSet,
      a.errors ++ (perform ⟨a.ruleSet, []⟩ ts).errors⟩ := by
  induction ts generalizing a with
  | nil => simp [perform]
  | cons t ts ih =>
    rw [perform_cons, perform_cons, ih, ih (attempt ⟨a.ruleSet, []⟩ _)]
    simp only [attempt]
    cases t.attempt a.ruleSet <;> simp [refuse]

theorem perform_induction {P : RuleSet → Prop} {a : Analysis} (start : P a.ruleSet)
    {ts : List Job}
    (step : ∀ t ∈ ts, ∀ rs rs', P rs → t.attempt rs = .ok rs' → P rs') :
    P (a.perform ts).ruleSet := by
  induction ts generalizing a with
  | nil => exact start
  | cons t ts ih =>
    obtain ⟨ht, hts⟩ := List.forall_mem_cons.mp step
    rw [perform_cons]
    apply ih _ hts
    rw [attempt]
    cases hattempt : t.attempt a.ruleSet with
    | ok rs => exact ht a.ruleSet rs start hattempt
    | error es => exact start

theorem perform_errors_induction {P : RuleSet → Prop} {Q : SemanticError → Prop} {a : Analysis}
    (start : P a.ruleSet) (found : ∀ e ∈ a.errors, Q e) {ts : List Job}
    (step : ∀ t ∈ ts, ∀ rs rs', P rs → t.attempt rs = .ok rs' → P rs')
    (refused : ∀ t ∈ ts, ∀ rs es, P rs → t.attempt rs = .error es → ∀ e ∈ es, Q e) :
    ∀ e ∈ (a.perform ts).errors, Q e := by
  induction ts generalizing a with
  | nil => exact found
  | cons t ts ih =>
    obtain ⟨ht, hts⟩ := List.forall_mem_cons.mp step
    obtain ⟨ht', hts'⟩ := List.forall_mem_cons.mp refused
    rw [perform_cons, attempt]
    cases hattempt : t.attempt a.ruleSet with
    | ok rs => exact ih (ht a.ruleSet rs start hattempt) found hts hts'
    | error es =>
      refine ih (a := a.refuse es) start ?_ hts hts'
      exact List.forall_mem_append.mpr ⟨found, ht' a.ruleSet es start hattempt⟩

end Analysis

namespace RuleSet

theorem addRule_ok {rs s : RuleSet} {r : Rule} {order : Nat} :
    addRule r order rs = .ok s ↔
      ∃ c, Check.rule rs r order = .ok c ∧ { rs with rules := rs.rules.push c } = s := by
  rw [addRule]
  cases Check.rule rs r order <;> simp [Except.map]

theorem perform_ofRules (names : List Bytes) (order : Nat) (a : Analysis) (rs : List Rule) :
    ∃ rules, (a.perform (Job.ofRules names order rs)).ruleSet = { a.ruleSet with rules } := by
  induction rs generalizing names order a with
  | nil => exact ⟨a.ruleSet.rules, rfl⟩
  | cons r rs ih =>
    by_cases hfree : ∀ i, r.name = some i → i.name ∉ names
    · rw [Job.ofRules_cons_checked hfree, Analysis.perform_cons]
      obtain ⟨rules, hrules⟩ := ih ((r.name.map Ident.name).toList ++ names) (order + 1)
        (a.attempt (addRule r order))
      refine ⟨rules, hrules.trans ?_⟩
      rw [Analysis.attempt, addRule]
      cases Check.rule a.ruleSet r order <;> rfl
    · push Not at hfree
      obtain ⟨i, hname, hi⟩ := hfree
      rw [Job.ofRules_cons_refused hname hi]
      exact ih names order (a.refuse _)

theorem addVariants_eq_perform {type : TypeId} {typeName : Bytes} {a : Analysis}
    (h : a.ruleSet.types.find? typeName = some type) (seen : List Bytes) (vs : List Variant) :
    addVariants type typeName seen a vs = a.perform (Job.ofVariants typeName seen vs) := by
  induction vs generalizing a seen with
  | nil => rfl
  | cons v vs ih =>
    by_cases hv : v.name.name ∈ seen
    · rw [addVariants, if_pos hv, Job.ofVariants_cons_seen hv]
      exact ih (a := a.refuse _) h seen
    · rw [addVariants_cons h hv, Job.ofVariants_cons_new hv]
      apply ih
      rw [find?_attempt_variant, h]

theorem foldl_addBody_eq_perform {a b : Analysis} {taken : List Bytes} {ds : List TypeDef}
    (htaken : ∀ name, name ∈ taken ↔ (a.ruleSet.types.find? name).isSome)
    (hb : ∀ name, b.ruleSet.types.find? name = (addTypeNames a ds).1.ruleSet.types.find? name) :
    (addTypeNames a ds).2.foldl addBody b = b.perform (Job.ofBodies taken ds) := by
  induction ds generalizing a b taken with
  | nil => rfl
  | cons d ds ih =>
    rw [addTypeNames] at hb ⊢
    cases hinsert : a.ruleSet.types.insert? (TypeInfo.ofDef d) with
    | none =>
      have hd : d.name.name ∈ taken := by
        rw [htaken]
        by_contra hfree
        have hnone : a.ruleSet.types.find? d.name.name = none := by simpa using hfree
        obtain ⟨types, htypes⟩ := Table.exists_insert? (a := TypeInfo.ofDef d) hnone
        rw [hinsert] at htypes
        cases htypes
      rw [hinsert] at hb
      rw [Job.ofBodies_cons_taken hd]
      exact ih (a := a.refuse _) htaken hb
    | some types =>
      have hfree : a.ruleSet.types.find? d.name.name = none :=
        Table.find?_eq_none_of_insert? hinsert
      have hd : d.name.name ∉ taken := by simp [htaken, hfree]
      have hfind (name : Bytes) : types.find? name =
          if d.name.name = name then some a.ruleSet.types.size
          else a.ruleSet.types.find? name :=
        Table.find?_of_insert? hinsert name
      rw [hinsert] at hb
      have hid : b.ruleSet.types.find? d.name.name = some a.ruleSet.types.size := by
        rw [hb]
        apply find?_addTypeNames
        exact (hfind d.name.name).trans (if_pos rfl)
      dsimp only
      rw [List.foldl_cons, addBody_eq, Job.ofBodies_cons_free hd, Analysis.perform_append,
        ← addVariants_eq_perform hid]
      apply ih
      · intro name
        rw [List.mem_cons, hfind]
        by_cases hname : d.name.name = name
        · simp [hname]
        · simp [hname, Ne.symm hname, htaken]
      · intro name
        rw [find?_addVariants hid, hb]

theorem addTypes_eq_perform {a : Analysis} {taken : List Bytes}
    (htaken : ∀ name, name ∈ taken ↔ (a.ruleSet.types.find? name).isSome)
    (defs : List Definition) :
    addTypes a (defs.filterMap Definition.type?) =
      a.perform (Job.types defs ++ Job.variants taken defs) := by
  have hnames : (addTypeNames a (defs.filterMap Definition.type?)).1 =
      a.perform (Job.types defs) := by
    rw [addTypeNames_eq_foldl, Job.types, Analysis.perform_map]
    rfl
  rw [addTypes, Analysis.perform_append, ← hnames]
  exact foldl_addBody_eq_perform htaken fun _ => rfl

theorem markRules_eq_perform (a : Analysis) (rules : List Rule) :
    a.markRules rules = a.perform (rules.map fun r => .enter (.mark r)) := by
  induction rules generalizing a with
  | nil => rfl
  | cons r rules ih => exact ih { a with ruleSet := a.ruleSet.markInternal r }

theorem addRules_eq_perform (names : List Bytes) (order : Nat) (a : Analysis)
    (rules : List Rule) :
    addRules names order a rules = a.perform (Job.ofRules names order rules) := by
  induction rules generalizing names order a with
  | nil => rfl
  | cons r rules ih =>
    rcases addRules_cons names order a r rules with
      ⟨i, hname, htaken, hrefused⟩ | ⟨hfree, hattempted⟩
    · rw [hrefused, Job.ofRules_cons_refused hname htaken]
      exact ih names order (a.refuse _)
    · rw [hattempted, Job.ofRules_cons_checked hfree]
      exact ih _ _ _

def typeNames (rs : RuleSet) : List Bytes := rs.types.entries.toList.map TypeInfo.name

theorem mem_typeNames (rs : RuleSet) (name : Bytes) :
    name ∈ rs.typeNames ↔ (rs.types.find? name).isSome := by
  rw [typeNames, Table.find?, List.mem_map, Array.findIdx?_isSome, ← Array.any_toList,
    List.any_eq_true]
  simp only [beq_iff_eq]
  rfl

end RuleSet

namespace Analysis

/-- An analysis does its jobs one after the other. -/
theorem run_eq_perform (a : Analysis) (defs : List Definition) :
    a.run defs = a.perform (Job.ofDefinitions a.ruleSet.typeNames defs) := by
  rw [run, Job.ofDefinitions, perform_append, perform_append, perform_append, perform_append,
    perform_append, ← RuleSet.addTypes_eq_perform a.ruleSet.mem_typeNames, Job.decls,
    perform_map, Job.externals, perform_map, Job.templates, perform_map, Job.marks,
    ← RuleSet.markRules_eq_perform, Job.rules, ← RuleSet.addRules_eq_perform]
  rfl

end Analysis

theorem RuleSet.analyze_induction {P : RuleSet → Prop} {rs : RuleSet} (start : P rs)
    (defs : List Definition)
    (step : ∀ t ∈ Job.ofDefinitions rs.typeNames defs, ∀ s s', P s → t.attempt s = .ok s' → P s') :
    P (rs.analyze defs).1 := by
  rw [analyze, Analysis.run_eq_perform]
  exact Analysis.perform_induction (a := ⟨rs, []⟩) start step

end TermRules

import TermRules.Proofs.Checking
import TermRules.Proofs.Jobs

/-!
# Rule sets without errors

A rule marks its term as built by rules before any rule is checked. If the rule
is refused afterwards, the mark stays and the term may be left without rules. An
analysis that finds no error refuses no rule, so that every marked term has one.
-/

namespace TermRules

namespace RuleSet

/-- What analyses lead to that find no error. -/
inductive Faultless : RuleSet → Prop
  | empty : Faultless .empty
  | analyze {rs : RuleSet} {defs : List Definition} (before : Faultless rs)
      (accepted : (rs.analyze defs).2 = []) : Faultless (rs.analyze defs).1

theorem Faultless.exists_batches {rs : RuleSet} (h : rs.Faultless) :
    ∃ batches, rs = afterAll batches := by
  induction h with
  | empty => exact ⟨[], rfl⟩
  | @analyze rs defs before accepted ih =>
    obtain ⟨batches, rfl⟩ := ih
    refine ⟨batches ++ [defs], ?_⟩
    rw [afterAll, afterAll, List.foldl_append]
    rfl

end RuleSet

theorem Job.rules_subset {t : Job} {rs s : RuleSet} (h : t.attempt rs = .ok s) {c : CheckedRule}
    (hc : c ∈ rs.rules) : c ∈ s.rules := by
  cases t with
  | enter e => rwa [Entry.enter_rules h]
  | refuse error => cases h
  | check r order =>
    obtain ⟨c', -, rfl⟩ := RuleSet.addRule_ok.mp h
    exact Array.mem_push_of_mem c' hc

namespace Analysis

theorem rules_subset_perform (a : Analysis) (ts : List Job) {c : CheckedRule}
    (hc : c ∈ a.ruleSet.rules) : c ∈ (a.perform ts).ruleSet.rules := by
  apply perform_induction (P := fun rs => c ∈ rs.rules) hc
  intro t _ rs s hrs hattempt
  exact Job.rules_subset hattempt hrs

theorem errors_of_perform {a : Analysis} {ts : List Job} (h : (a.perform ts).errors = []) :
    a.errors = [] := by
  rw [perform_refuse] at h
  exact (List.append_eq_nil_iff.mp h).1

end Analysis

theorem Check.root_of_rule {rs : RuleSet} {r : Rule} {order : Nat} {c : CheckedRule}
    (h : rule rs r order = .ok c) : r.root?.bind rs.terms.find? = some c.root := by
  obtain ⟨root, patterns, args, s, gs, t, result, s', hroot, -, -, -, rfl⟩ := rule_ok.mp h
  obtain ⟨loc, name, info, hpattern, hid, -⟩ := ruleRoot_ok hroot
  rw [Rule.root?, hpattern]
  exact hid

namespace RuleSet

theorem exists_checked {names : List Bytes} {order : Nat} {a : Analysis} {rules : List Rule}
    (h : (a.perform (Job.ofRules names order rules)).errors = []) :
    ∀ r ∈ rules, ∃ c ∈ (a.perform (Job.ofRules names order rules)).ruleSet.rules,
      r.root?.bind a.ruleSet.terms.find? = some c.root := by
  induction rules generalizing names order a with
  | nil => simp
  | cons r rules ih =>
    by_cases hfree : ∀ i, r.name = some i → i.name ∉ names
    · rw [Job.ofRules_cons_checked hfree, Analysis.perform_cons] at h ⊢
      have herrors := Analysis.errors_of_perform h
      have hexplained := Check.explained_rule a.ruleSet r order
      cases hcheck : Check.rule a.ruleSet r order with
      | error es =>
        rw [hcheck, explained_error] at hexplained
        rw [Analysis.attempt, Job.attempt, addRule, hcheck] at herrors
        exact absurd (List.append_eq_nil_iff.mp herrors).2 hexplained
      | ok c =>
        have hstep : a.attempt (Job.check r order).attempt =
            ⟨{ a.ruleSet with rules := a.ruleSet.rules.push c }, a.errors⟩ := by
          rw [Analysis.attempt, Job.attempt, addRule_ok.mpr ⟨c, hcheck, rfl⟩]
        intro r' hr'
        rcases List.mem_cons.mp hr' with rfl | hr'
        · refine ⟨c, ?_, Check.root_of_rule hcheck⟩
          apply Analysis.rules_subset_perform
          rw [hstep]
          exact Array.mem_push_self
        · obtain ⟨c', hc', hroot⟩ := ih h r' hr'
          rw [hstep] at hroot
          exact ⟨c', hc', hroot⟩
    · push Not at hfree
      obtain ⟨i, hname, hi⟩ := hfree
      rw [Job.ofRules_cons_refused hname hi, Analysis.perform_cons] at h
      have herrors := Analysis.errors_of_perform h
      exact absurd (List.append_eq_nil_iff.mp herrors).2 (by simp)

def Served (rs : RuleSet) (rules : List Rule) : Prop :=
  ∀ id info loc, rs.terms.get? id = some info → info.constructor = .internal loc →
    (∃ c ∈ rs.rules, c.root = id) ∨ ∃ r ∈ rules, r.root?.bind rs.terms.find? = some id

variable {rs : RuleSet} {rules : List Rule}

theorem Served.insert (h : rs.Served rules) {term : TermInfo} {terms : Table TermInfo}
    (hinsert : rs.terms.insert? term = some terms)
    (hterm : ∀ loc, term.constructor ≠ .internal loc) (types : Table TypeInfo) :
    Served { rs with types, terms } rules := by
  intro id info loc hget hinternal
  rw [Table.get?_of_insert? hinsert] at hget
  split_ifs at hget
  · cases hget
    exact absurd hinternal (hterm loc)
  · rcases h id info loc hget hinternal with hc | ⟨r, hr, hroot⟩
    · exact .inl hc
    · obtain ⟨name, hname, hid⟩ := Option.bind_eq_some_iff.mp hroot
      refine .inr ⟨r, hr, Option.bind_eq_some_iff.mpr ⟨name, hname, ?_⟩⟩
      exact Table.find?_insert?_of_some hinsert hid

theorem Served.modify (h : rs.Served rules) (id : TermId) {f : TermInfo → TermInfo}
    (hname : ∀ t, (f t).name = t.name)
    (hinternal : ∀ t loc, (f t).constructor = .internal loc → t.constructor = .internal loc ∨
      ∃ r ∈ rules, r.root?.bind rs.terms.find? = some id) :
    Served { rs with terms := rs.terms.modify id f } rules := by
  have hfind : (rs.terms.modify id f).find? = rs.terms.find? :=
    funext (Table.find?_modify rs.terms id hname)
  intro i info loc hget hinfo
  rw [hfind]
  rw [Table.get?_modify] at hget
  split_ifs at hget with hi
  · obtain ⟨t, ht, rfl⟩ := Option.map_eq_some_iff.mp hget
    rcases hinternal t loc hinfo with hold | hr
    · exact h i t loc ht hold
    · exact .inr (hi ▸ hr)
  · exact h i info loc hget hinfo

theorem Served.attempt {defs : List Definition}
    (h : rs.Served (defs.filterMap Definition.rule?)) {t : Job} (ht : t.AskedBy defs)
    {s : RuleSet} (hs : t.attempt rs = .ok s) : s.Served (defs.filterMap Definition.rule?) := by
  cases ht with
  | type _ =>
    obtain ⟨types, -, rfl⟩ := addTypeName_ok.mp hs
    exact h
  | variant _ _ =>
    obtain ⟨type, -, hvariant⟩ := Entry.enter_variant_ok.mp hs
    obtain ⟨ids, terms, -, hinsert, rfl⟩ := addVariant_ok.mp hvariant
    exact h.insert hinsert (fun _ => Constructor.noConfusion) _
  | decl _ =>
    obtain ⟨args, ret, terms, -, -, hinsert, rfl⟩ := addDecl_ok.mp hs
    exact h.insert hinsert (fun _ => Constructor.noConfusion) _
  | @external d _ =>
    obtain ⟨id, -, -, rfl⟩ := addExternal_ok.mp hs
    apply h.modify id d.name_fill
    intro t loc hinternal
    rw [ExternalDef.fill] at hinternal
    split at hinternal
    · cases hinternal
    · exact .inl hinternal
  | template _ =>
    obtain ⟨id, -, -, -, rfl⟩ := addTemplate_ok.mp hs
    exact h.modify id (fun _ => rfl) fun t loc hinternal => .inl hinternal
  | @mark r mem =>
    cases hs
    rw [markInternal_eq]
    split
    · rename_i id hid
      exact h.modify id (TermInfo.name_mark r.loc) fun t loc _ => .inr ⟨r, mem, hid⟩
    · exact h
  | rule _ order =>
    obtain ⟨c, -, rfl⟩ := addRule_ok.mp hs
    intro id info loc hget hinternal
    rcases h id info loc hget hinternal with ⟨c', hc', hroot⟩ | hr
    · exact .inl ⟨c', Array.mem_push_of_mem c hc', hroot⟩
    · exact .inr hr
  | secondVariant _ _ => cases hs
  | secondRule _ _ => cases hs

theorem Served.analyze (h : rs.Served []) {defs : List Definition}
    (accepted : (rs.analyze defs).2 = []) : (rs.analyze defs).1.Served [] := by
  let rules := defs.filterMap Definition.rule?
  have hstart : rs.Served rules := by
    intro id info loc hget hinternal
    rcases h id info loc hget hinternal with hc | ⟨r, hr, -⟩
    · exact .inl hc
    · cases hr
  have hserved : (Analysis.perform ⟨rs, []⟩ (Job.ofDefinitions rs.typeNames defs)).ruleSet.Served
      rules := by
    apply Analysis.perform_induction (P := fun rs => rs.Served rules) hstart
    intro t ht rs s hrs hattempt
    exact hrs.attempt (Job.askedBy_of_mem ht) hattempt
  rw [RuleSet.analyze, Analysis.run_eq_perform] at accepted ⊢
  intro id info loc hget hinternal
  rcases hserved id info loc hget hinternal with hc | ⟨r, hr, hroot⟩
  · exact .inl hc
  -- Checking rules leaves the terms alone, so that the root of the rule is still the same term.
  rw [Job.ofDefinitions, Job.rules, Analysis.perform_append] at accepted hroot ⊢
  obtain ⟨c, hc, hchecked⟩ := exists_checked accepted r hr
  obtain ⟨checked, hrules⟩ := perform_ofRules [] 0 _ rules
  rw [hrules, hchecked] at hroot
  exact .inl ⟨c, hc, Option.some.inj hroot⟩

theorem served_empty : empty.Served [] := by
  intro id info loc hget
  simp [empty, Table.get?, Table.empty] at hget

theorem Faultless.served (h : rs.Faultless) : rs.Served [] := by
  induction h with
  | empty => exact served_empty
  | analyze before accepted ih => exact ih.analyze accepted

theorem Faultless.rulesFor_ne_nil (h : rs.Faultless) {id : TermId} {info : TermInfo} {loc : Loc}
    (hget : rs.terms.get? id = some info) (hinternal : info.constructor = .internal loc) :
    rs.rulesFor id ≠ [] := by
  rcases h.served id info loc hget hinternal with ⟨c, hc, rfl⟩ | ⟨r, hr, -⟩
  · apply List.ne_nil_of_mem (a := c)
    rw [rulesFor_eq, mem_sortStably, List.mem_filter]
    exact ⟨hc.val, decide_eq_true rfl⟩
  · cases hr

end RuleSet

end TermRules

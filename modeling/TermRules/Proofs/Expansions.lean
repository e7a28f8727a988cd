import TermRules.Proofs.Jobs
import TermRules.Proofs.RecursionFree

/-!
# Nested expansions

While a template is expanded, its term may not be expanded again, and the
arguments of its use are checked inside the expansion. A use in an argument is
therefore met like a use in the body. If no term meets itself in this way, no
expansion is refused.
-/

namespace TermRules

def NeverRecursion {α : Type} (x : Except (List SemanticError) α) : Prop :=
  ∀ es, x = .error es → ∀ e ∈ es, ¬e.IsRecursion

theorem neverRecursion_ok {α : Type} (a : α) :
    NeverRecursion (.ok a : Except (List SemanticError) α) := by
  intro es h
  cases h

theorem neverRecursion_error {α : Type} {e : SemanticError}
    (h : ∀ name, e.fault ≠ .recursiveExtractor name) :
    NeverRecursion (.error [e] : Except (List SemanticError) α) := by
  intro es hes
  cases hes
  rw [List.forall_mem_singleton]
  rintro ⟨name, hname⟩
  exact h name hname

theorem neverRecursion_bothOrErrors {α β : Type} {x : Except (List SemanticError) α}
    {y : Except (List SemanticError) β} (hx : NeverRecursion x) (hy : NeverRecursion y) :
    NeverRecursion (bothOrErrors x y) := by
  intro es hes
  cases x with
  | ok a =>
    cases y with
    | ok b => cases hes
    | error gs =>
      cases hes
      exact hy _ rfl
  | error fs =>
    cases y with
    | ok b =>
      cases hes
      exact hx _ rfl
    | error gs =>
      cases hes
      exact List.forall_mem_append.mpr ⟨hx fs rfl, hy gs rfl⟩

namespace RuleSet

variable (rs : RuleSet)

theorem neverRecursion_resolveType (i : Ident) : NeverRecursion (rs.resolveType i) := by
  rw [resolveType]
  cases rs.types.find? i.name with
  | none => exact neverRecursion_error fun _ => SemanticFault.noConfusion
  | some id => exact neverRecursion_ok id

theorem neverRecursion_resolveTypes (is : List Ident) : NeverRecursion (rs.resolveTypes is) := by
  induction is with
  | nil => exact neverRecursion_ok []
  | cons i is ih =>
    have hboth := neverRecursion_bothOrErrors (rs.neverRecursion_resolveType i) ih
    intro es hes
    rw [resolveTypes] at hes
    cases h : bothOrErrors (rs.resolveType i) (rs.resolveTypes is) with
    | ok p =>
      rw [h] at hes
      cases hes
    | error fs =>
      rw [h] at hes
      cases hes
      exact hboth _ h

theorem neverRecursion_addVariant (type : TypeId) (typeName : Bytes) (v : Variant) :
    NeverRecursion (addVariant type typeName v rs) := by
  have htypes := rs.neverRecursion_resolveTypes (v.fields.map Field.type)
  rw [addVariant_eq]
  cases h : rs.resolveTypes (v.fields.map Field.type) with
  | error es =>
    rw [h] at htypes
    intro fs hfs
    cases hfs
    exact htypes es rfl
  | ok ids =>
    dsimp only
    split
    · exact neverRecursion_error fun _ => SemanticFault.noConfusion
    · exact neverRecursion_ok _

theorem neverRecursion_addDecl (d : TermDecl) : NeverRecursion (addDecl d rs) := by
  have htypes := neverRecursion_bothOrErrors (rs.neverRecursion_resolveTypes d.args)
    (rs.neverRecursion_resolveType d.ret)
  rw [addDecl_eq]
  rcases h : bothOrErrors (rs.resolveTypes d.args) (rs.resolveType d.ret) with es | ⟨args, ret⟩
  · rw [h] at htypes
    intro fs hfs
    cases hfs
    exact htypes es rfl
  · dsimp only
    split
    · exact neverRecursion_ok _
    · exact neverRecursion_error fun _ => SemanticFault.noConfusion

theorem neverRecursion_addExternal (d : ExternalDef) : NeverRecursion (addExternal d rs) := by
  rw [addExternal]
  cases rs.terms.find? d.term.name with
  | none => exact neverRecursion_error fun _ => SemanticFault.noConfusion
  | some id =>
    cases d.kind with
    | constructor =>
      dsimp only
      split_ifs
      · exact neverRecursion_ok _
      · exact neverRecursion_error fun _ => SemanticFault.noConfusion
    | extractor infallible =>
      dsimp only
      split_ifs
      · exact neverRecursion_ok _
      · exact neverRecursion_error fun _ => SemanticFault.noConfusion

theorem neverRecursion_addTemplate (d : Template) : NeverRecursion (addTemplate d rs) := by
  rw [addTemplate]
  cases rs.terms.find? d.term.name with
  | none => exact neverRecursion_error fun _ => SemanticFault.noConfusion
  | some id =>
    dsimp only
    split_ifs
    · exact neverRecursion_error fun _ => SemanticFault.noConfusion
    · exact neverRecursion_error fun _ => SemanticFault.noConfusion
    · exact neverRecursion_ok _

end RuleSet

theorem Entry.neverRecursion_enter (e : Entry) (rs : RuleSet) : NeverRecursion (e.enter rs) := by
  cases e with
  | type d =>
    rw [enter, RuleSet.addTypeName]
    split
    · exact neverRecursion_ok _
    · exact neverRecursion_error fun _ => SemanticFault.noConfusion
  | variant typeName v =>
    rw [enter]
    split
    · exact rs.neverRecursion_addVariant _ typeName v
    · exact neverRecursion_error fun _ => SemanticFault.noConfusion
  | decl d => exact rs.neverRecursion_addDecl d
  | external d => exact rs.neverRecursion_addExternal d
  | template d => exact rs.neverRecursion_addTemplate d
  | mark r => exact neverRecursion_ok _

namespace Check

variable {rs : RuleSet} {ts : List Template}

theorem Templated.insert (h : Templated rs ts) {term : TermInfo} {terms : Table TermInfo}
    (hinsert : rs.terms.insert? term = some terms)
    (hterm : ∀ index place, term.extractor ≠ .template index place) (types : Table TypeInfo) :
    Templated { rs with types, terms } ts := by
  intro id info index place hget hextractor
  rw [Table.get?_of_insert? hinsert] at hget
  split_ifs at hget
  · cases hget
    exact absurd hextractor (hterm index place)
  · exact h id info index place hget hextractor

theorem Templated.modify (h : Templated rs ts) (id : TermId) {f : TermInfo → TermInfo}
    (hname : ∀ t, (f t).name = t.name)
    (hextractor : ∀ t index place, (f t).extractor = .template index place →
      t.extractor = .template index place) :
    Templated { rs with terms := rs.terms.modify id f } ts := by
  intro i info index place hget hinfo
  rw [Table.get?_modify] at hget
  split_ifs at hget
  · obtain ⟨t, ht, rfl⟩ := Option.map_eq_some_iff.mp hget
    rw [hname]
    exact h i t index place ht (hextractor t index place hinfo)
  · exact h i info index place hget hinfo

theorem Templated.addTemplate (h : Templated rs ts) {d : Template} (hd : d ∈ ts) {s : RuleSet}
    (hs : RuleSet.addTemplate d rs = .ok s) : Templated s ts := by
  obtain ⟨id, hid, -, -, rfl⟩ := RuleSet.addTemplate_ok.mp hs
  obtain ⟨found, hfound, hname⟩ := Table.get?_of_find? hid
  intro i info index place hget hextractor
  simp only [RuleSet.setExtractor, Table.get?_modify] at hget
  split_ifs at hget with hi
  · subst hi
    rw [hfound] at hget
    cases hget
    cases hextractor
    refine ⟨d, hd, ?_, hname.symm⟩
    exact Array.getElem?_push_size
  · obtain ⟨t, ht, hindex, htname⟩ := h i info index place hget hextractor
    refine ⟨t, ht, ?_, htname⟩
    have hlt := (Array.getElem?_eq_some_iff.mp hindex).1
    dsimp only
    rw [Array.getElem?_push_lt hlt, ← hindex, Array.getElem?_eq_getElem hlt]

theorem Templated.attempt {defs : List Definition}
    (h : Templated rs (defs.filterMap Definition.template?)) {t : Job} (ht : t.AskedBy defs)
    {s : RuleSet} (hs : t.attempt rs = .ok s) :
    Templated s (defs.filterMap Definition.template?) := by
  cases ht with
  | type _ =>
    obtain ⟨types, -, rfl⟩ := RuleSet.addTypeName_ok.mp hs
    exact h
  | variant _ _ =>
    obtain ⟨type, -, hvariant⟩ := Entry.enter_variant_ok.mp hs
    obtain ⟨ids, terms, -, hinsert, rfl⟩ := RuleSet.addVariant_ok.mp hvariant
    exact h.insert hinsert (fun _ _ => Extractor.noConfusion) _
  | decl _ =>
    obtain ⟨args, ret, terms, -, -, hinsert, rfl⟩ := RuleSet.addDecl_ok.mp hs
    exact h.insert hinsert (fun _ _ => Extractor.noConfusion) _
  | @external d _ =>
    obtain ⟨id, -, -, rfl⟩ := RuleSet.addExternal_ok.mp hs
    apply h.modify id d.name_fill
    intro t index place hextractor
    rw [ExternalDef.fill] at hextractor
    split at hextractor
    · exact hextractor
    · cases hextractor
  | template mem => exact h.addTemplate mem hs
  | @mark r _ =>
    cases hs
    rw [RuleSet.markInternal_eq]
    split
    · apply h.modify _ (TermInfo.name_mark r.loc)
      intro t index place hextractor
      rw [TermInfo.mark] at hextractor
      split_ifs at hextractor <;> exact hextractor
    · exact h
  | @rule r _ order =>
    obtain ⟨c, -, rfl⟩ := RuleSet.addRule_ok.mp hs
    exact h
  | secondVariant _ _ => cases hs
  | secondRule _ _ => cases hs

theorem neverRecursion_attempt {defs : List Definition}
    (hrs : Templated rs (defs.filterMap Definition.template?))
    (h : ∀ r ∈ defs.filterMap Definition.rule?, ∀ p ∈ r.patterns,
      MeetsItselfNowhere (defs.filterMap Definition.template?) p)
    {t : Job} (ht : t.AskedBy defs) : NeverRecursion (t.attempt rs) := by
  cases t with
  | enter e => exact e.neverRecursion_enter rs
  | refuse error =>
    cases ht with
    | secondVariant _ _ => exact neverRecursion_error fun _ => SemanticFault.noConfusion
    | secondRule _ _ => exact neverRecursion_error fun _ => SemanticFault.noConfusion
  | check r order =>
    cases ht with
    | rule mem =>
      intro es hes
      rw [Job.attempt, RuleSet.addRule] at hes
      cases hcheck : rule rs r order with
      | ok c => simp [hcheck, Except.map] at hes
      | error fs =>
        rw [hcheck] at hes
        cases hes
        exact not_isRecursion_of_rule hrs (h r mem) hcheck

end Check

/-- If in no pattern of a rule a term can be met inside its own expansion, no expansion is refused,
however uses stand in the arguments of other uses. -/
theorem RuleSet.analyze_no_recursion (defs : List Definition)
    (h : ∀ r ∈ defs.filterMap Definition.rule?, ∀ p ∈ r.patterns,
      MeetsItselfNowhere (defs.filterMap Definition.template?) p) :
    ∀ e ∈ (empty.analyze defs).2, ∀ name, e.fault ≠ .recursiveExtractor name := by
  have hnever : ∀ e ∈ (Analysis.run ⟨empty, []⟩ defs).errors, ¬e.IsRecursion := by
    rw [Analysis.run_eq_perform]
    apply Analysis.perform_errors_induction
      (P := fun rs => Check.Templated rs (defs.filterMap Definition.template?))
      (Q := fun e => ¬e.IsRecursion)
    · intro id info index place hget
      cases hget
    · simp
    · intro t ht rs s hrs hs
      exact hrs.attempt (Job.askedBy_of_mem ht) hs
    · intro t ht rs es hrs hes
      exact Check.neverRecursion_attempt hrs h (Job.askedBy_of_mem ht) es hes
  intro e he name hname
  exact hnever e he ⟨name, hname⟩

theorem meetsItselfNowhere_of_rank {ts : List Template} {p : Pattern} (rank : Bytes → Nat)
    (h : ∀ name met, Meets ts p name met → rank met < rank name) : MeetsItselfNowhere ts p := by
  intro name hname
  have hlt : ∀ met, Relation.TransGen (Meets ts p) name met → rank met < rank name := by
    intro met hmet
    induction hmet with
    | single hmeets => exact h _ _ hmeets
    | tail _ hmeets ih => exact Nat.lt_trans (h _ _ hmeets) ih
  exact Nat.lt_irrefl _ (hlt name hname)

namespace Definition

def nestedTemplates : List Template :=
  let name (b : UInt8) : Ident := ⟨[b], .unknown⟩
  let inc (p : Pattern) : Pattern := .term .unknown [105] [p]
  [⟨name 111, [name 97], inc (.var .unknown [97]), .unknown⟩,
    ⟨name 116, [name 97], inc (inc (.var .unknown [97])), .unknown⟩]

def nestedPattern : Pattern := .term .unknown [111] [.term .unknown [116] [.var .unknown [120]]]

def nestedSample : List Definition :=
  let name (b : UInt8) : Ident := ⟨[b], .unknown⟩
  let u := name 117
  let decl (b : UInt8) : Definition := .decl ⟨name b, [u], u, false, false, .unknown⟩
  [.type ⟨u, false, false, .primitive u, .unknown⟩, decl 105, decl 111, decl 116, decl 103,
    .external ⟨.extractor false, name 105, name 105, .unknown⟩] ++
    nestedTemplates.map .template ++
    [.rule {
      name := none
      priority := 0
      pattern := .term .unknown [103] [nestedPattern]
      guards := []
      result := .int .unknown ⟨false, 0⟩
      loc := .unknown }]

theorem body_of_nestedTemplates {t : Template} (ht : t ∈ nestedTemplates) :
    (t.term.name = [111] ∨ t.term.name = [116]) ∧ ∀ name, t.body.Mentions name → name = [105] := by
  simp only [nestedTemplates, List.mem_cons, List.not_mem_nil, or_false] at ht
  rcases ht with rfl | rfl
  · refine ⟨.inl rfl, ?_⟩
    rintro name ⟨args, h⟩
    simp only [Pattern.uses, Pattern.usesAll, List.append_nil, List.mem_singleton,
      Prod.mk.injEq] at h
    exact h.1
  · refine ⟨.inr rfl, ?_⟩
    rintro name ⟨args, h⟩
    simp only [Pattern.uses, Pattern.usesAll, List.append_nil, List.mem_cons, List.not_mem_nil,
      or_false, Prod.mk.injEq] at h
    exact h.elim And.left And.left

theorem nests_nestedPattern {outer inner : Bytes} (h : nestedPattern.Nests outer inner) :
    outer = [111] ∧ inner = [116] := by
  obtain ⟨args, hargs, a, ha, innerArgs, hinner⟩ := h
  simp only [nestedPattern, Pattern.uses, Pattern.usesAll, List.append_nil, List.mem_cons,
    List.not_mem_nil, or_false, Prod.mk.injEq] at hargs
  rcases hargs with ⟨rfl, rfl⟩ | ⟨rfl, rfl⟩
  · rw [List.mem_singleton.mp ha] at hinner
    simp only [Pattern.uses, Pattern.usesAll, List.append_nil, List.mem_singleton,
      Prod.mk.injEq] at hinner
    exact ⟨rfl, hinner.1⟩
  · rw [List.mem_singleton.mp ha] at hinner
    cases hinner

theorem meetsItselfNowhere_nestedPattern : MeetsItselfNowhere nestedTemplates nestedPattern := by
  apply meetsItselfNowhere_of_rank fun name =>
    if name = [111] then 2 else if name = [116] then 1 else 0
  rintro name met (⟨t, ht, rfl, hmet⟩ | ⟨⟨t, ht, rfl⟩, outer, hpassed, hencloses⟩)
  · obtain ⟨hname, hbody⟩ := body_of_nestedTemplates ht
    rw [hbody met hmet]
    rcases hname with hname | hname <;> rw [hname] <;> decide
  · obtain ⟨hname, -⟩ := body_of_nestedTemplates ht
    -- No template is used in the body of another one, so nothing is passed on.
    have houter : outer = t.term.name := by
      cases hpassed with
      | refl => rfl
      | tail _ hcalls =>
        obtain ⟨t', ht', -, hmentions⟩ := hcalls
        rw [(body_of_nestedTemplates ht').2 _ hmentions] at hname
        rcases hname with hname | hname <;> cases hname
    rcases hencloses with hnests | ⟨t', ht', hnests⟩
    · obtain ⟨hfirst, rfl⟩ := nests_nestedPattern hnests
      rw [← houter, hfirst]
      decide
    · obtain ⟨args, hargs, -⟩ := hnests
      rw [← houter, (body_of_nestedTemplates ht').2 outer ⟨args, hargs⟩] at hname
      rcases hname with hname | hname <;> cases hname

end Definition

/-- The two templates nest without being refused. -/
theorem RuleSet.analyze_no_recursion_nestedSample :
    (∀ r ∈ Definition.nestedSample.filterMap Definition.rule?, ∀ p ∈ r.patterns,
        MeetsItselfNowhere (Definition.nestedSample.filterMap Definition.template?) p) ∧
      (∀ e ∈ (empty.analyze Definition.nestedSample).2, ∀ name,
        e.fault ≠ .recursiveExtractor name) ∧
      (empty.analyze Definition.nestedSample).2 = [] := by
  have hnowhere : ∀ r ∈ Definition.nestedSample.filterMap Definition.rule?, ∀ p ∈ r.patterns,
      MeetsItselfNowhere (Definition.nestedSample.filterMap Definition.template?) p := by
    intro r hr p hp
    rw [List.mem_singleton.mp hr] at hp
    rw [List.mem_singleton.mp hp]
    exact Definition.meetsItselfNowhere_nestedPattern
  exact ⟨hnowhere, analyze_no_recursion Definition.nestedSample hnowhere, by decide +kernel⟩

end TermRules

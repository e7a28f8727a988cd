import TermRules.Proofs.Checking
import TermRules.Proofs.TermUses

/-!
# Checks that refuse no expansion

If no term can be met inside its own expansion, then no check of a pattern, of an
expression or of a rule refuses an expansion: whatever is checked inside
expansions uses only terms that these meet.
-/

namespace TermRules

def SemanticError.IsRecursion (e : SemanticError) : Prop :=
  ∃ name, e.fault = .recursiveExtractor name

namespace Check

def NoRecursion {α : Type} (c : Check α) : Prop :=
  ∀ s e s', c.run s = .error e s' → ¬e.IsRecursion

section NoRecursion

variable {α β : Type}

theorem noRecursion_pure (a : α) : NoRecursion (pure a) := by
  intro s e s' h
  rw [EStateM.run_pure] at h
  cases h

theorem noRecursion_bind {x : Check α} {f : α → Check β} (hx : NoRecursion x)
    (hf : ∀ s a s', x.run s = .ok a s' → NoRecursion (f a)) : NoRecursion (x >>= f) := by
  intro s e s' h
  rw [EStateM.run_bind] at h
  cases hrun : x.run s with
  | ok a t =>
    rw [hrun] at h
    exact hf s a t hrun t e s' h
  | error e' t =>
    rw [hrun] at h
    cases h
    exact hx s e s' hrun

theorem noRecursion_failAt (loc : Loc) {fault : SemanticFault}
    (h : ∀ name, fault ≠ .recursiveExtractor name) :
    NoRecursion (failAt loc fault : Check α) := by
  intro s e s' hrun
  have hfail : (failAt loc fault : Check α).run s = .error ⟨loc, fault⟩ s := rfl
  rw [hfail] at hrun
  cases hrun
  rintro ⟨name, hname⟩
  exact h name hname

theorem noRecursion_get : NoRecursion (get : Check Scope) := by
  intro s e s' h
  rw [EStateM.run_get] at h
  cases h

theorem noRecursion_modify (f : Scope → Scope) : NoRecursion (modify f : Check PUnit) := by
  intro s e s' h
  rw [EStateM.run_modify] at h
  cases h

theorem noRecursion_require (c : Bool) (loc : Loc) {fault : SemanticFault}
    (h : ∀ name, fault ≠ .recursiveExtractor name) : NoRecursion (require c loc fault) := by
  cases c with
  | true => exact noRecursion_pure ()
  | false => exact noRecursion_failAt loc h

theorem noRecursion_bindVar (name : Bytes) (type : TypeId) :
    NoRecursion (bindVar name type) := by
  intro s e s' h
  have hrun : (bindVar name type).run s = .ok s.vars.size (s.bind name type) := rfl
  rw [hrun] at h
  cases h

variable (rs : RuleSet)

theorem noRecursion_ensureType (loc : Loc) (subject : Subject) (found expected : TypeId) :
    NoRecursion (ensureType rs loc subject found expected) :=
  noRecursion_require _ loc fun _ => SemanticFault.noConfusion

theorem noRecursion_ensureTypeIf (loc : Loc) (subject : Subject) (found : TypeId)
    (expected : Option TypeId) : NoRecursion (ensureTypeIf rs loc subject found expected) := by
  cases expected with
  | none => exact noRecursion_pure ()
  | some type => exact noRecursion_ensureType rs loc subject found type

theorem noRecursion_findTerm (loc : Loc) (name : Bytes) : NoRecursion (findTerm rs loc name) := by
  rw [findTerm]
  cases rs.terms.find? name with
  | none => exact noRecursion_failAt loc fun _ => SemanticFault.noConfusion
  | some id => exact noRecursion_pure id

end NoRecursion

section Patterns

variable {rs : RuleSet}

mutual

theorem noRecursion_patternWith
    {expand : Loc → TermId → Pattern → TypeId → Check CheckedPattern} :
    ∀ (p : Pattern) (type : TypeId),
      (∀ name args id index place, (name, args) ∈ p.uses → rs.terms.find? name = some id →
        (rs.termInfo id).extractor = .template index place → ∀ loc type,
          NoRecursion (expand loc id ((rs.templates[index]?.getD default).instantiate args) type)) →
      NoRecursion (patternWith rs expand p type)
  | .wildcard loc, type, _ => noRecursion_pure _
  | .bool loc value, type, _ =>
      noRecursion_bind (noRecursion_ensureType rs _ _ _ _) fun _ _ _ _ => noRecursion_pure _
  | .int loc value, type, _ =>
      noRecursion_bind (noRecursion_require _ _ fun _ => SemanticFault.noConfusion)
        fun _ _ _ _ => noRecursion_pure _
  | .var loc name, type, _ => by
      apply noRecursion_bind noRecursion_get
      intro _ scope _ _
      cases scope.find? name with
      | some v =>
        exact noRecursion_bind (noRecursion_ensureType rs _ _ _ _) fun _ _ _ _ => noRecursion_pure _
      | none => exact noRecursion_bind (noRecursion_bindVar _ _) fun _ _ _ _ => noRecursion_pure _
  | .bind loc name sub, type, h => by
      apply noRecursion_bind noRecursion_get
      intro _ scope _ _
      apply noRecursion_bind (noRecursion_require _ _ fun _ => SemanticFault.noConfusion)
      intro _ _ _ _
      apply noRecursion_bind (noRecursion_bindVar _ _)
      intro _ _ _ _
      exact noRecursion_bind (noRecursion_patternWith sub type h) fun _ _ _ _ => noRecursion_pure _
  | .all loc parts, type, h =>
      noRecursion_bind (noRecursion_patternsWith parts _ h) fun _ _ _ _ => noRecursion_pure _
  | .term loc name args, type, h => by
      apply noRecursion_bind (noRecursion_findTerm rs loc name)
      intro _ id _ hfind
      obtain ⟨hid, -⟩ := run_findTerm_ok.mp hfind
      apply noRecursion_bind (noRecursion_ensureType rs _ _ _ _)
      intro _ _ _ _
      apply noRecursion_bind (noRecursion_require _ _ fun _ => SemanticFault.noConfusion)
      intro _ _ _ _
      have hargs (types : List TypeId) : NoRecursion (patternsWith rs expand args types) :=
        noRecursion_patternsWith args types fun name' args' id' index place huse =>
          h name' args' id' index place (List.mem_cons_of_mem _ huse)
      cases hextractor : (rs.termInfo id).extractor with
      | missing => exact noRecursion_failAt loc fun _ => SemanticFault.noConfusion
      | template index place =>
        exact h name args id index place List.mem_cons_self hid hextractor loc type
      | variant ref => exact noRecursion_bind (hargs _) fun _ _ _ _ => noRecursion_pure _
      | external function infallible place =>
        exact noRecursion_bind (hargs _) fun _ _ _ _ => noRecursion_pure _

theorem noRecursion_patternsWith
    {expand : Loc → TermId → Pattern → TypeId → Check CheckedPattern} :
    ∀ (ps : List Pattern) (types : List TypeId),
      (∀ name args id index place, (name, args) ∈ Pattern.usesAll ps →
        rs.terms.find? name = some id → (rs.termInfo id).extractor = .template index place →
        ∀ loc type, NoRecursion
          (expand loc id ((rs.templates[index]?.getD default).instantiate args) type)) →
      NoRecursion (patternsWith rs expand ps types)
  | [], types, _ => by
      cases types <;> exact noRecursion_pure _
  | p :: ps, [], _ => noRecursion_pure _
  | p :: ps, type :: types, h =>
      noRecursion_bind
        (noRecursion_patternWith p type fun name args id index place huse =>
          h name args id index place (List.mem_append_left _ huse))
        fun _ _ _ _ => noRecursion_bind
          (noRecursion_patternsWith ps types fun name args id index place huse =>
            h name args id index place (List.mem_append_right _ huse))
          fun _ _ _ _ => noRecursion_pure _

end

end Patterns

section Inside

variable {rs : RuleSet} {ts : List Template} {p : Pattern}

def Templated (rs : RuleSet) (ts : List Template) : Prop :=
  ∀ id info index place, rs.terms.get? id = some info → info.extractor = .template index place →
    ∃ t ∈ ts, rs.templates[index]? = some t ∧ t.term.name = info.name

/-- A pattern inside the expansions has only terms that these meet, and puts them only where they
were put. -/
structure Inside (rs : RuleSet) (ts : List Template) (p : Pattern) (expanding : List TermId)
    (q : Pattern) : Prop where
  met : ∀ id ∈ expanding, ∀ name, q.Mentions name →
    Relation.TransGen (Meets ts p) (rs.termInfo id).name name
  received : ∀ outer inner, q.Nests outer inner → Receives ts p outer inner

theorem inside_nil (rs : RuleSet) (ts : List Template) (p : Pattern) : Inside rs ts p [] p where
  met := by simp
  received _ _ h := ⟨_, .refl, .inl h⟩

theorem Inside.instantiate {expanding : List TermId} {q : Pattern}
    (h : Inside rs ts p expanding q) {name : Bytes} {args : List Pattern}
    (huse : (name, args) ∈ q.uses) {id : TermId} (hname : (rs.termInfo id).name = name)
    {t : Template} (ht : t ∈ ts) (htname : t.term.name = name) :
    Inside rs ts p (id :: expanding) (t.instantiate args) where
  met i hi inner hinner := by
    have hcalls (hbody : t.body.Mentions inner) : Meets ts p name inner :=
      .inl ⟨t, ht, htname, hbody⟩
    have hinside : ∀ a ∈ args, a.Mentions inner → q.Mentions inner := by
      rintro a ha ⟨innerArgs, huse'⟩
      exact ⟨innerArgs, Pattern.uses_of_mem_argument huse ha huse'⟩
    rcases List.mem_cons.mp hi with rfl | hi
    · rw [hname]
      rcases Template.mentions_instantiate hinner with hbody | ⟨a, ha, hmentions⟩
      · exact .single (hcalls hbody)
      · exact .single (.inr ⟨⟨t, ht, htname⟩, h.received name inner ⟨args, huse, a, ha, hmentions⟩⟩)
    · rcases Template.mentions_instantiate hinner with hbody | ⟨a, ha, hmentions⟩
      · exact .tail (h.met i hi name ⟨args, huse⟩) (hcalls hbody)
      · exact h.met i hi inner (hinside a ha hmentions)
  received outer inner hnests := by
    rcases Template.nests_instantiate hnests with hbody | ⟨houter, a, ha, hinner⟩ | ⟨a, ha, hnests⟩
    · exact ⟨outer, .refl, .inr ⟨t, ht, hbody⟩⟩
    · -- The argument was received by the term and is put into a term of its body.
      obtain ⟨first, hpassed, hencloses⟩ := h.received name inner ⟨args, huse, a, ha, hinner⟩
      exact ⟨first, hpassed.tail ⟨t, ht, htname, houter⟩, hencloses⟩
    · obtain ⟨ps, hps, b, hb, hinner⟩ := hnests
      exact h.received outer inner
        ⟨ps, Pattern.uses_of_mem_argument huse ha hps, b, hb, hinner⟩

theorem Inside.not_mem {expanding : List TermId} {q : Pattern} (h : Inside rs ts p expanding q)
    (hp : MeetsItselfNowhere ts p) {name : Bytes} (hname : q.Mentions name) {id : TermId}
    (hid : (rs.termInfo id).name = name) : id ∉ expanding := by
  intro hmem
  have hmet := h.met id hmem name hname
  rw [hid] at hmet
  exact hp name hmet

theorem mem_of_nodup_of_length {n : Nat} {is : List Nat} (hnodup : is.Nodup)
    (hlt : ∀ i ∈ is, i < n) (hlength : n ≤ is.length) {i : Nat} (hi : i < n) : i ∈ is := by
  have hsub : is ⊆ List.range n := fun i hi => List.mem_range.mpr (hlt i hi)
  have hperm := (hnodup.subperm hsub).perm_of_length_le (by rwa [List.length_range])
  exact hperm.mem_iff.mpr (List.mem_range.mpr hi)

theorem noRecursion_patternInside (hts : Templated rs ts) (hp : MeetsItselfNowhere ts p)
    (room : Nat) (expanding : List TermId) (q : Pattern) (type : TypeId)
    (hinside : Inside rs ts p expanding q) (hnodup : expanding.Nodup)
    (hlt : ∀ id ∈ expanding, id < rs.terms.size)
    (hroom : rs.terms.size ≤ expanding.length + room) :
    NoRecursion (patternInside rs room expanding q type) := by
  have hfound {name : Bytes} {id : TermId} (hid : rs.terms.find? name = some id) :
      ∃ info, rs.terms.get? id = some info ∧ rs.termInfo id = info ∧ info.name = name := by
    obtain ⟨info, hinfo, hname⟩ := Table.get?_of_find? hid
    exact ⟨info, hinfo, RuleSet.termInfo_of_get? hinfo, hname⟩
  induction room generalizing expanding q type with
  | zero =>
    apply noRecursion_patternWith
    intro name args id index place huse hid _ loc type
    obtain ⟨info, -, hinfo, rfl⟩ := hfound hid
    have hmem := mem_of_nodup_of_length hnodup hlt hroom (Table.find?_lt_size hid)
    exact absurd hmem (hinside.not_mem hp ⟨args, huse⟩ (by rw [hinfo]))
  | succ room ih =>
    apply noRecursion_patternWith
    intro name args id index place huse hid hextractor loc type
    obtain ⟨info, hget, hinfo, rfl⟩ := hfound hid
    rw [hinfo] at hextractor
    obtain ⟨t, ht, hindex, htname⟩ := hts id info index place hget hextractor
    have hid' : (rs.termInfo id).name = info.name := by rw [hinfo]
    have hnew := hinside.not_mem hp ⟨args, huse⟩ hid'
    rw [if_neg hnew, hindex, Option.getD_some]
    apply ih
    · exact hinside.instantiate huse (by rw [hinfo]) ht htname
    · exact List.nodup_cons.mpr ⟨hnew, hnodup⟩
    · exact List.forall_mem_cons.mpr ⟨Table.find?_lt_size hid, hlt⟩
    · rw [List.length_cons]
      omega

theorem noRecursion_pattern (hts : Templated rs ts) (hp : MeetsItselfNowhere ts p)
    (type : TypeId) : NoRecursion (pattern rs p type) :=
  noRecursion_patternInside hts hp rs.terms.size [] p type (inside_nil rs ts p) List.nodup_nil
    (by simp) (by simp)

end Inside

section Expressions

variable (rs : RuleSet)

mutual

theorem noRecursion_expr : ∀ (e : Expr) (expected : Option TypeId),
    NoRecursion (expr rs e expected)
  | .var loc name, expected => by
      apply noRecursion_bind noRecursion_get
      intro _ scope _ _
      cases scope.find? name with
      | some v =>
        exact noRecursion_bind (noRecursion_ensureTypeIf rs _ _ _ _)
          fun _ _ _ _ => noRecursion_pure _
      | none => exact noRecursion_failAt loc fun _ => SemanticFault.noConfusion
  | .bool loc value, expected =>
      noRecursion_bind (noRecursion_ensureTypeIf rs _ _ _ _) fun _ _ _ _ => noRecursion_pure _
  | .int loc value, some type =>
      noRecursion_bind (noRecursion_require _ _ fun _ => SemanticFault.noConfusion)
        fun _ _ _ _ => noRecursion_pure _
  | .int loc value, none => noRecursion_failAt loc fun _ => SemanticFault.noConfusion
  | .term loc name args, expected => by
      apply noRecursion_bind (noRecursion_findTerm rs loc name)
      intro _ id _ _
      apply noRecursion_bind (noRecursion_require _ _ fun _ => SemanticFault.noConfusion)
      intro _ _ _ _
      apply noRecursion_bind (noRecursion_ensureTypeIf rs _ _ _ _)
      intro _ _ _ _
      apply noRecursion_bind (noRecursion_require _ _ fun _ => SemanticFault.noConfusion)
      intro _ _ _ _
      exact noRecursion_bind (noRecursion_exprs args _) fun _ _ _ _ => noRecursion_pure _
  | .letIn loc bs body, expected => by
      apply noRecursion_bind noRecursion_get
      intro _ scope _ _
      apply noRecursion_bind (noRecursion_bindings bs)
      intro _ checked _ _
      apply noRecursion_bind (noRecursion_expr body expected)
      intro _ body _ _
      exact noRecursion_bind (noRecursion_modify _) fun _ _ _ _ => noRecursion_pure _

theorem noRecursion_exprs : ∀ (es : List Expr) (types : List TypeId),
    NoRecursion (exprs rs es types)
  | [], types => by
      cases types <;> exact noRecursion_pure _
  | e :: es, [] => noRecursion_pure _
  | e :: es, type :: types =>
      noRecursion_bind (noRecursion_expr e _) fun _ _ _ _ =>
        noRecursion_bind (noRecursion_exprs es types) fun _ _ _ _ => noRecursion_pure _

theorem noRecursion_bindings : ∀ bs : List (Binding Expr), NoRecursion (bindings rs bs)
  | [] => noRecursion_pure _
  | ⟨name, typeName, value⟩ :: rest => by
      rw [bindings]
      cases rs.types.find? typeName.name with
      | none => exact noRecursion_failAt _ fun _ => SemanticFault.noConfusion
      | some type =>
        apply noRecursion_bind (noRecursion_expr value _)
        intro _ value _ _
        apply noRecursion_bind (noRecursion_bindVar _ _)
        intro _ v _ _
        exact noRecursion_bind (noRecursion_bindings rest) fun _ _ _ _ => noRecursion_pure _

end

end Expressions

end Check

def Rule.patterns (r : Rule) : List Pattern :=
  (match r.pattern with
    | .term _ _ args => args
    | _ => []) ++ r.guards.map Guard.pattern

namespace Check

section Rules

variable {rs : RuleSet} {ts : List Template} (hts : Templated rs ts)

include hts

theorem noRecursion_guards : ∀ gs : List Guard, (∀ g ∈ gs, MeetsItselfNowhere ts g.pattern) →
    NoRecursion (guards rs gs)
  | [], _ => noRecursion_pure _
  | g :: gs, h => by
      obtain ⟨hg, hgs⟩ := List.forall_mem_cons.mp h
      apply noRecursion_bind (noRecursion_expr rs g.value none)
      intro _ value _ _
      apply noRecursion_bind (noRecursion_pattern hts hg _)
      intro _ _ _ _
      exact noRecursion_bind (noRecursion_guards gs hgs) fun _ _ _ _ => noRecursion_pure _

theorem noRecursion_ruleBody {r : Rule} (h : ∀ g ∈ r.guards, MeetsItselfNowhere ts g.pattern)
    (ret : TypeId) : NoRecursion (ruleBody rs r ret) :=
  noRecursion_bind (noRecursion_guards hts r.guards h) fun _ _ _ _ =>
    noRecursion_bind (noRecursion_expr rs r.result _) fun _ _ _ _ => noRecursion_pure _

theorem not_isRecursion_of_rootArgs : ∀ (ps : List Pattern) (types : List TypeId) (scope : Scope),
    (∀ p ∈ ps, MeetsItselfNowhere ts p) →
      ∀ e ∈ (rootArgs rs ps types scope).1, ¬e.IsRecursion
  | [], types, scope, _ => by
      cases types <;> simp [rootArgs]
  | p :: ps, [], scope, _ => by simp [rootArgs]
  | p :: ps, type :: types, scope, h => by
      obtain ⟨hp, hps⟩ := List.forall_mem_cons.mp h
      rw [rootArgs]
      cases hrun : (pattern rs p type).run scope with
      | ok c scope' => exact not_isRecursion_of_rootArgs ps types scope' hps
      | error e scope' =>
        have he := noRecursion_pattern hts hp type scope e scope' hrun
        exact List.forall_mem_cons.mpr ⟨he, not_isRecursion_of_rootArgs ps types scope' hps⟩

omit hts in
theorem not_isRecursion_of_ruleRoot {p : Pattern} {e : SemanticError}
    (h : ruleRoot rs p = .error e) : ¬e.IsRecursion := by
  rintro ⟨name, hname⟩
  cases p with
  | term loc head args =>
    simp only [ruleRoot] at h
    split at h
    · cases h
      cases hname
    · split at h
      · cases h
        cases hname
      · cases h
        cases hname
      · split_ifs at h
        cases h
        cases hname
  | _ =>
    cases h
    cases hname

theorem not_isRecursion_of_rule {r : Rule} (h : ∀ p ∈ r.patterns, MeetsItselfNowhere ts p)
    {order : Nat} {es : List SemanticError} (hes : rule rs r order = .error es) :
    ∀ e ∈ es, ¬e.IsRecursion := by
  rw [rule] at hes
  cases hroot : ruleRoot rs r.pattern with
  | error e =>
    rw [hroot] at hes
    cases hes
    simpa using not_isRecursion_of_ruleRoot hroot
  | ok found =>
    obtain ⟨root, patterns⟩ := found
    obtain ⟨loc, name, -, hpattern, -⟩ := ruleRoot_ok hroot
    rw [Rule.patterns, hpattern, List.forall_mem_append] at h
    obtain ⟨hpatterns, hguards⟩ := h
    rw [hroot] at hes
    dsimp only at hes
    have hargs := not_isRecursion_of_rootArgs hts patterns (rs.termInfo root).args .empty hpatterns
    split at hes
    · rename_i e errors _ _ heq
      cases hes
      rw [heq] at hargs
      exact hargs
    · split at hes
      · rename_i e _ hbody
        cases hes
        have hguards' : ∀ g ∈ r.guards, MeetsItselfNowhere ts g.pattern :=
          fun g hg => hguards g.pattern (List.mem_map_of_mem hg)
        simpa using noRecursion_ruleBody hts hguards' _ _ e _ hbody
      · cases hes

end Rules

end Check

end TermRules

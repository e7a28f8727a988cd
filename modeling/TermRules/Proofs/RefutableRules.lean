import TermRules.Proofs.Drafts
import TermRules.Proofs.Environments

/-!
# Rules that can fail

A rule can fail if one of its patterns tests something or one of its expressions
calls a partial term, however deep. Variants are never partial.
-/

namespace TermRules

mutual

def CheckedPattern.nodes : CheckedPattern → List CheckedPattern
  | .bindAs s v sub => .bindAs s v sub :: sub.nodes
  | .variant s t args => .variant s t args :: nodesAll args
  | .extractor s t args => .extractor s t args :: nodesAll args
  | .all s parts => .all s parts :: nodesAll parts
  | p => [p]

def CheckedPattern.nodesAll : List CheckedPattern → List CheckedPattern
  | [] => []
  | p :: ps => p.nodes ++ nodesAll ps

end

mutual

def CheckedExpr.nodes : CheckedExpr → List CheckedExpr
  | .call s t args => .call s t args :: nodesAll args
  | .letIn s bs body => .letIn s bs body :: (nodesIn bs ++ body.nodes)
  | e => [e]

def CheckedExpr.nodesAll : List CheckedExpr → List CheckedExpr
  | [] => []
  | e :: es => e.nodes ++ nodesAll es

def CheckedExpr.nodesIn : List (CheckedBinding CheckedExpr) → List CheckedExpr
  | [] => []
  | ⟨_, value⟩ :: bs => value.nodes ++ nodesIn bs

end

theorem CheckedPattern.nodesAll_append (ps qs : List CheckedPattern) :
    nodesAll (ps ++ qs) = nodesAll ps ++ nodesAll qs := by
  induction ps with
  | nil => rfl
  | cons p ps ih => rw [List.cons_append, nodesAll, nodesAll, ih, List.append_assoc]

theorem CheckedExpr.nodesAll_append (es fs : List CheckedExpr) :
    nodesAll (es ++ fs) = nodesAll es ++ nodesAll fs := by
  induction es with
  | nil => rfl
  | cons e es ih => rw [List.cons_append, nodesAll, nodesAll, ih, List.append_assoc]

def CheckedRule.patterns (r : CheckedRule) : List CheckedPattern :=
  CheckedPattern.nodesAll (r.args ++ r.guards.map CheckedGuard.pattern)

def CheckedRule.exprs (r : CheckedRule) : List CheckedExpr :=
  CheckedExpr.nodesAll (r.guards.map CheckedGuard.value ++ [r.result])

section Failing

variable (rs : RuleSet)

/-- The pattern itself looks at what it is matched with. -/
@[mk_iff]
inductive CheckedPattern.Tests : CheckedPattern → Prop
  | equal (s : Site) (var : VarId) : Tests (.equal s var)
  | int (s : Site) (value : IntLiteral) : Tests (.int s value)
  | bool (s : Site) (value : Bool) : Tests (.bool s value)
  | variant (s : Site) (term : TermId) (args : List CheckedPattern) : Tests (.variant s term args)
  | extractor {s : Site} {term : TermId} {args : List CheckedPattern} {function : Bytes} {loc : Loc}
      (fallible : (rs.termInfo term).extractor = .external function false loc) :
      Tests (.extractor s term args)

@[mk_iff]
inductive CheckedExpr.CallsPartial : CheckedExpr → Prop
  | call {s : Site} {term : TermId} {args : List CheckedExpr}
      (isPartial : (rs.termInfo term).isPartial = true) : CallsPartial (.call s term args)

def CheckedPattern.Refutable (p : CheckedPattern) : Prop := ∃ q ∈ p.nodes, q.Tests rs

def CheckedExpr.Refutable (e : CheckedExpr) : Prop := ∃ q ∈ e.nodes, q.CallsPartial rs

/-- The rule has a pattern that tests or an expression that calls a partial term. -/
def CheckedRule.Refutable (r : CheckedRule) : Prop :=
  (∃ p ∈ r.patterns, p.Tests rs) ∨ ∃ e ∈ r.exprs, e.CallsPartial rs

end Failing

def RuleSet.VariantsTotal (rs : RuleSet) : Prop :=
  ∀ id info, rs.terms.get? id = some info → ∀ ref, info.constructor = .variant ref →
    info.isPartial = false

namespace RuleSet

theorem VariantsTotal.insert {rs : RuleSet} (h : rs.VariantsTotal) {term : TermInfo}
    {terms : Table TermInfo} (hinsert : rs.terms.insert? term = some terms)
    (hterm : ∀ ref, term.constructor = .variant ref → term.isPartial = false)
    {types : Table TypeInfo} : VariantsTotal { rs with types, terms } := by
  intro id info hinfo ref href
  dsimp only at hinfo
  rw [Table.get?_of_insert? hinsert] at hinfo
  split_ifs at hinfo
  · cases hinfo
    exact hterm ref href
  · exact h id info hinfo ref href

theorem VariantsTotal.modify {rs : RuleSet} (h : rs.VariantsTotal) (id : TermId)
    {f : TermInfo → TermInfo} (hpartial : ∀ t, (f t).isPartial = t.isPartial)
    (hvariant : ∀ t ref, (f t).constructor = .variant ref → t.constructor = .variant ref)
    {templates : Array Template} :
    VariantsTotal { rs with terms := rs.terms.modify id f, templates } := by
  intro i info hinfo ref href
  dsimp only at hinfo
  rw [Table.get?_modify] at hinfo
  split_ifs at hinfo
  · obtain ⟨t, ht, rfl⟩ := Option.map_eq_some_iff.mp hinfo
    rw [hpartial]
    exact h i t ht ref (hvariant t ref href)
  · exact h i info hinfo ref href

theorem VariantsTotal.attempt {rs s : RuleSet} (h : rs.VariantsTotal) {t : Job}
    (ht : t.attempt rs = .ok s) : s.VariantsTotal := by
  cases t with
  | refuse error => cases ht
  | check r order =>
    obtain ⟨c, -, rfl⟩ := addRule_ok.mp ht
    exact h
  | enter e =>
    cases e with
    | type d =>
      obtain ⟨types, -, rfl⟩ := addTypeName_ok.mp ht
      exact h
    | variant typeName v =>
      obtain ⟨type, -, hvariant⟩ := Entry.enter_variant_ok.mp ht
      obtain ⟨ids, terms, -, hinsert, rfl⟩ := addVariant_ok.mp hvariant
      exact h.insert hinsert fun _ _ => rfl
    | decl d =>
      obtain ⟨args, ret, terms, -, -, hinsert, rfl⟩ := addDecl_ok.mp ht
      exact h.insert hinsert fun _ href => by cases href
    | external d =>
      obtain ⟨id, -, -, rfl⟩ := addExternal_ok.mp ht
      refine h.modify id (fun t => ?_) fun t ref href => ?_
      · rw [ExternalDef.fill]
        cases d.kind <;> rfl
      · rw [ExternalDef.fill] at href
        cases hkind : d.kind <;> rw [hkind] at href
        · cases href
        · exact href
    | template d =>
      obtain ⟨id, -, -, -, rfl⟩ := addTemplate_ok.mp ht
      let f (t : TermInfo) : TermInfo :=
        { t with extractor := .template rs.templates.size d.loc }
      have hf : ∀ t ref, (f t).constructor = .variant ref → t.constructor = .variant ref :=
        fun _ _ href => href
      exact h.modify (f := f) id (fun _ => rfl) hf
    | mark r =>
      cases ht
      rw [markInternal_eq]
      cases r.root?.bind rs.terms.find? with
      | none => exact h
      | some id =>
        refine h.modify id (fun t => ?_) fun t ref href => ?_
        · rw [TermInfo.mark]
          split_ifs <;> rfl
        · rw [TermInfo.mark] at href
          split_ifs at href
          exact href

theorem VariantsTotal.isPartial_eq {rs : RuleSet} (h : rs.VariantsTotal) {term : TermId}
    {ref : VariantRef} (href : (rs.termInfo term).constructor = .variant ref) :
    (rs.termInfo term).isPartial = false := by
  cases hinfo : rs.terms.get? term with
  | some info =>
    rw [termInfo_of_get? hinfo] at href ⊢
    exact h term info hinfo ref href
  | none => rw [termInfo, hinfo]; rfl

theorem afterAll_variantsTotal (batches : List (List Definition)) :
    (afterAll batches).VariantsTotal := by
  refine foldl_analyze_induction (P := VariantsTotal) ?_ ?_ batches
  · intro id info hinfo
    simp [empty, Table.empty, Table.get?] at hinfo
  · intro rs defs h
    exact analyze_induction (P := VariantsTotal) h defs fun t _ s s' hs ht => hs.attempt ht

end RuleSet

end TermRules

import TermRules.Proofs.Checking
import TermRules.Proofs.Refusals

/-!
# Consistent environments

Definitions may be analysed in any number of lists, one after the other, and any
of them may be refused. Names and numbers stay one to one all the same, numbers
in entries and in variables are numbers of entries, each variant has its own
term, and each template the one term that it matches. Entries that are there are
never changed again, apart from a constructor or an extractor still missing.
-/

namespace TermRules

namespace Scope

def Below (n : Nat) (s : Scope) : Prop := ∀ info ∈ s.vars, info.type < n

variable {n : Nat} {s : Scope}

theorem below_empty (n : Nat) : Scope.empty.Below n := by
  intro info h
  simp [Scope.empty] at h

theorem Below.bind (h : s.Below n) (name : Bytes) {type : TypeId} (htype : type < n) :
    (s.bind name type).Below n := by
  intro info hinfo
  rcases Array.mem_push.mp hinfo with hinfo | rfl
  · exact h info hinfo
  · exact htype

theorem Below.typeOf (h : s.Below n) (hn : 0 < n) (v : VarId) : s.typeOf v < n := by
  rw [Scope.typeOf]
  cases hv : s.vars[v]? with
  | none => exact hn
  | some info => exact h info (Array.mem_of_getElem? hv)

end Scope

namespace Check

variable {rs : RuleSet}

def ExpandsBelow (rs : RuleSet)
    (expand : Loc → TermId → Pattern → TypeId → Check CheckedPattern) : Prop :=
  ∀ {loc id p type s c s'}, type < rs.types.size → s.Below rs.types.size →
    (expand loc id p type).run s = .ok c s' → s'.Below rs.types.size

mutual

theorem patternWith_below (hrs : rs.Bounded)
    {expand : Loc → TermId → Pattern → TypeId → Check CheckedPattern}
    (hexpand : ExpandsBelow rs expand) :
    ∀ (p : Pattern) {type : TypeId} {s s' : Scope} {c : CheckedPattern}, type < rs.types.size →
      s.Below rs.types.size → (patternWith rs expand p type).run s = .ok c s' →
      s'.Below rs.types.size
  | .wildcard loc, type, s, s', c, htype, hs, h => by
      simp only [patternWith, run_pure_ok] at h
      obtain ⟨-, rfl⟩ := h
      exact hs
  | .bool loc value, type, s, s', c, htype, hs, h => by
      simp only [patternWith, run_bind_ok, run_ensureType_ok, run_pure_ok] at h
      obtain ⟨_, _, ⟨-, rfl⟩, -, rfl⟩ := h
      exact hs
  | .int loc value, type, s, s', c, htype, hs, h => by
      simp only [patternWith, run_bind_ok, run_ensurePrimitive_ok, run_pure_ok] at h
      obtain ⟨_, _, ⟨-, rfl⟩, -, rfl⟩ := h
      exact hs
  | .var loc name, type, s, s', c, htype, hs, h => by
      simp only [patternWith, run_bind_ok, run_get_ok] at h
      obtain ⟨_, _, ⟨rfl, rfl⟩, h⟩ := h
      cases hf : s.find? name with
      | some v =>
        simp only [hf, run_bind_ok, run_ensureType_ok, run_pure_ok] at h
        obtain ⟨_, _, ⟨-, rfl⟩, -, rfl⟩ := h
        exact hs
      | none =>
        simp only [hf, run_bind_ok, run_bindVar_ok, run_pure_ok] at h
        obtain ⟨_, _, ⟨rfl, rfl⟩, -, rfl⟩ := h
        exact hs.bind name htype
  | .bind loc name sub, type, s, s', c, htype, hs, h => by
      simp only [patternWith, run_bind_ok, run_get_ok, run_require_ok, run_bindVar_ok,
        run_pure_ok] at h
      obtain ⟨_, _, ⟨rfl, rfl⟩, _, _, ⟨-, rfl⟩, _, _, ⟨rfl, rfl⟩, sub', t, hsub, -, rfl⟩ := h
      exact patternWith_below hrs hexpand sub htype (hs.bind name htype) hsub
  | .all loc parts, type, s, s', c, htype, hs, h => by
      simp only [patternWith, run_bind_ok, run_pure_ok] at h
      obtain ⟨cs, t, hparts, -, rfl⟩ := h
      refine patternsWith_below hrs hexpand parts (fun type' hmem => ?_) hs hparts
      obtain ⟨-, -, rfl⟩ := List.mem_map.mp hmem
      exact htype
  | .term loc name args, type, s, s', c, htype, hs, h => by
      simp only [patternWith, run_bind_ok, run_findTerm_ok, run_ensureType_ok,
        run_ensureCount_ok] at h
      obtain ⟨id, _, ⟨hf, rfl⟩, _, _, ⟨-, rfl⟩, _, _, ⟨-, rfl⟩, h⟩ := h
      obtain ⟨info, found, -⟩ := Table.get?_of_find? hf
      rw [RuleSet.termInfo_of_get? found] at h
      have hargs := (hrs.terms id info found).args
      cases he : info.extractor with
      | missing => simp only [he, run_failAt_ok] at h
      | template index loc' =>
        simp only [he] at h
        exact hexpand htype hs h
      | variant ref =>
        simp only [he, run_bind_ok, run_pure_ok] at h
        obtain ⟨cs, t, hcs, -, rfl⟩ := h
        exact patternsWith_below hrs hexpand args hargs hs hcs
      | external function infallible loc' =>
        simp only [he, run_bind_ok, run_pure_ok] at h
        obtain ⟨cs, t, hcs, -, rfl⟩ := h
        exact patternsWith_below hrs hexpand args hargs hs hcs

theorem patternsWith_below (hrs : rs.Bounded)
    {expand : Loc → TermId → Pattern → TypeId → Check CheckedPattern}
    (hexpand : ExpandsBelow rs expand) :
    ∀ (ps : List Pattern) {types : List TypeId} {s s' : Scope} {cs : List CheckedPattern},
      (∀ type ∈ types, type < rs.types.size) → s.Below rs.types.size →
      (patternsWith rs expand ps types).run s = .ok cs s' → s'.Below rs.types.size
  | [], _, s, s', cs, _, hs, h => by
      simp only [patternsWith, run_pure_ok] at h
      obtain ⟨-, rfl⟩ := h
      exact hs
  | p :: ps, [], s, s', cs, _, hs, h => by
      simp only [patternsWith, run_pure_ok] at h
      obtain ⟨-, rfl⟩ := h
      exact hs
  | p :: ps, type :: types, s, s', cs, htypes, hs, h => by
      simp only [patternsWith, run_bind_ok, run_pure_ok] at h
      obtain ⟨c, t, hp, cs, u, hps, -, rfl⟩ := h
      obtain ⟨htype, htypes⟩ := List.forall_mem_cons.mp htypes
      have ht := patternWith_below hrs hexpand p htype hs hp
      exact patternsWith_below hrs hexpand ps htypes ht hps

end

theorem patternInside_below (hrs : rs.Bounded) (room : Nat) (expanding : List TermId)
    (p : Pattern) {type : TypeId} {s s' : Scope} {c : CheckedPattern}
    (htype : type < rs.types.size) (hs : s.Below rs.types.size)
    (h : (patternInside rs room expanding p type).run s = .ok c s') :
    s'.Below rs.types.size := by
  induction room generalizing expanding p type s s' c with
  | zero =>
    refine patternWith_below hrs ?_ p htype hs h
    intro loc id p type s c s' _ _ h
    simp only [refuseExpansion, run_failAt_ok] at h
  | succ room ih =>
    refine patternWith_below hrs ?_ p htype hs h
    intro loc id p type s c s' htype hs h
    dsimp only at h
    split_ifs at h
    · simp only [refuseExpansion, run_failAt_ok] at h
    · exact ih (id :: expanding) p htype hs h

theorem pattern_below (hrs : rs.Bounded) {p : Pattern} {type : TypeId} {s s' : Scope}
    {c : CheckedPattern} (htype : type < rs.types.size) (hs : s.Below rs.types.size)
    (h : (pattern rs p type).run s = .ok c s') : s'.Below rs.types.size :=
  patternInside_below hrs rs.terms.size [] p htype hs h

mutual

theorem expr_below (hrs : rs.Bounded) : ∀ (e : Expr) {expected : Option TypeId} {s s' : Scope}
    {c : CheckedExpr}, (∀ type, expected = some type → type < rs.types.size) →
      s.Below rs.types.size → (expr rs e expected).run s = .ok c s' →
      s'.Below rs.types.size ∧ c.type < rs.types.size
  | .var loc name, expected, s, s', c, _, hs, h => by
      simp only [expr, run_bind_ok, run_get_ok] at h
      obtain ⟨_, _, ⟨rfl, rfl⟩, h⟩ := h
      cases hf : s.find? name with
      | some v =>
        simp only [hf, run_bind_ok, run_ensureTypeIf_ok, run_pure_ok] at h
        obtain ⟨_, _, ⟨-, rfl⟩, rfl, rfl⟩ := h
        exact ⟨hs, hs.typeOf hrs.bool v⟩
      | none => simp only [hf, run_failAt_ok] at h
  | .bool loc value, expected, s, s', c, _, hs, h => by
      simp only [expr, run_bind_ok, run_ensureTypeIf_ok, run_pure_ok] at h
      obtain ⟨_, _, ⟨-, rfl⟩, rfl, rfl⟩ := h
      exact ⟨hs, hrs.bool⟩
  | .int loc value, some type, s, s', c, htype, hs, h => by
      simp only [expr, run_bind_ok, run_ensurePrimitive_ok, run_pure_ok] at h
      obtain ⟨_, _, ⟨-, rfl⟩, rfl, rfl⟩ := h
      exact ⟨hs, htype type rfl⟩
  | .int loc value, none, s, s', c, _, hs, h => by
      simp only [expr, run_failAt_ok] at h
  | .term loc name args, expected, s, s', c, _, hs, h => by
      simp only [expr, run_bind_ok, run_findTerm_ok, run_require_ok, run_ensureTypeIf_ok,
        run_ensureCount_ok, run_pure_ok] at h
      obtain ⟨id, _, ⟨hf, rfl⟩, _, _, ⟨-, rfl⟩, _, _, ⟨-, rfl⟩, _, _, ⟨-, rfl⟩, cs, t, hargs, rfl,
        rfl⟩ := h
      obtain ⟨info, found, -⟩ := Table.get?_of_find? hf
      rw [RuleSet.termInfo_of_get? found] at hargs ⊢
      have hinfo := hrs.terms id info found
      exact ⟨exprs_below hrs args hinfo.args hs hargs, hinfo.ret⟩
  | .letIn loc bs body, expected, s, s', c, htype, hs, h => by
      simp only [expr, run_bind_ok, run_get_ok, run_modify_ok, run_pure_ok] at h
      obtain ⟨_, _, ⟨rfl, rfl⟩, cs, t, hbs, body', u, hbody, _, _, rfl, rfl, rfl⟩ := h
      obtain ⟨hu, hbody⟩ := expr_below hrs body htype (bindings_below hrs bs hs hbs) hbody
      exact ⟨hu, hbody⟩

theorem exprs_below (hrs : rs.Bounded) : ∀ (es : List Expr) {types : List TypeId} {s s' : Scope}
    {cs : List CheckedExpr}, (∀ type ∈ types, type < rs.types.size) → s.Below rs.types.size →
      (exprs rs es types).run s = .ok cs s' → s'.Below rs.types.size
  | [], _, s, s', cs, _, hs, h => by
      simp only [exprs, run_pure_ok] at h
      obtain ⟨-, rfl⟩ := h
      exact hs
  | e :: es, [], s, s', cs, _, hs, h => by
      simp only [exprs, run_pure_ok] at h
      obtain ⟨-, rfl⟩ := h
      exact hs
  | e :: es, type :: types, s, s', cs, htypes, hs, h => by
      simp only [exprs, run_bind_ok, run_pure_ok] at h
      obtain ⟨c, t, he, cs, u, hes, -, rfl⟩ := h
      obtain ⟨htype, htypes⟩ := List.forall_mem_cons.mp htypes
      have ht := (expr_below hrs e (fun _ heq => Option.some.inj heq ▸ htype) hs he).1
      exact exprs_below hrs es htypes ht hes

theorem bindings_below (hrs : rs.Bounded) : ∀ (bs : List (Binding Expr)) {s s' : Scope}
    {cs : List (CheckedBinding CheckedExpr)}, s.Below rs.types.size →
      (bindings rs bs).run s = .ok cs s' → s'.Below rs.types.size
  | [], s, s', cs, hs, h => by
      simp only [bindings, run_pure_ok] at h
      obtain ⟨-, rfl⟩ := h
      exact hs
  | ⟨name, typeName, value⟩ :: bs, s, s', cs, hs, h => by
      simp only [bindings] at h
      cases ht : rs.types.find? typeName.name with
      | none => simp only [ht, run_failAt_ok] at h
      | some type =>
        simp only [ht, run_bind_ok, run_bindVar_ok, run_pure_ok] at h
        obtain ⟨c, t, hvalue, _, _, ⟨rfl, rfl⟩, cs, u, hbs, -, rfl⟩ := h
        have htype := Table.find?_lt_size ht
        have hvalue := (expr_below hrs value (fun _ heq => Option.some.inj heq ▸ htype) hs hvalue).1
        exact bindings_below hrs bs (hvalue.bind name.name htype) hbs

end

theorem rootArgs_below (hrs : rs.Bounded) : ∀ (ps : List Pattern) {types : List TypeId}
    {s s' : Scope} {cs : List CheckedPattern}, (∀ type ∈ types, type < rs.types.size) →
      s.Below rs.types.size → rootArgs rs ps types s = ([], cs, s') → s'.Below rs.types.size
  | [], _, s, s', cs, _, hs, h => by
      cases h
      exact hs
  | p :: ps, [], s, s', cs, _, hs, h => by
      cases h
      exact hs
  | p :: ps, type :: types, s, s', cs, htypes, hs, h => by
      obtain ⟨htype, htypes⟩ := List.forall_mem_cons.mp htypes
      obtain ⟨c, t, cs', hp, hps, -⟩ := rootArgs_cons_ok.mp h
      exact rootArgs_below hrs ps htypes (pattern_below hrs htype hs hp) hps

theorem guards_below (hrs : rs.Bounded) (gs : List Guard) {s s' : Scope} {cs : List CheckedGuard}
    (hs : s.Below rs.types.size) (h : (guards rs gs).run s = .ok cs s') :
    s'.Below rs.types.size := by
  induction gs generalizing s cs with
  | nil =>
    simp only [guards, run_pure_ok] at h
    obtain ⟨-, rfl⟩ := h
    exact hs
  | cons g gs ih =>
    simp only [guards, run_bind_ok, run_pure_ok] at h
    obtain ⟨value, t, hvalue, pattern, u, hpattern, rest, w, hrest, -, rfl⟩ := h
    obtain ⟨ht, htype⟩ := expr_below hrs g.value (by simp) hs hvalue
    exact ih (pattern_below hrs htype ht hpattern) hrest

theorem rule_below (hrs : rs.Bounded) {r : Rule} {order : Nat} {c : CheckedRule}
    (h : rule rs r order = .ok c) : ∀ info ∈ c.vars, info.type < rs.types.size := by
  obtain ⟨root, patterns, args, s, gs, t, result, u, hroot, hargs, hguards, hresult, rfl⟩ :=
    rule_ok.mp h
  obtain ⟨loc, name, info, -, -, found, -, -, -⟩ := ruleRoot_ok hroot
  rw [RuleSet.termInfo_of_get? found] at hargs hresult
  have hinfo := hrs.terms root info found
  have hs := rootArgs_below hrs patterns hinfo.args (Scope.below_empty _) hargs
  have ht := guards_below hrs r.guards hs hguards
  exact (expr_below hrs r.result (fun _ heq => Option.some.inj heq ▸ hinfo.ret) ht hresult).1

end Check

theorem Entry.types_size_le {e : Entry} {rs s : RuleSet} (h : e.enter rs = .ok s) :
    rs.types.size ≤ s.types.size := by
  cases e with
  | type d =>
    obtain ⟨types, hinsert, rfl⟩ := RuleSet.addTypeName_ok.mp h
    have hsize := Table.size_of_insert? hinsert
    dsimp only
    omega
  | variant typeName v =>
    obtain ⟨type, -, hvariant⟩ := enter_variant_ok.mp h
    obtain ⟨ids, terms, -, -, rfl⟩ := RuleSet.addVariant_ok.mp hvariant
    exact Nat.le_of_eq (Table.size_modify _ _ _).symm
  | decl d =>
    obtain ⟨args, ret, terms, -, -, -, rfl⟩ := RuleSet.addDecl_ok.mp h
    exact Nat.le_refl _
  | external d =>
    obtain ⟨id, -, -, rfl⟩ := RuleSet.addExternal_ok.mp h
    exact Nat.le_refl _
  | template d =>
    obtain ⟨id, -, -, -, rfl⟩ := RuleSet.addTemplate_ok.mp h
    exact Nat.le_refl _
  | mark r =>
    cases h
    rw [RuleSet.markInternal_eq]
    cases r.root?.bind rs.terms.find? <;> exact Nat.le_refl _

namespace RuleSet

def VarsBelow (rs : RuleSet) : Prop :=
  ∀ r ∈ rs.rules, ∀ info ∈ r.vars, info.type < rs.types.size

theorem VarsBelow.attempt {rs s : RuleSet} (h : rs.VarsBelow) (hrs : rs.Bounded) {t : Job}
    (ht : t.attempt rs = .ok s) : s.VarsBelow := by
  cases t with
  | enter e =>
    intro r hr info hinfo
    rw [Entry.enter_rules ht] at hr
    exact Nat.lt_of_lt_of_le (h r hr info hinfo) (Entry.types_size_le ht)
  | refuse error => cases ht
  | check r order =>
    obtain ⟨c, hc, rfl⟩ := addRule_ok.mp ht
    intro r' hr'
    rcases Array.mem_push.mp hr' with hr' | rfl
    · exact h r' hr'
    · exact Check.rule_below hrs hc

theorem analyze_bounded {rs : RuleSet} (hrs : rs.Bounded) (h : rs.VarsBelow)
    (defs : List Definition) : (rs.analyze defs).1.Bounded ∧ (rs.analyze defs).1.VarsBelow := by
  refine analyze_induction (P := fun rs => rs.Bounded ∧ rs.VarsBelow) ⟨hrs, h⟩ defs ?_
  rintro t - rs rs' ⟨hrs, h⟩ ht
  have hbounded : (Analysis.perform ⟨rs, []⟩ [t]).ruleSet.Bounded :=
    Analysis.perform_bounded hrs [t]
  simp only [Analysis.perform, List.foldl, Analysis.attempt, ht] at hbounded
  exact ⟨hbounded, h.attempt hrs ht⟩

end RuleSet

def Job.Spares (taken : List Bytes) : Job → Prop
  | .enter (.variant typeName _) => typeName ∉ taken
  | _ => True

theorem Job.spares_of_mem {taken : List Bytes} {defs : List Definition} {t : Job}
    (h : t ∈ ofDefinitions taken defs) : t.Spares taken := by
  simp only [ofDefinitions, List.mem_append] at h
  rcases h with (((((h | h) | h) | h) | h) | h) | h
  · obtain ⟨d, -, rfl⟩ := List.mem_map.mp h
    trivial
  · obtain ⟨d, -, hfree, ht⟩ := mem_ofBodies h
    obtain ⟨v, -, rfl | rfl⟩ := mem_ofVariants ht
    · exact hfree
    · trivial
  · obtain ⟨d, -, rfl⟩ := List.mem_map.mp h
    trivial
  · obtain ⟨d, -, rfl⟩ := List.mem_map.mp h
    trivial
  · obtain ⟨d, -, rfl⟩ := List.mem_map.mp h
    trivial
  · obtain ⟨r, -, rfl⟩ := List.mem_map.mp h
    trivial
  · obtain ⟨r, -, ⟨order, rfl⟩ | ⟨i, -, rfl⟩⟩ := mem_ofRules h
    · trivial
    · trivial

namespace RuleSet

theorem mem_typeNames_of_get? {rs : RuleSet} {id : TypeId} {info : TypeInfo}
    (h : rs.types.get? id = some info) : info.name ∈ rs.typeNames :=
  List.mem_map_of_mem (Array.mem_toList_iff.mpr (Array.mem_of_getElem? h))

def HasTypesOf (rs old : RuleSet) : Prop :=
  ∀ {id info}, old.types.get? id = some info → rs.types.get? id = some info

theorem HasTypesOf.attempt {old rs s : RuleSet} (h : rs.HasTypesOf old) {t : Job}
    (hspares : t.Spares old.typeNames) (ht : t.attempt rs = .ok s) : s.HasTypesOf old := by
  intro id info hinfo
  have hrs := h hinfo
  cases t with
  | refuse error => cases ht
  | check r order =>
    obtain ⟨c, -, rfl⟩ := addRule_ok.mp ht
    exact hrs
  | enter e =>
    cases e with
    | type d =>
      obtain ⟨types, hinsert, rfl⟩ := addTypeName_ok.mp ht
      exact Table.get?_insert?_of_some hinsert hrs
    | variant typeName v =>
      obtain ⟨type, htype, hvariant⟩ := Entry.enter_variant_ok.mp ht
      obtain ⟨ids, terms, -, -, rfl⟩ := addVariant_ok.mp hvariant
      have hne : type ≠ id := by
        rintro rfl
        obtain ⟨info', hinfo', rfl⟩ := Table.get?_of_find? htype
        cases hrs.symm.trans hinfo'
        exact hspares (mem_typeNames_of_get? hinfo)
      exact (Table.get?_withVariant_of_ne hne _ _).trans hrs
    | decl d =>
      obtain ⟨args, ret, terms, -, -, -, rfl⟩ := addDecl_ok.mp ht
      exact hrs
    | external d =>
      obtain ⟨id', -, -, rfl⟩ := addExternal_ok.mp ht
      exact hrs
    | template d =>
      obtain ⟨id', -, -, -, rfl⟩ := addTemplate_ok.mp ht
      exact hrs
    | mark r =>
      cases ht
      rw [markInternal_eq]
      cases r.root?.bind rs.terms.find? <;> exact hrs

theorem analyze_hasTypesOf (rs : RuleSet) (defs : List Definition) :
    (rs.analyze defs).1.HasTypesOf rs := by
  refine analyze_induction (P := fun s => s.HasTypesOf rs) (fun h => h) defs ?_
  intro t hmem s s' hs ht
  exact hs.attempt (Job.spares_of_mem hmem) ht

/-- Everything stays in its place; a term may get a constructor or an extractor that it lacked. -/
structure KeptBy (a b : RuleSet) : Prop where
  types : ∀ {id info}, a.types.get? id = some info → b.types.get? id = some info
  terms : ∀ {id info}, a.terms.get? id = some info →
    ∃ info', b.terms.get? id = some info' ∧ info.Grows info'
  templates : ∀ {i : Nat} {t}, a.templates[i]? = some t → b.templates[i]? = some t
  rules : ∀ {i : Nat} {r}, a.rules[i]? = some r → b.rules[i]? = some r

theorem analyze_kept (rs : RuleSet) (defs : List Definition) :
    rs.KeptBy (rs.analyze defs).1 :=
  have hg := (analyze_steps rs defs).grows
  ⟨analyze_hasTypesOf rs defs, hg.terms, hg.templates, hg.rules⟩

theorem KeptBy.trans {a b c : RuleSet} (hab : a.KeptBy b) (hbc : b.KeptBy c) : a.KeptBy c where
  types h := hbc.types (hab.types h)
  terms h := by
    obtain ⟨info', h', hg'⟩ := hab.terms h
    obtain ⟨info'', h'', hg''⟩ := hbc.terms h'
    exact ⟨info'', h'', hg'.trans hg''⟩
  templates h := hbc.templates (hab.templates h)
  rules h := hbc.rules (hab.rules h)

theorem foldl_analyze_induction {P : RuleSet → Prop} {rs : RuleSet} (start : P rs)
    (step : ∀ rs defs, P rs → P (analyze rs defs).1) (batches : List (List Definition)) :
    P (batches.foldl (fun rs defs => (rs.analyze defs).1) rs) := by
  induction batches generalizing rs with
  | nil => exact start
  | cons defs batches ih => exact ih (step rs defs start)

theorem afterAll_kept (batches later : List (List Definition)) :
    (afterAll batches).KeptBy (afterAll (batches ++ later)) := by
  rw [afterAll, afterAll, List.foldl_append]
  refine foldl_analyze_induction (P := KeptBy _) ?_ ?_ later
  · exact ⟨fun h => h, fun h => ⟨_, h, .refl _⟩, fun h => h, fun h => h⟩
  · exact fun rs defs h => h.trans (analyze_kept rs defs)

theorem afterAll_bounded (batches : List (List Definition)) :
    (afterAll batches).Bounded ∧ (afterAll batches).VarsBelow := by
  refine foldl_analyze_induction (P := fun rs => rs.Bounded ∧ rs.VarsBelow) ?_ ?_ batches
  · exact ⟨bounded_empty, fun r hr => by simp [empty] at hr⟩
  · exact fun rs defs h => analyze_bounded h.1 h.2 defs

theorem Linked.template_inj {rs : RuleSet} (h : rs.Linked) {id id' : TermId}
    {info info' : TermInfo} {index : Nat} {loc loc' : Loc} (hinfo : rs.terms.get? id = some info)
    (hinfo' : rs.terms.get? id' = some info') (he : info.extractor = .template index loc)
    (he' : info'.extractor = .template index loc') : id = id' := by
  obtain ⟨t, ht, hname, -⟩ := (h.infos hinfo).template index loc he
  obtain ⟨t', ht', hname', -⟩ := (h.infos hinfo').template index loc' he'
  cases ht.symm.trans ht'
  have hfind : rs.terms.find? info.name = some id := h.terms.find? hinfo
  have hfind' : rs.terms.find? info'.name = some id' := h.terms.find? hinfo'
  rw [← hname, hname', hfind'] at hfind
  exact (Option.some.inj hfind).symm

/-- Names, numbers and cross references of the tables agree. -/
structure Consistent (rs : RuleSet) : Prop where
  linked : rs.Linked
  bounded : rs.Bounded
  vars : rs.VarsBelow
  templates : ∀ {id id' info info' index loc loc'}, rs.terms.get? id = some info →
    rs.terms.get? id' = some info' → info.extractor = .template index loc →
    info'.extractor = .template index loc' → id = id'

/-- Rule sets are consistent after every run of analyses, whatever was refused on the way, and
whatever is analysed later leaves the entries there are as they were. -/
theorem afterAll_consistent (batches later : List (List Definition)) :
    (afterAll batches).Consistent ∧ (afterAll batches).KeptBy (afterAll (batches ++ later)) := by
  have hlinked := afterAll_linked batches
  obtain ⟨hbounded, hvars⟩ := afterAll_bounded batches
  exact ⟨⟨hlinked, hbounded, hvars, hlinked.template_inj⟩, afterAll_kept batches later⟩

end RuleSet

end TermRules

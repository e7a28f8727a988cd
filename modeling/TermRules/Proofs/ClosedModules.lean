import TermRules.Proofs.Faultless
import TermRules.Proofs.FittingCalls

/-!
# Closed modules

Every call in a generated module goes to a function of the module or to a method
that the module says its context must provide. The callee takes as many
arguments as the call passes. A call is unwrapped exactly if the callee's result
may be null, a call that is negated yields a truth value, and only a struct of
results is indexed. All of this rests on the types of checked rules.
-/

namespace TermRules

namespace Zig

theorem valuesOf_of_mem {body : List Statement} {temp : Nat} {type : Option TypeId} {v : Value}
    {orBreak : Bool} (hnodup : (body.filterMap Statement.declared?).Nodup)
    (hmem : .const temp type v orBreak ∈ body) :
    body.filterMap (Statement.valueOf? temp) = [v] := by
  obtain ⟨before, after, rfl⟩ := List.append_of_mem hmem
  have hother : ∀ ts : List Statement, temp ∉ ts.filterMap Statement.declared? →
      ts.filterMap (Statement.valueOf? temp) = [] := by
    intro ts hts
    rw [List.filterMap_eq_nil_iff]
    intro t ht
    cases t with
    | const i type v orBreak =>
      refine if_neg fun hi => hts ?_
      rw [← hi]
      exact List.mem_filterMap.mpr ⟨_, ht, rfl⟩
    | _ => rfl
  have hdeclared : (Statement.const temp type v orBreak).declared? = some temp := rfl
  rw [List.filterMap_append, List.filterMap_cons_some hdeclared, List.nodup_append] at hnodup
  obtain ⟨-, hafter, hdisjoint⟩ := hnodup
  have hhead : Statement.valueOf? temp (.const temp type v orBreak) = some v := if_pos rfl
  rw [List.filterMap_append, List.filterMap_cons_some hhead, hother before, hother after]
  · rfl
  · exact (List.nodup_cons.mp hafter).1
  · exact fun hbefore => hdisjoint temp hbefore temp List.mem_cons_self rfl

namespace Setting

variable {s : Setting} {term : TermId} {info : TermInfo}

theorem mem_internalTerms {loc : Loc} (hget : s.ruleSet.terms.get? term = some info)
    (hinternal : info.constructor = .internal loc) : term ∈ s.internalTerms := by
  rw [internalTerms, List.mem_filter, List.mem_range, RuleSet.termInfo_of_get? hget, hinternal]
  exact ⟨Table.lt_size_of_get? hget, rfl⟩

theorem get?_of_mem_internalTerms (h : term ∈ s.internalTerms) :
    s.ruleSet.terms.get? term = some (s.ruleSet.termInfo term) := by
  obtain ⟨info, hinfo⟩ : ∃ info, s.ruleSet.terms.get? term = some info :=
    ⟨_, Array.getElem?_eq_getElem (List.mem_range.mp (List.mem_filter.mp h).1)⟩
  rw [RuleSet.termInfo_of_get? hinfo, hinfo]

theorem functionText_eq_head_append (f : Function) :
    s.functionText f =
      s.headText (s.constructorName f.term) (s.ruleSet.termInfo f.term).args
        (s.returnTypeText (s.ruleSet.termInfo f.term)) ++ s.bodyText f := by
  rw [functionText_eq, headText, bodyText]
  simp only [List.append_assoc]

theorem headText_append_inj {name rest result result' : Bytes} {params : List TypeId} :
    s.headText name params result ++ rest = s.headText name params result' ++ rest ↔
      result = result' := by
  rw [List.append_left_inj, headText, headText, lineText, lineText]
  simp only [List.append_left_inj, List.append_right_inj]

/-- The functions of the module are those of the terms that rules build, each written with the
return type of its term. -/
theorem defines_iff {result : Bytes} : s.Defines term result ↔
    term ∈ s.internalTerms ∧ result = s.returnTypeText (s.ruleSet.termInfo term) := by
  constructor
  · rintro ⟨f, hf, rfl, htext⟩
    obtain ⟨t, ht, rfl⟩ := List.mem_map.mp hf
    rw [functionText_eq_head_append, headText_append_inj] at htext
    exact ⟨ht, htext.symm⟩
  · rintro ⟨hmem, rfl⟩
    exact ⟨Function.ofTerm s.ruleSet term, List.mem_map_of_mem hmem, rfl,
      functionText_eq_head_append _⟩

theorem defines_of_internal {loc : Loc} (hget : s.ruleSet.terms.get? term = some info)
    (hinternal : info.constructor = .internal loc) : s.Defines term (s.returnTypeText info) :=
  defines_iff.mpr ⟨mem_internalTerms hget hinternal, by rw [RuleSet.termInfo_of_get? hget]⟩

theorem mem_contextEntries (hget : s.ruleSet.terms.get? term = some info) {entry : Bytes}
    (hentry : s.buildEntry? info = some entry ∨ s.matchEntry? info = some entry) :
    entry ∈ s.contextEntries := by
  refine List.mem_flatMap.mpr ⟨info, ?_, ?_⟩
  · rw [Array.mem_toList_iff]
    exact Array.mem_of_getElem? hget
  · rw [List.mem_append, Option.mem_toList, Option.mem_toList]
    exact hentry

theorem requiresBuild_of_external {function : Bytes} {loc : Loc}
    (hget : s.ruleSet.terms.get? term = some info)
    (hexternal : info.constructor = .external function loc) :
    s.RequiresBuild term (s.returnTypeText info) := by
  have hentry : s.buildEntry? info =
      some (s.methodText (s.buildMethod term) info.args (s.returnTypeText info)) := by
    unfold buildEntry? buildMethod
    rw [RuleSet.termInfo_of_get? hget, hexternal]
    rfl
  rw [RequiresBuild, RuleSet.termInfo_of_get? hget]
  exact ⟨hentry, mem_contextEntries hget (.inl hentry)⟩

def matchResult (s : Setting) (info : TermInfo) (infallible : Bool) : Bytes :=
  (if infallible || info.args.isEmpty then [] else ascii "?") ++ s.resultsText info

theorem requiresMatch_of_external {function : Bytes} {infallible : Bool} {loc : Loc}
    (hget : s.ruleSet.terms.get? term = some info)
    (hexternal : info.extractor = .external function infallible loc) :
    s.RequiresMatch term (s.matchResult info infallible) := by
  have hentry : s.matchEntry? info =
      some (s.methodText (s.matchMethod term) [info.ret] (s.matchResult info infallible)) := by
    unfold matchEntry? matchMethod
    rw [RuleSet.termInfo_of_get? hget, hexternal, methodText, matchResult, ← List.append_assoc]
    rfl
  rw [RequiresMatch, RuleSet.termInfo_of_get? hget]
  exact ⟨hentry, mem_contextEntries hget (.inr hentry)⟩

theorem returnTypeText_eq_iff :
    s.returnTypeText info = ascii "?" ++ s.typeName info.ret ↔ info.isPartial = true := by
  rw [returnTypeText, List.append_left_inj]
  cases info.isPartial <;> decide

theorem matchResult_eq_iff {infallible : Bool} :
    s.matchResult info infallible = ascii "?" ++ s.resultsText info ↔
      infallible = false ∧ info.args ≠ [] := by
  rw [matchResult, List.append_left_inj]
  cases infallible <;> cases info.args <;> simp [ascii]

theorem matchResult_struct {infallible : Bool} (hone : info.args.length ≠ 1)
    {i : Nat} (hi : i < info.args.length) :
    s.matchResult info infallible = s.structText info.args ∨
      s.matchResult info infallible = ascii "?" ++ s.structText info.args := by
  have hstruct : s.resultsText info = s.structText info.args := by
    rw [resultsText]
    split
    · rename_i hnone
      simp [hnone] at hi
    · rename_i type hsingle
      simp [hsingle] at hone
    · rfl
  rw [matchResult, hstruct]
  split_ifs
  · exact .inl rfl
  · exact .inr rfl

theorem typeName_boolType (h : s.ruleSet.Coherent) : s.typeName boolType = ascii "bool" := by
  rw [typeName, RuleSet.typeInfo_of_get? h.bool]
  rfl

theorem answers_of_fits (h : s.ruleSet.Coherent) {b : Block} (hnodup : b.declared.Nodup)
    {use : Use} {v : Value} (hv : v.Fits s.ruleSet b.body use) : s.Answers b use v := by
  cases v with
  | construct term args =>
    obtain ⟨info, hget, ⟨loc, hinternal⟩, hlength, hunwrapped⟩ := hv
    rw [Answers, RuleSet.termInfo_of_get? hget]
    exact ⟨_, defines_of_internal hget hinternal, hlength,
      hunwrapped.trans returnTypeText_eq_iff.symm⟩
  | contextBuild term args =>
    obtain ⟨info, hget, ⟨function, loc, hexternal⟩, hlength, hunwrapped, hnegated⟩ := hv
    rw [Answers, RuleSet.termInfo_of_get? hget]
    refine ⟨_, requiresBuild_of_external hget hexternal, hlength,
      hunwrapped.trans returnTypeText_eq_iff.symm, fun huse => ?_⟩
    have htotal : info.isPartial = false := by
      rw [← Bool.not_eq_true, ← hunwrapped, huse]
      simp
    rw [returnTypeText, htotal, hnegated huse, typeName_boolType h]
    rfl
  | contextMatch term arg =>
    obtain ⟨info, function, infallible, loc, hget, hexternal, hunwrapped, hnegated⟩ := hv
    rw [Answers, RuleSet.termInfo_of_get? hget]
    refine ⟨_, requiresMatch_of_external hget hexternal,
      hunwrapped.trans matchResult_eq_iff.symm, fun huse => ?_⟩
    rw [matchResult, resultsText, hnegated huse]
    simp
  | component base i =>
    obtain ⟨temp, type, term, arg, orBreak, info, hbase, hmem, hget, hextractor, hone, hi⟩ := hv
    obtain ⟨function, infallible, loc, hexternal⟩ := hextractor
    refine ⟨temp, term, arg, _, hbase, valuesOf_of_mem hnodup hmem,
      requiresMatch_of_external hget hexternal, ?_⟩
    rw [RuleSet.termInfo_of_get? hget]
    exact ⟨matchResult_struct hone hi, hi⟩
  | _ => trivial

/-- A module that is generated without errors has a callee for each of its calls, and one function
for each term that rules build. -/
theorem closed_module (s : Setting) (h : s.ruleSet.Faultless) :
    (∀ f ∈ s.functions, ∀ b ∈ f.blocks, ∀ o ∈ b.uses, s.Answers b o.1 o.2) ∧
      ∀ term info loc, s.ruleSet.terms.get? term = some info →
        info.constructor = .internal loc →
          s.ruleSet.rulesFor term ≠ [] ∧ (s.functions.map Function.term).count term = 1 := by
  have hsound : s.ruleSet.Sound := by
    obtain ⟨batches, hbatches⟩ := h.exists_batches
    rw [hbatches]
    exact RuleSet.afterAll_sound batches
  refine ⟨fun f hf b hb o ho => ?_, fun term info loc hget hinternal => ?_⟩
  · obtain ⟨term, -, rfl⟩ := List.mem_map.mp hf
    obtain ⟨i, hi⟩ := List.getElem?_of_mem hb
    obtain ⟨r, d, hr, rfl⟩ :=
      Lower.blocks_getElem? s.ruleSet (s.ruleSet.rulesFor term) 0 .empty hi
    have hmem := (RuleSet.mem_of_mem_rulesFor (List.mem_of_getElem? hr)).1
    apply answers_of_fits hsound.coherent
    · rw [(Lower.blockUse_block s.ruleSet r (0 + i) d).declared]
      exact List.nodup_range'
    · exact Lower.fit_block (hsound.wellFormed r hmem).wellTyped (0 + i) d o ho
  · refine ⟨h.rulesFor_ne_nil hget hinternal, ?_⟩
    have hterms : s.functions.map Function.term = s.internalTerms := by
      rw [functions, List.map_map]
      exact List.map_id _
    have hnodup : s.internalTerms.Nodup := List.nodup_range.filter _
    rw [hterms, hnodup.count, if_pos (mem_internalTerms hget hinternal)]

end Setting

end Zig

namespace Definition

/-- The rule of `f` matches with `p`, tests with `q` and calls `g`, whose own rule stands behind. -/
def callSample : List Definition :=
  let name (b : UInt8) : Ident := ⟨[b], .unknown⟩
  let u := name 117
  let p := name 112
  let q := name 113
  let f := name 102
  let g := name 103
  let x := name 120
  let y := name 121
  [.type ⟨u, false, false, .primitive u, .unknown⟩,
    .decl ⟨p, [u, u], u, false, false, .unknown⟩,
    .external ⟨.extractor false, p, p, .unknown⟩,
    .decl ⟨q, [u], ⟨ascii "bool", .unknown⟩, false, false, .unknown⟩,
    .external ⟨.constructor, q, q, .unknown⟩,
    .decl ⟨f, [u], u, false, false, .unknown⟩,
    .decl ⟨g, [u], u, false, true, .unknown⟩,
    .rule {
      name := none
      priority := 0
      pattern := .term .unknown f.name
        [.term .unknown p.name [.var .unknown x.name, .var .unknown y.name]]
      guards := [{
        pattern := .bool .unknown true
        value := .term .unknown q.name [.var .unknown x.name]
        loc := .unknown }]
      result := .term .unknown g.name [.var .unknown y.name]
      loc := .unknown },
    .rule {
      name := none
      priority := 0
      pattern := .term .unknown g.name [.var .unknown x.name]
      guards := []
      result := .var .unknown x.name
      loc := .unknown }]

end Definition

namespace Zig

/-- The block of `f` unwraps the calls of `p` and `g` and negates that of `q`. -/
theorem Setting.closed_module_callSample :
    let s : Setting := ⟨(RuleSet.empty.analyze Definition.callSample).1, .standard⟩
    s.ruleSet.Faultless ∧
      (∃ b, (Function.ofTerm s.ruleSet 2).blocks = [b] ∧
        (b.uses.map Prod.fst).count .unwrapped = 2 ∧ (b.uses.map Prod.fst).count .negated = 1 ∧
        ∀ o ∈ b.uses, s.Answers b o.1 o.2) ∧
      s.ruleSet.rulesFor 3 ≠ [] := by
  intro s
  have herrors : (RuleSet.empty.analyze Definition.callSample).2 = [] := by decide +kernel
  have hfaultless : s.ruleSet.Faultless := .analyze .empty herrors
  obtain ⟨hcalls, hterms⟩ := closed_module s hfaultless
  refine ⟨hfaultless, ?_, ?_⟩
  · have hlength : (Function.ofTerm s.ruleSet 2).blocks.length = 1 := by decide +kernel
    have huses : (Function.ofTerm s.ruleSet 2).blocks.map (fun b =>
        ((b.uses.map Prod.fst).count .unwrapped, (b.uses.map Prod.fst).count .negated)) =
          [(2, 1)] := by decide +kernel
    obtain ⟨b, hb⟩ := List.length_eq_one_iff.mp hlength
    rw [hb, List.map_singleton, List.singleton_inj, Prod.mk.injEq] at huses
    have hf : Function.ofTerm s.ruleSet 2 ∈ s.functions := by
      have hmem : 2 ∈ s.internalTerms := by decide +kernel
      exact List.mem_map_of_mem hmem
    refine ⟨b, hb, huses.1, huses.2, hcalls _ hf b ?_⟩
    rw [hb]
    exact List.mem_singleton_self b
  · have hinternal : (s.ruleSet.terms.get? 3).map TermInfo.constructor =
        some (.internal .unknown) := by decide +kernel
    obtain ⟨info, hget, hconstructor⟩ := Option.map_eq_some_iff.mp hinternal
    exact (hterms 3 info .unknown hget hconstructor).1

end Zig

end TermRules

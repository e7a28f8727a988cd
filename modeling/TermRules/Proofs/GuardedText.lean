import TermRules.Proofs.GuardedWriting

/-!
# Modules without missing entries

After every run of analyses the guarded text of a module is there, and it is the
text of the module: all numbers have entries and all variables have values. In
each function no local is declared twice, and each stands before the lines that
use it.
-/

namespace TermRules.Zig

namespace Setting

variable (s : Setting)

section Texts

variable {s}
variable {arity : Nat} {locals : List Nat}

theorem mapM_typeName? {types : List TypeId}
    (h : ∀ type ∈ types, type < s.ruleSet.types.size) :
    types.mapM s.typeName? = some (types.map s.typeName) :=
  mapM_eq_map fun type ht => typeName?_eq (Array.getElem?_eq_getElem (h type ht))

theorem returnTypeText?_eq {term : TermInfo} (h : term.ret < s.ruleSet.types.size) :
    s.returnTypeText? term = some (s.returnTypeText term) := by
  rw [returnTypeText?, returnTypeText, typeName?_eq (Array.getElem?_eq_getElem h)]
  rfl

theorem functionText?_eq (hrs : s.ruleSet.Bounded) {f : Function} {info : TermInfo}
    (hinfo : s.ruleSet.terms.get? f.term = some info)
    (hblocks : ∀ b ∈ f.blocks, LegibleFrom s.ruleSet arity [] b.body) :
    s.functionText? f = some (s.functionText f) := by
  have hbounds := hrs.terms f.term info hinfo
  have htexts : f.blocks.mapM s.blockText? = some (f.blocks.map s.blockText) :=
    mapM_eq_map fun b hb => blockText?_eq (hblocks b hb)
  have hparams : (info.args.map s.typeName).mapIdx
      (fun i type => ascii ", " ++ paramName i ++ ascii ": " ++ type) =
        info.args.mapIdx s.paramText := by
    apply List.ext_getElem <;> simp [paramText]
  rw [functionText?, functionText_eq, RuleSet.termInfo_of_get? hinfo, hinfo,
    constructorName?_eq hinfo]
  simp only [Option.bind_eq_bind, Option.bind_some, returnTypeText?_eq hbounds.ret,
    mapM_typeName? hbounds.args, htexts, hparams, List.flatMap_def]
  rfl

theorem entriesOf_eq {term : TermInfo}
    (h : term.Below s.ruleSet.types.size s.ruleSet.templates.size) :
    s.buildEntries? term = some (s.buildEntry? term).toList ∧
      s.matchEntries? term = some (s.matchEntry? term).toList := by
  refine ⟨?_, ?_⟩
  · rw [buildEntries?, buildEntry?]
    cases term.constructor with
    | external function loc =>
      simp only [mapM_typeName? h.args, returnTypeText?_eq h.ret]
      rfl
    | _ => rfl
  · have hresults : s.resultsText? term = some (s.resultsText term) := by
      rw [resultsText?, resultsText, mapM_typeName? h.args]
      rcases term.args with - | ⟨type, - | ⟨type', types⟩⟩ <;> rfl
    rw [matchEntries?, matchEntry?]
    cases term.extractor with
    | external function infallible loc =>
      simp only [typeName?_eq (Array.getElem?_eq_getElem h.ret), hresults]
      rfl
    | _ => rfl

theorem contextText?_eq (hrs : s.ruleSet.Bounded) : s.contextText? = some s.contextText := by
  have hentries : (s.ruleSet.terms.entries.toList.mapM fun term => do
      return (← s.buildEntries? term) ++ (← s.matchEntries? term)) =
        some (s.ruleSet.terms.entries.toList.map fun term =>
          (s.buildEntry? term).toList ++ (s.matchEntry? term).toList) := by
    refine mapM_eq_map fun term hterm => ?_
    obtain ⟨id, hid⟩ := Array.getElem?_of_mem (Array.mem_toList_iff.mp hterm)
    obtain ⟨hbuild, hmatch⟩ := entriesOf_eq (hrs.terms id term hid)
    rw [hbuild, hmatch]
    rfl
  rw [contextText?, hentries, contextText, contextEntries, List.flatMap_def]
  rfl

theorem typeDeclText?_eq {info : TypeInfo}
    (h : info.Below s.ruleSet.types.size s.ruleSet.terms.size) :
    s.typeDeclText? info = some (s.typeDeclText info) := by
  rw [typeDeclText?]
  split
  · rename_i variants hexternal hshape
    have hlines : variants.toList.mapM s.variantDeclText? =
        some (variants.toList.map s.variantDeclText) := by
      refine mapM_eq_map fun v hv => ?_
      have hbelow : v.Below s.ruleSet.types.size s.ruleSet.terms.size := by
        refine h v ?_
        rw [hshape]
        exact Array.mem_toList_iff.mp hv
      have hfields : (v.fields.mapM fun f => do
          return identifier f.name ++ ascii ": " ++ (← s.typeName? f.type)) =
            some (v.fields.map s.fieldText) := by
        refine mapM_eq_map fun f hf => ?_
        rw [typeName?_eq (Array.getElem?_eq_getElem (hbelow.fields f hf))]
        rfl
      rw [variantDeclText?, hfields, variantDeclText]
      cases v.fields <;> rfl
    simp only [hlines, typeDeclText, hexternal, hshape, List.flatMap_def]
    rfl
  · rfl

end Texts

end Setting

def Statement.names : Statement → List Binder
  | .const _ _ v _ | .discard v | .ret v => v.names
  | .breakIf condition => condition.names

/-- No local is declared twice, and each is declared in its block before it is used. -/
structure Function.DeclaresLocals (f : Function) : Prop where
  once : ((f.blocks.flatMap Block.declared).map tempName).Nodup
  earlier : ∀ b ∈ f.blocks, ∀ before t after, b.body = before ++ t :: after →
    ∀ i, .temp i ∈ t.names → i ∈ before.filterMap Statement.declared?

theorem Statement.Legible.mem_locals {rs : RuleSet} {arity : Nat} {locals : List Nat}
    {t : Statement} (h : t.Legible rs arity locals) {i : Nat} (hi : .temp i ∈ t.names) :
    i ∈ locals := by
  cases t with
  | const temp type v orBreak => exact h.2.mem_locals hi
  | discard v | ret v => exact Value.Legible.mem_locals (v := v) h hi
  | breakIf condition =>
    cases condition with
    | differ a b | differDeeply a b =>
      exact (List.mem_append.mp hi).elim h.1.mem_locals h.2.mem_locals
    | otherTag v ref => exact h.1.mem_locals hi
    | isTrue v | isFalse v => exact Value.Legible.mem_locals (v := v) h hi

theorem Lower.declared_blocks (rs : RuleSet) (rules : List CheckedRule) (index : Nat) (d : Draft) :
    ∃ n, ((blocks rs index rules).run d).1.1.flatMap Block.declared =
      List.range' d.nextTemp n := by
  induction rules generalizing index d with
  | nil => exact ⟨0, rfl⟩
  | cons r rules ih =>
    have hfirst := blockUse_block rs r index d
    rw [blocks, run_bind]
    split_ifs
    · obtain ⟨n, hrest⟩ := ih (index + 1) ((block rs index r).run d).2
      refine ⟨((block rs index r).run d).1.declared.length + n, ?_⟩
      rw [run_bind, run_pure]
      dsimp only
      rw [List.flatMap_cons, hrest, hfirst.nextTemp, ← List.range'_append_1, ← hfirst.declared]
    · refine ⟨((block rs index r).run d).1.declared.length, ?_⟩
      rw [run_pure, ← hfirst.declared]
      exact List.flatMap_singleton _ _

section Reached

variable {batches : List (List Definition)} {term : TermId} {info : TermInfo}

theorem rulesFor_afterAll (hinfo : (RuleSet.afterAll batches).terms.get? term = some info) :
    ∀ r ∈ (RuleSet.afterAll batches).rulesFor term,
      r.WellFormed (.afterAll batches) ∧ Guarded.Known (.afterAll batches) r.vars ∧
        r.args.length ≤ info.args.length := by
  intro r hr
  obtain ⟨hmem, rfl⟩ := RuleSet.mem_of_mem_rulesFor hr
  have hwf := (RuleSet.afterAll_sound batches).wellFormed r hmem
  refine ⟨hwf, (RuleSet.afterAll_bounded batches).2 r hmem, ?_⟩
  obtain ⟨info', hinfo', hargs, -⟩ := hwf.wellTyped.1
  cases hinfo.symm.trans hinfo'
  rw [hargs, List.length_map]

theorem ofTerm?_afterAll (hinfo : (RuleSet.afterAll batches).terms.get? term = some info) :
    Function.ofTerm? (.afterAll batches) term = some (.ofTerm (.afterAll batches) term) ∧
      ∀ b ∈ (Function.ofTerm (.afterAll batches) term).blocks,
        LegibleFrom (.afterAll batches) info.args.length [] b.body := by
  obtain ⟨hrun, hlegible⟩ := Guarded.run_blocks (RuleSet.afterAll_linked batches) _
    (rulesFor_afterAll hinfo) 0 .empty
  refine ⟨?_, hlegible⟩
  rw [Function.ofTerm?, hinfo]
  simp only [Option.bind_eq_bind, Option.bind_some, hrun]
  rfl

theorem functionsText?_afterAll (options : Options) :
    let s : Setting := ⟨.afterAll batches, options⟩
    s.functionsText? = some s.functionsText := by
  intro s
  have htexts : (s.internalTerms.mapM fun term => do
      let f ← Function.ofTerm? s.ruleSet term
      return Setting.lineText "" [] ++ (← s.functionText? f)) =
        some (s.internalTerms.map fun term =>
          Setting.lineText "" [] ++ s.functionText (.ofTerm s.ruleSet term)) := by
    refine Setting.mapM_eq_map fun term hterm => ?_
    have hinfo := Setting.get?_of_mem_internalTerms hterm
    obtain ⟨hfunction, hblocks⟩ := ofTerm?_afterAll hinfo
    have htext := Setting.functionText?_eq (s := s) (f := .ofTerm s.ruleSet term)
      (RuleSet.afterAll_bounded batches).1 hinfo hblocks
    simp only [s, hfunction, Option.bind_eq_bind, Option.bind_some] at htext ⊢
    rw [htext]
    rfl
  rw [Setting.functionsText?, htexts, Setting.functionsText, Setting.functions, List.flatMap_map,
    List.flatMap_def]
  rfl

theorem declaresLocals_ofTerm (hinfo : (RuleSet.afterAll batches).terms.get? term = some info) :
    (Function.ofTerm (.afterAll batches) term).DeclaresLocals where
  once := by
    obtain ⟨n, hdeclared⟩ := Lower.declared_blocks (.afterAll batches)
      ((RuleSet.afterAll batches).rulesFor term) 0 .empty
    have hblocks : (Function.ofTerm (.afterAll batches) term).blocks.flatMap Block.declared =
        List.range' 0 n := hdeclared
    rw [hblocks]
    exact List.Nodup.map tempName_injective List.nodup_range'
  earlier b hb before t after hbody i hi := by
    have hlegible := (ofTerm?_afterAll hinfo).2 b hb
    rw [hbody] at hlegible
    exact (Setting.legible_of_legibleFrom hlegible).mem_locals hi

end Reached

/-- Whatever was analysed before, and whatever was refused, the module of the rule set is written
without a read of an entry, a field, a parameter or a variable that is not there. In each of its
functions no local is declared twice, and each is declared before it is used. -/
theorem Setting.emission_total (batches : List (List Definition)) (options : Options)
    (inputs : List Bytes) :
    let s : Setting := ⟨.afterAll batches, options⟩
    s.moduleText? inputs = some (s.moduleText inputs) ∧
      ∀ f ∈ s.functions, f.DeclaresLocals := by
  intro s
  refine ⟨?_, fun f hf => ?_⟩
  · have hbounded := (RuleSet.afterAll_bounded batches).1
    have htypes : s.ruleSet.types.entries.toList.mapM s.typeDeclText? =
        some (s.ruleSet.types.entries.toList.map s.typeDeclText) := by
      refine mapM_eq_map fun info hinfo => ?_
      obtain ⟨id, hid⟩ := Array.getElem?_of_mem (Array.mem_toList_iff.mp hinfo)
      exact typeDeclText?_eq (hbounded.types id info hid)
    rw [moduleText?, contextText?_eq hbounded, htypes, functionsText?_afterAll options, moduleText,
      typesText, List.flatMap_def]
    rfl
  · obtain ⟨term, hterm, rfl⟩ := List.mem_map.mp hf
    exact declaresLocals_ofTerm (get?_of_mem_internalTerms hterm)

end TermRules.Zig

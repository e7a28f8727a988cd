import TermRules.Compilation
import TermRules.Proofs.Reading
import TermRules.Proofs.RenumberedCode
import TermRules.Proofs.RenumberedRuns
import TermRules.Proofs.RuleOrder

/-!
# Files form one rule set

Compiling several files is compiling one text in which they follow each other,
each on a new line. The two compilations see the same definitions at different
places, and neither the errors nor the code depend on places.
-/

namespace TermRules

theorem forall₂_of_getElem? {α β : Type} {R : α → β → Prop} {as : List α} {bs : List β}
    (h : ∀ i : Nat, Option.Rel R as[i]? bs[i]?) : List.Forall₂ R as bs := by
  induction as generalizing bs with
  | nil =>
    cases bs with
    | nil => exact .nil
    | cons b bs => cases h 0
  | cons a as ih =>
    cases bs with
    | nil => cases h 0
    | cons b bs =>
      have hfirst := h 0
      cases hfirst with
      | some hfirst => exact .cons hfirst (ih fun i => h (i + 1))

theorem flatMap_eq_of_forall₂ {α β γ : Type} {R : α → β → Prop} {as : List α} {bs : List β}
    (h : List.Forall₂ R as bs) {f : α → List γ} {g : β → List γ}
    (hfg : ∀ a b, R a b → g b = f a) : bs.flatMap g = as.flatMap f := by
  induction h with
  | nil => rfl
  | cons hab _ ih => rw [List.flatMap_cons, List.flatMap_cons, hfg _ _ hab, ih]

theorem Table.Renumbered.forall₂ {α : Type} [Named α] {R : α → α → Prop} {t t' : Table α}
    (h : t.Renumbered (Equiv.refl Nat) R t') :
    List.Forall₂ R t.entries.toList t'.entries.toList :=
  forall₂_of_getElem? fun i => by
    rw [Array.getElem?_toList, Array.getElem?_toList]
    exact h.get i

theorem rulesFor_renumber {ρ : Renumbering} {rs rs' : RuleSet}
    (h : rs'.rules = rs.rules.map (CheckedRule.renumber ρ)) (term : TermId) :
    rs'.rulesFor (ρ.term term) = (rs.rulesFor term).map (CheckedRule.renumber ρ) := by
  have hroot : ∀ p : CheckedRule × Nat,
      (Prod.map (CheckedRule.renumber ρ) id p).1.root = ρ.term term ↔ p.1.root = term :=
    fun p => ρ.term.apply_eq_iff_eq
  have hfilter : rs'.rules.toList.zipIdx.filter (·.1.root = ρ.term term) =
      (rs.rules.toList.zipIdx.filter (·.1.root = term)).map
        (Prod.map (CheckedRule.renumber ρ) id) := by
    rw [h, Array.toList_map, List.zipIdx_map, List.filter_map]
    congr 1
    exact List.filter_congr fun p _ => decide_eq_decide.mpr (hroot p)
  rw [RuleSet.rulesFor, RuleSet.rulesFor, RuleSet.numberedRulesFor, RuleSet.numberedRulesFor,
    hfilter, sortStably_map fun _ _ => rfl, List.map_map, List.map_map]
  rfl

namespace Zig

def headerStart : Bytes :=
  Setting.lineText "" (ascii "// GENERATED BY ISLE. DO NOT EDIT!") ++
    Setting.lineText "" (ascii "//") ++
    Setting.lineText "" (ascii "// Generated automatically from the rule files:")

def inputLines (inputs : List Bytes) : Bytes :=
  inputs.flatMap fun path => Setting.lineText "" (ascii "// - " ++ path)

namespace Setting

def afterInputs (s : Setting) : Bytes :=
  lineText "" [] ++
    (if s.options.omitPragma then []
      else lineText "" (ascii "// zig fmt: off") ++ lineText "" []) ++
    lineText "" (ascii "const std = @import(\"std\");") ++
    s.contextText ++ s.typesText ++ s.functionsText

theorem moduleText_eq (s : Setting) (inputs : List Bytes) :
    s.moduleText inputs = headerStart ++ inputLines inputs ++ s.afterInputs := by
  simp only [moduleText, headerText, headerStart, inputLines, afterInputs, List.append_assoc]

section Moving

variable {move : Loc → Loc} {hmove : move .unknown = .unknown} {rs rs' : RuleSet}
  (h : rs.Renumbered (.moving move hmove) rs')
  (hblocks : ∀ term, Lower.blocks rs' 0 (rs'.rulesFor term) =
    Lower.blocks rs' 0 ((rs.rulesFor term).map (CheckedRule.renumber (.moving move hmove))))
  (options : Options)

include h in
theorem contextText_moving :
    (Setting.mk rs' options).contextText = (Setting.mk rs options).contextText := by
  have hentries : (Setting.mk rs' options).contextEntries =
      (Setting.mk rs options).contextEntries :=
    flatMap_eq_of_forall₂ h.terms.forall₂ fun term term' hterm => by
      rw [buildEntry?_renumber h options hterm, matchEntry?_renumber h options hterm]
  rw [contextText, contextText, hentries]

include h in
theorem typesText_moving :
    (Setting.mk rs' options).typesText = (Setting.mk rs options).typesText :=
  flatMap_eq_of_forall₂ h.types.forall₂ fun info info' hinfo => by
    rw [hinfo, typeDeclText_renumber h]

include h in
theorem internalTerms_moving :
    (Setting.mk rs' options).internalTerms = (Setting.mk rs options).internalTerms := by
  rw [internalTerms, internalTerms, h.terms.size]
  refine List.filter_congr fun term _ => ?_
  have hconstructor := (h.termInfo term).constructor
  change Constructor.Renumbered _ _ (rs'.termInfo term).constructor at hconstructor
  dsimp only
  generalize (rs.termInfo term).constructor = c, (rs'.termInfo term).constructor = c'
    at hconstructor
  cases hconstructor <;> rfl

include h hblocks in
theorem functionsText_moving :
    (Setting.mk rs' options).functionsText = (Setting.mk rs options).functionsText := by
  rw [functionsText, functionsText, functions, functions, internalTerms_moving h,
    List.flatMap_map, List.flatMap_map]
  refine congrArg (List.flatMap · (Setting.mk rs options).internalTerms) (funext fun term => ?_)
  have hfunction := ofTerm_renumber_of_blocks _ h term (hblocks term)
  change Function.ofTerm rs' term = _ at hfunction
  rw [hfunction, functionText_renumber h]

include h hblocks in
theorem afterInputs_of_blocks :
    (Setting.mk rs' options).afterInputs = (Setting.mk rs options).afterInputs := by
  rw [afterInputs, afterInputs, contextText_moving h, typesText_moving h,
    functionsText_moving h hblocks]

include h in
theorem afterInputs_moving
    (hrules : rs'.rules = rs.rules.map (CheckedRule.renumber (.moving move hmove))) :
    (Setting.mk rs' options).afterInputs = (Setting.mk rs options).afterInputs := by
  refine afterInputs_of_blocks h (fun term => ?_) options
  exact congrArg (Lower.blocks rs' 0) (rulesFor_renumber hrules term)

end Moving

end Setting

end Zig

namespace Log

theorem entries_reportAll (log : Log) (ds : List Diagnostic) :
    (log.reportAll ds).entries = log.entries ++ ds := by
  induction ds generalizing log with
  | nil => exact (List.append_nil _).symm
  | cons d ds ih =>
    rw [reportAll, List.foldl_cons]
    change ((log.report d).reportAll ds).entries = _
    rw [ih, report, List.append_assoc, List.singleton_append]

theorem errorCount_reportAll (log : Log) {ds : List Diagnostic}
    (h : ∀ d ∈ ds, d.severity = .error) :
    (log.reportAll ds).errorCount = log.errorCount + ds.length := by
  induction ds generalizing log with
  | nil => rfl
  | cons d ds ih =>
    rw [List.forall_mem_cons] at h
    change ((log.report d).reportAll ds).errorCount = _
    rw [ih _ h.2, report, if_pos h.1, List.length_cons]
    dsimp only
    omega

end Log

theorem severity_interleave {scanned : List (Nat × List Diagnostic)} {failures : List SyntaxFailure}
    (h : ∀ p ∈ scanned, ∀ d ∈ p.2, d.severity = .error) :
    ∀ d ∈ interleave scanned failures, d.severity = .error := by
  have hfailures : ∀ (fs : List SyntaxFailure), ∀ d ∈ fs.map SyntaxFailure.diagnostic,
      d.severity = .error := by
    intro fs d hd
    obtain ⟨f, -, rfl⟩ := List.mem_map.mp hd
    rfl
  induction scanned generalizing failures with
  | nil => exact hfailures failures
  | cons p scanned ih =>
    rw [List.forall_mem_cons] at h
    intro d hd
    rw [interleave, List.mem_append, List.mem_append] at hd
    rcases hd with (hd | hd) | hd
    · exact h.1 d hd
    · exact hfailures _ d hd
    · exact ih h.2 d hd

theorem severity_parseFile (file : UInt32) (text : Bytes) :
    ∀ d ∈ (parseFile file text).diagnostics, d.severity = .error := by
  refine severity_interleave fun p hp d hd => ?_
  have hmem : d ∈ (Scan.ofSource file text).diagnostics :=
    List.mem_flatten.mpr ⟨p.2, (List.of_mem_zip hp).2, hd⟩
  rw [Scan.ofSource, Scan.diagnostics_ofPieces] at hmem
  obtain ⟨q, -, hq⟩ := List.mem_flatMap.mp hmem
  rw [PlacedPiece.diagnostics, Option.mem_toList] at hq
  obtain ⟨fault, -, rfl⟩ := Option.map_eq_some_iff.mp hq
  rfl

namespace RuleSet

theorem analyze_congr {defs defs' : List Definition}
    (h : defs'.map (Definition.relocate nowhere) = defs.map (Definition.relocate nowhere)) :
    ((empty.analyze defs').2.map SemanticError.fault =
        (empty.analyze defs).2.map SemanticError.fault) ∧
      ∀ options, (Zig.Setting.mk (empty.analyze defs').1 options).afterInputs =
        (Zig.Setting.mk (empty.analyze defs).1 options).afterInputs := by
  obtain ⟨hset, hrules, herrors⟩ := analyze_moving nowhere rfl defs
  obtain ⟨hset', hrules', herrors'⟩ := analyze_moving nowhere rfl defs'
  rw [h] at hset' hrules' herrors'
  have hfaults : ∀ es : List SemanticError,
      (es.map (SemanticError.relocate nowhere)).map SemanticError.fault =
        es.map SemanticError.fault := fun es => List.map_map
  constructor
  · rw [← hfaults, ← herrors', herrors, hfaults]
  · intro options
    rw [← Zig.Setting.afterInputs_moving hset' options hrules',
      Zig.Setting.afterInputs_moving hset options hrules]

end RuleSet

namespace Compilation

/-- All files are parsed, and the analysis refuses the definitions for these errors. -/
def FailsInAnalysis (c : Compilation) (errors : List SemanticError) : Prop :=
  errors ≠ [] ∧ (∃ types terms rules, .analyzed types terms rules ∈ c.trace) ∧
    ∃ registry, c.result = .error ⟨errors.map SemanticError.diagnostic, registry⟩

theorem result_analyze (options : Options) (registry : Registry) (sources : List Source)
    (trace : List TraceEvent) (defs : List Definition) :
    (analyze options registry sources trace .empty defs).result =
      if (RuleSet.empty.analyze defs).2 = [] then
        if options.target = .zig then
          .ok ((Zig.Setting.mk (RuleSet.empty.analyze defs).1 options).moduleText
            (sources.map Source.path))
        else .error ⟨[CompileFault.unsupportedTarget.diagnostic], registry⟩
      else
        .error ⟨(RuleSet.empty.analyze defs).2.map SemanticError.diagnostic, registry⟩ := by
  have herrors : ∀ es : List SemanticError, ∀ d ∈ es.map SemanticError.diagnostic,
      d.severity = .error := by
    intro es d hd
    obtain ⟨e, -, rfl⟩ := List.mem_map.mp hd
    rfl
  rw [analyze]
  dsimp only
  generalize RuleSet.empty.analyze defs = a
  obtain ⟨rs, errors⟩ := a
  have hcount := Log.errorCount_reportAll .empty (herrors errors)
  have hentries := Log.entries_reportAll .empty (errors.map SemanticError.diagnostic)
  cases errors with
  | nil =>
    dsimp only
    rw [if_pos (show (Log.reportAll .empty _).errorCount = 0 from hcount), if_pos rfl, generate]
    split_ifs <;> rfl
  | cons e errors =>
    dsimp only
    rw [if_neg (by rw [hcount]; simp [Log.empty]), if_neg (List.cons_ne_nil _ _), fail, hentries]
    rfl

theorem analyzed_mem_trace (options : Options) (registry : Registry) (sources : List Source)
    (trace : List TraceEvent) (log : Log) (defs : List Definition) :
    ∃ types terms rules,
      .analyzed types terms rules ∈ (analyze options registry sources trace log defs).trace := by
  rw [analyze]
  dsimp only
  generalize RuleSet.empty.analyze defs = a
  refine ⟨a.1.types.size, a.1.terms.size, a.1.rules.size, ?_⟩
  rw [generate, fail, fail]
  split_ifs <;> simp

def definitionsIn (sources : List Source) : List Definition :=
  sources.flatMap fun s => (parseFile s.file s.text).definitions

section Sources

variable (options : Options) (registry : Registry) (sources : List Source)

theorem errorCount_parsed :
    (Log.empty.reportAll
      (sources.flatMap fun s => (parseFile s.file s.text).diagnostics)).errorCount = 0 ↔
    ∀ s ∈ sources, (parseFile s.file s.text).diagnostics = [] := by
  have hseverity : ∀ d ∈ sources.flatMap fun s => (parseFile s.file s.text).diagnostics,
      d.severity = .error := by
    intro d hd
    obtain ⟨s, -, hs⟩ := List.mem_flatMap.mp hd
    exact severity_parseFile s.file s.text d hs
  rw [Log.errorCount_reportAll .empty hseverity, ← List.flatMap_eq_nil_iff,
    ← List.length_eq_zero_iff, Log.empty, Nat.zero_add]

theorem ofSources_parsed (h : ∀ s ∈ sources, (parseFile s.file s.text).diagnostics = []) :
    ∃ trace, ofSources options registry sources =
      analyze options registry sources trace .empty (definitionsIn sources) := by
  have hnone : (sources.flatMap fun s => (parseFile s.file s.text).diagnostics) = [] :=
    List.flatMap_eq_nil_iff.mpr h
  rw [ofSources]
  simp only [List.flatMap_map, hnone]
  exact ⟨_, rfl⟩

theorem ofSources_not_parsed (h : ¬∀ s ∈ sources, (parseFile s.file s.text).diagnostics = []) :
    (∃ errors, (ofSources options registry sources).result = .error errors) ∧
      ∀ types terms rules,
        .analyzed types terms rules ∉ (ofSources options registry sources).trace := by
  rw [← errorCount_parsed] at h
  rw [ofSources]
  simp only [List.flatMap_map]
  rw [if_neg h, fail]
  refine ⟨⟨_, rfl⟩, fun types terms rules hmem => ?_⟩
  simp at hmem

end Sources

theorem message_ne_unsupportedTarget (f : SemanticFault) :
    f.message ≠ CompileFault.unsupportedTarget.message := by
  intro h
  -- The messages differ at the third byte at the latest.
  have hbyte : f.message[2]? = some 115 := congrArg (fun text : Bytes => text[2]?) h
  cases f
  case typeMismatch subject found expected =>
    cases subject <;> exact absurd (Option.some.inj hbyte) (by decide)
  all_goals exact absurd (Option.some.inj hbyte) (by decide)

theorem failsInAnalysis_analyze (options : Options) (registry : Registry) (sources : List Source)
    (trace : List TraceEvent) (defs : List Definition) (errors : List SemanticError) :
    (analyze options registry sources trace .empty defs).FailsInAnalysis errors ↔
      (RuleSet.empty.analyze defs).2 ≠ [] ∧
        errors.map SemanticError.diagnostic =
          (RuleSet.empty.analyze defs).2.map SemanticError.diagnostic := by
  rw [FailsInAnalysis, result_analyze]
  constructor
  · rintro ⟨hne, -, registry', hresult⟩
    split_ifs at hresult with hnone htarget
    · obtain ⟨e, rfl, he⟩ := List.map_eq_singleton_iff.mp
        (congrArg CompileErrors.diagnostics (Except.error.inj hresult)).symm
      exact absurd (congrArg Diagnostic.message he) (message_ne_unsupportedTarget e.fault)
    · exact ⟨hnone, (congrArg CompileErrors.diagnostics (Except.error.inj hresult)).symm⟩
  · rintro ⟨hsome, heq⟩
    refine ⟨?_, analyzed_mem_trace .., registry, ?_⟩
    · rintro rfl
      exact hsome (List.map_eq_nil_iff.mp heq.symm)
    · rw [if_neg hsome, heq]

/-- Files that are parsed without errors stand, joined, for the definitions of all of them. -/
theorem joinWith_parsed {sources : List Source} (hne : sources ≠ [])
    (h : ∀ s ∈ sources, (parseFile s.file s.text).diagnostics = []) (file : UInt32) :
    let parsed := parseFile file (joinWith [Byte.newline] (sources.map Source.text))
    parsed.diagnostics = [] ∧ parsed.definitions.map (Definition.relocate nowhere) =
      (definitionsIn sources).map (Definition.relocate nowhere) := by
  have hreads : List.Forall₂ Reads (sources.map Source.text)
      (sources.map fun s =>
        (parseFile s.file s.text).definitions.map (Definition.relocate nowhere)) :=
    List.forall₂_map_left_iff.mpr <| List.forall₂_map_right_iff.mpr <|
      List.forall₂_same.mpr fun s hs => (parseFile_iff_reads s.file s.text _).mp ⟨h s hs, rfl⟩
  have hjoined := Reads.joinWith hreads (List.map_eq_nil_iff.not.mpr hne)
  rw [definitionsIn, List.map_flatMap, List.flatMap_def]
  exact (parseFile_iff_reads file _ _).mpr hjoined

theorem analyze_relocated (options : Options) {defs defs' : List Definition}
    (h : defs'.map (Definition.relocate nowhere) = defs.map (Definition.relocate nowhere))
    (registry registry' : Registry) (sources sources' : List Source)
    (trace trace' : List TraceEvent) :
    let c := analyze options registry sources trace .empty defs
    let c' := analyze options registry' sources' trace' .empty defs'
    (∀ code, c.result = .ok code → ∃ rest,
      code = Zig.headerStart ++ Zig.inputLines (sources.map Source.path) ++ rest ∧
        c'.result = .ok (Zig.headerStart ++ Zig.inputLines (sources'.map Source.path) ++ rest)) ∧
    ∀ errors, c.FailsInAnalysis errors → ∃ errors', c'.FailsInAnalysis errors' ∧
      errors'.map (fun e => e.diagnostic.message) = errors.map (fun e => e.diagnostic.message) := by
  intro c c'
  obtain ⟨hfaults, hafter⟩ := RuleSet.analyze_congr h
  have hnone : (RuleSet.empty.analyze defs').2 = [] ↔ (RuleSet.empty.analyze defs).2 = [] := by
    rw [← List.map_eq_nil_iff (f := SemanticError.fault), hfaults, List.map_eq_nil_iff]
  constructor
  · intro code hcode
    rw [result_analyze] at hcode
    split_ifs at hcode with haccepted htarget
    refine ⟨(Zig.Setting.mk (RuleSet.empty.analyze defs).1 options).afterInputs, ?_, ?_⟩
    · rw [← Except.ok.inj hcode, Zig.Setting.moduleText_eq]
    · rw [result_analyze, if_pos (hnone.mpr haccepted), if_pos htarget, Zig.Setting.moduleText_eq,
        hafter]
  · intro errors herrors
    rw [failsInAnalysis_analyze] at herrors
    refine ⟨_, (failsInAnalysis_analyze ..).mpr ⟨hnone.not.mpr herrors.1, rfl⟩, ?_⟩
    have hmessages := congrArg (List.map Diagnostic.message) herrors.2
    rw [List.map_map, List.map_map] at hmessages
    have hsame := congrArg (List.map SemanticFault.message) hfaults
    rw [List.map_map, List.map_map] at hsame
    exact hsame.trans hmessages.symm

theorem loadErrors_map_ok (sources : List Source) : loadErrors (sources.map .ok) = [] := by
  rw [loadErrors, List.filterMap_map]
  exact List.filterMap_eq_nil_iff.mpr fun _ _ => rfl

theorem toOption_map_ok (sources : List Source) :
    (sources.map Except.ok).filterMap (Except.toOption (ε := Diagnostic)) = sources := by
  rw [List.filterMap_map]
  exact List.filterMap_some

theorem path_loadAll (fs : FileSystem) {registry : Registry} {paths : List Bytes}
    {sources : List Source} (h : (Source.loadAll fs registry paths).1 = sources.map .ok) :
    sources.map Source.path = paths := by
  induction paths generalizing registry sources with
  | nil =>
    rw [List.map_eq_nil_iff.mp h.symm]
    rfl
  | cons path paths ih =>
    rw [Source.loadAll] at h
    dsimp only at h
    obtain ⟨s, sources', rfl, hs, hrest⟩ := List.map_eq_cons_iff.mp h.symm
    have hpath : s.path = path := by
      rw [Source.load] at hs
      dsimp only at hs
      split_ifs at hs
      cases hread : Source.read fs path with
      | error fault =>
        rw [hread] at hs
        cases hs
      | ok text =>
        rw [hread] at hs
        exact congrArg Source.path (Except.ok.inj hs)
    rw [List.map_cons, hpath, ih hrest.symm]

theorem ofFiles_eq (fs : FileSystem) (options : Options) {paths : List Bytes}
    {sources : List Source} (hne : paths ≠ [])
    (hload : (Source.loadAll fs .empty paths).1 = sources.map .ok) :
    ofFiles fs options paths = ofSources options (Source.loadAll fs .empty paths).2 sources := by
  rw [ofFiles, if_neg hne]
  dsimp only
  rw [hload, loadErrors_map_ok, toOption_map_ok]
  rfl

/-- Compiling files is compiling their texts one after the other, each on a new line: the code
differs in the list of the inputs only, and the analysis finds the same errors. -/
theorem ofText_joinWith (fs : FileSystem) (options : Options) (path : Bytes) {paths : List Bytes}
    {sources : List Source} (hne : paths ≠ [])
    (hload : (Source.loadAll fs .empty paths).1 = sources.map .ok) :
    let files := ofFiles fs options paths
    let joined := ofText options path (joinWith [Byte.newline] (sources.map Source.text))
    (∀ code, files.result = .ok code → ∃ rest,
      code = Zig.headerStart ++ Zig.inputLines paths ++ rest ∧
        joined.result = .ok (Zig.headerStart ++ Zig.inputLines [path] ++ rest)) ∧
    ∀ errors, files.FailsInAnalysis errors → ∃ errors', joined.FailsInAnalysis errors' ∧
      errors'.map (fun e => e.diagnostic.message) = errors.map (fun e => e.diagnostic.message) := by
  intro files joined
  have hpaths := path_loadAll fs hload
  have hsources : sources ≠ [] := by
    rintro rfl
    exact hne hpaths.symm
  have hfiles : files = _ := ofFiles_eq fs options hne hload
  by_cases hparsed : ∀ s ∈ sources, (parseFile s.file s.text).diagnostics = []
  · obtain ⟨hnone, hdefs⟩ := joinWith_parsed hsources hparsed 1
    obtain ⟨trace, htrace⟩ := ofSources_parsed options (Source.loadAll fs .empty paths).2 sources
      hparsed
    obtain ⟨trace', htrace'⟩ := ofSources_parsed options (Registry.empty.register path).2
      [⟨1, path, joinWith [Byte.newline] (sources.map Source.text)⟩] (by simpa using hnone)
    have hjoined : joined = _ := htrace'
    rw [definitionsIn, List.flatMap_singleton] at hjoined
    rw [hfiles, htrace, hjoined, ← hpaths]
    exact analyze_relocated options hdefs ..
  · obtain ⟨⟨errors, herror⟩, htrace⟩ := ofSources_not_parsed options
      (Source.loadAll fs .empty paths).2 sources hparsed
    rw [hfiles]
    constructor
    · intro code hcode
      rw [herror] at hcode
      cases hcode
    · rintro errors ⟨-, ⟨types, terms, rules, hmem⟩, -⟩
      exact absurd hmem (htrace types terms rules)

def twoFiles : FileSystem := fun path =>
  if path = ascii "types.isle" then
    some (FileData.bytes (ascii "(type u32 (primitive u32)) ; no newline")).opened
  else if path = ascii "terms.isle" then some (FileData.bytes (ascii "(decl f (u32) u32)")).opened
  else none

theorem ofText_joinWith_twoFiles :
    let paths := [ascii "types.isle", ascii "terms.isle"]
    let sources : List Source :=
      [⟨1, ascii "types.isle", ascii "(type u32 (primitive u32)) ; no newline"⟩,
        ⟨2, ascii "terms.isle", ascii "(decl f (u32) u32)"⟩]
    let files := ofFiles twoFiles .standard paths
    let joined := ofText .standard (ascii "all.isle")
      (joinWith [Byte.newline] (sources.map Source.text))
    (Source.loadAll twoFiles .empty paths).1 = sources.map .ok ∧
      (∀ code, files.result = .ok code → ∃ rest,
        code = Zig.headerStart ++ Zig.inputLines paths ++ rest ∧
          joined.result = .ok (Zig.headerStart ++ Zig.inputLines [ascii "all.isle"] ++ rest)) ∧
      ∀ errors, files.FailsInAnalysis errors → ∃ errors', joined.FailsInAnalysis errors' ∧
        errors'.map (fun e => e.diagnostic.message) =
          errors.map (fun e => e.diagnostic.message) := by
  intro paths sources
  have hload : (Source.loadAll twoFiles .empty paths).1 = sources.map .ok := rfl
  exact ⟨hload, ofText_joinWith twoFiles .standard (ascii "all.isle") (List.cons_ne_nil _ _) hload⟩

end Compilation

end TermRules

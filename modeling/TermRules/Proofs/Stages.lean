import TermRules.Proofs.FileNumbers
import TermRules.Proofs.JoinedFiles

/-!
# Stages of a compilation

What each stage of a compilation finds wrong can be said without the others: a
stage is given what the stages before it made of the files. A compilation gives
code if no stage finds anything, and otherwise all that the first such stage
finds. Later stages do not run, and the counts of a log are those of its entries.
-/

namespace TermRules

namespace Log

/-- Everything that can happen to a log. -/
inductive Reached : Log → Prop
  | empty : Reached .empty
  | report {log : Log} (h : Reached log) (d : Diagnostic) : Reached (log.report d)
  | take {log : Log} (h : Reached log) : Reached log.take.2

/-- The counts of the log are the numbers of its entries of these severities. -/
structure Counted (log : Log) : Prop where
  errors : log.errorCount = log.entries.countP (·.severity = .error)
  warnings : log.warningCount = log.entries.countP (·.severity = .warning)

theorem Reached.reportAll {log : Log} (h : log.Reached) (ds : List Diagnostic) :
    (log.reportAll ds).Reached := by
  induction ds generalizing log with
  | nil => exact h
  | cons d ds ih => exact ih (h.report d)

theorem Reached.counted {log : Log} (h : Reached log) : log.Counted := by
  induction h with
  | empty => exact ⟨rfl, rfl⟩
  | report h d ih =>
    constructor
    · simp [Log.report, List.countP_append, ih.errors, List.countP_singleton]
    · simp [Log.report, List.countP_append, ih.warnings, List.countP_singleton]
  | take => exact ⟨rfl, rfl⟩

theorem errorCount_eq_zero {ds : List Diagnostic} (h : ∀ d ∈ ds, d.severity = .error) :
    (Log.empty.reportAll ds).errorCount = 0 ↔ ds = [] := by
  rw [errorCount_reportAll .empty h, ← List.length_eq_zero_iff, Log.empty, Nat.zero_add]

end Log

/-- Both lists, each in its order, mixed into one. -/
inductive Mixes {α : Type} : List α → List α → List α → Prop
  | nil : Mixes [] [] []
  | left {as bs cs : List α} (a : α) (h : Mixes as bs cs) : Mixes (a :: as) bs (a :: cs)
  | right {as bs cs : List α} (b : α) (h : Mixes as bs cs) : Mixes as (b :: bs) (b :: cs)

namespace Mixes

variable {α : Type}

theorem right_only : ∀ bs : List α, Mixes [] bs bs
  | [] => .nil
  | b :: bs => .right b (right_only bs)

theorem append_left {as bs cs : List α} (h : Mixes as bs cs) :
    ∀ front : List α, Mixes (front ++ as) bs (front ++ cs)
  | [] => h
  | a :: front => .left a (h.append_left front)

theorem append_right {as bs cs : List α} (h : Mixes as bs cs) :
    ∀ front : List α, Mixes as (front ++ bs) (front ++ cs)
  | [] => h
  | b :: front => .right b (h.append_right front)

end Mixes

theorem mixes_interleave (scanned : List (Nat × List Diagnostic)) (failures : List SyntaxFailure) :
    Mixes (scanned.flatMap Prod.snd) (failures.map SyntaxFailure.diagnostic)
      (interleave scanned failures) := by
  induction scanned generalizing failures with
  | nil => exact .right_only _
  | cons p scanned ih =>
    obtain ⟨remaining, faults⟩ := p
    rw [interleave, List.flatMap_cons, List.append_assoc]
    refine .append_left ?_ faults
    have hsplit : failures = _ :=
      (List.takeWhile_append_dropWhile (p := (·.remaining = remaining)) (l := failures)).symm
    nth_rewrite 1 [hsplit]
    rw [List.map_append]
    exact (ih _).append_right _

theorem mixes_parseFile (file : UInt32) (text : Bytes) :
    Mixes (Scan.ofSource file text).diagnostics
      ((parseFile file text).failures.map SyntaxFailure.diagnostic)
      (parseFile file text).diagnostics := by
  have hscan : (Scan.ofSource file text).faultsByRemaining.flatMap Prod.snd =
      (Scan.ofSource file text).diagnostics := by
    rw [List.flatMap_def, Scan.faultsByRemaining, List.map_snd_zip (by simp), Scan.diagnostics]
  rw [← hscan]
  exact mixes_interleave _ _

namespace Compilation

inductive Stage
  | arguments
  | loading
  | parsing
  | analysis
  | generation

def Stage.before : Stage → List Stage
  | .arguments => []
  | .loading => [.arguments]
  | .parsing => [.arguments, .loading]
  | .analysis => [.arguments, .loading, .parsing]
  | .generation => [.arguments, .loading, .parsing, .analysis]

section Stages

variable (fs : FileSystem) (options : Options) (paths : List Bytes)

def outcomes : List (Except Diagnostic Source) :=
  paths.map (Source.outcome fs (Registry.empty.registerAll paths))

def sources : List Source := (outcomes fs paths).filterMap Except.toOption

def analysisOf : RuleSet × List SemanticError :=
  RuleSet.empty.analyze (definitionsIn (sources fs paths))

/-- The errors of a stage, whether the compilation comes to it or not. -/
def found : Stage → List Diagnostic
  | .arguments => if paths = [] then [CompileFault.noInputFiles.diagnostic] else []
  | .loading => loadErrors (outcomes fs paths)
  | .parsing => (sources fs paths).flatMap fun s => (parseFile s.file s.text).diagnostics
  | .analysis => (analysisOf fs paths).2.map SemanticError.diagnostic
  | .generation =>
      if options.target = .zig then [] else [CompileFault.unsupportedTarget.diagnostic]

def parsedEvents : List TraceEvent :=
  (sources fs paths).map fun s => .parsed s.path (parseFile s.file s.text).definitions.length

def analyzedEvent : TraceEvent :=
  let rs := (analysisOf fs paths).1
  .analyzed rs.types.size rs.terms.size rs.rules.size

def traceUpTo : Stage → List TraceEvent
  | .arguments | .loading => []
  | .parsing => parsedEvents fs paths
  | .analysis | .generation => parsedEvents fs paths ++ [analyzedEvent fs paths]

/-- The compilation ends with the errors of the first stage that has any. -/
def EndsAt (c : Compilation) (stage : Stage) : Prop :=
  (∃ registry, c.result = .error ⟨found fs options paths stage, registry⟩) ∧
    found fs options paths stage ≠ [] ∧
    (∀ earlier ∈ stage.before, found fs options paths earlier = []) ∧
    c.trace = traceUpTo fs paths stage

variable {fs options paths}

theorem severity_found (stage : Stage) :
    ∀ d ∈ found fs options paths stage, d.severity = .error := by
  intro d hd
  cases stage with
  | arguments =>
    rw [found] at hd
    split_ifs at hd
    · rw [List.mem_singleton.mp hd]
      rfl
    · cases hd
  | loading =>
    obtain ⟨loaded, hmem, hloaded⟩ := List.mem_filterMap.mp hd
    obtain ⟨path, -, rfl⟩ := List.mem_map.mp hmem
    cases houtcome : Source.outcome fs (Registry.empty.registerAll paths) path with
    | ok s =>
      rw [houtcome] at hloaded
      cases hloaded
    | error e =>
      rw [houtcome] at hloaded
      exact Option.some.inj hloaded ▸ Source.severity_outcome houtcome
  | parsing =>
    obtain ⟨s, -, hs⟩ := List.mem_flatMap.mp hd
    exact severity_parseFile s.file s.text d hs
  | analysis =>
    obtain ⟨e, -, rfl⟩ := List.mem_map.mp hd
    rfl
  | generation =>
    rw [found] at hd
    split_ifs at hd
    · cases hd
    · rw [List.mem_singleton.mp hd]
      rfl

theorem errorCount_found (stage : Stage) :
    (Log.empty.reportAll (found fs options paths stage)).errorCount = 0 ↔
      found fs options paths stage = [] :=
  Log.errorCount_eq_zero (severity_found stage)

theorem ofFiles_eq_arguments (h : paths = []) :
    ofFiles fs options paths =
      fail [] (Log.empty.reportAll (found fs options paths .arguments)) .empty := by
  rw [ofFiles, if_pos h, found, if_pos h]
  rfl

theorem ofFiles_eq_loading (h : paths ≠ []) :
    ofFiles fs options paths =
      if found fs options paths .loading = [] then
        ofSources options (Registry.empty.registerAll paths) (sources fs paths)
      else fail [] (Log.empty.reportAll (found fs options paths .loading))
        (Registry.empty.registerAll paths) := by
  rw [ofFiles, if_neg h, Source.loadAll_eq fs Registry.numbered_empty]
  exact if_congr (errorCount_found .loading) rfl rfl

theorem ofSources_eq_parsing (registry : Registry) :
    ofSources options registry (sources fs paths) =
      if found fs options paths .parsing = [] then
        analyze options registry (sources fs paths) (parsedEvents fs paths) .empty
          (definitionsIn (sources fs paths))
      else fail (parsedEvents fs paths) (Log.empty.reportAll (found fs options paths .parsing))
        registry := by
  rw [ofSources]
  simp only [List.flatMap_map, List.map_map]
  by_cases h : found fs options paths .parsing = []
  · rw [if_pos h]
    rw [found] at h
    rw [h]
    rfl
  · rw [if_neg h]
    exact if_neg (mt (errorCount_found .parsing).mp h)

theorem analyze_eq_analysis (registry : Registry) :
    analyze options registry (sources fs paths) (parsedEvents fs paths) .empty
        (definitionsIn (sources fs paths)) =
      if found fs options paths .analysis = [] then
        generate options registry (sources fs paths)
          (parsedEvents fs paths ++ [analyzedEvent fs paths]) .empty (analysisOf fs paths).1
      else fail (parsedEvents fs paths ++ [analyzedEvent fs paths])
        (Log.empty.reportAll (found fs options paths .analysis)) registry := by
  rw [analyze]
  change (if (Log.empty.reportAll (found fs options paths .analysis)).errorCount = 0 then _
    else _) = _
  by_cases h : found fs options paths .analysis = []
  · rw [if_pos h, if_pos ((errorCount_found .analysis).mpr h)]
    change generate _ _ _ _ (Log.empty.reportAll (found fs options paths .analysis)) _ = _
    rw [h]
    rfl
  · rw [if_neg h, if_neg (mt (errorCount_found .analysis).mp h)]
    rfl

theorem generate_eq_generation (registry : Registry) (trace : List TraceEvent) (rs : RuleSet) :
    generate options registry (sources fs paths) trace .empty rs =
      if found fs options paths .generation = [] then
        let code := (Zig.Setting.mk rs options).moduleText ((sources fs paths).map Source.path)
        ⟨trace ++ [.generated code.length], .ok code⟩
      else fail trace (Log.empty.reportAll (found fs options paths .generation)) registry := by
  rw [generate, found]
  by_cases h : options.target = .zig
  · rw [if_pos h, if_pos h]
    rfl
  · rw [if_neg h, if_neg h, if_neg (List.cons_ne_nil _ _)]
    rfl

theorem endsAt_fail {stage : Stage} {registry : Registry} (h : found fs options paths stage ≠ [])
    (before : ∀ earlier ∈ stage.before, found fs options paths earlier = []) :
    EndsAt fs options paths
      (fail (traceUpTo fs paths stage) (Log.empty.reportAll (found fs options paths stage))
        registry) stage :=
  ⟨⟨registry, by rw [fail, Log.entries_reportAll]; rfl⟩, h, before, rfl⟩

/-- The first stage that finds an error ends the compilation. -/
theorem code_or_endsAt (fs : FileSystem) (options : Options) (paths : List Bytes) :
    (∃ code, (ofFiles fs options paths).result = .ok code) ∧
        (∀ stage, found fs options paths stage = []) ∨
      ∃ stage, EndsAt fs options paths (ofFiles fs options paths) stage := by
  by_cases hpaths : paths = []
  · refine .inr ⟨.arguments, ?_⟩
    rw [ofFiles_eq_arguments hpaths]
    exact endsAt_fail (by rw [found, if_pos hpaths]; exact List.cons_ne_nil _ _)
      (by simp [Stage.before])
  have harguments : found fs options paths .arguments = [] := if_neg hpaths
  rw [ofFiles_eq_loading hpaths]
  by_cases hloading : found fs options paths .loading = []
  case neg =>
    rw [if_neg hloading]
    exact .inr ⟨.loading, endsAt_fail hloading (by simp [Stage.before, harguments])⟩
  rw [if_pos hloading, ofSources_eq_parsing]
  by_cases hparsing : found fs options paths .parsing = []
  case neg =>
    rw [if_neg hparsing]
    exact .inr ⟨.parsing, endsAt_fail hparsing (by simp [Stage.before, harguments, hloading])⟩
  rw [if_pos hparsing, analyze_eq_analysis]
  by_cases hanalysis : found fs options paths .analysis = []
  case neg =>
    rw [if_neg hanalysis]
    exact .inr ⟨.analysis,
      endsAt_fail hanalysis (by simp [Stage.before, harguments, hloading, hparsing])⟩
  rw [if_pos hanalysis, generate_eq_generation]
  by_cases hgeneration : found fs options paths .generation = []
  case neg =>
    rw [if_neg hgeneration]
    exact .inr ⟨.generation, endsAt_fail hgeneration
      (by simp [Stage.before, harguments, hloading, hparsing, hanalysis])⟩
  rw [if_pos hgeneration]
  refine .inl ⟨⟨_, rfl⟩, fun stage => ?_⟩
  cases stage with
  | arguments => exact harguments
  | loading => exact hloading
  | parsing => exact hparsing
  | analysis => exact hanalysis
  | generation => exact hgeneration

end Stages

/-- A compilation gives code, and then no stage finds an error, or all errors of the first stage
that finds one, and then no later stage runs. The errors of parsing are those of all files in
order, lexical and syntax errors alike, and a lexical error alone prevents code. On the way the
counts of a log are always those of its entries. -/
theorem ofFiles_allOrNothing (fs : FileSystem) (options : Options) (paths : List Bytes) :
    ((∃ code, (ofFiles fs options paths).result = .ok code) ∧
        (∀ stage, found fs options paths stage = []) ∨
      ∃ stage, EndsAt fs options paths (ofFiles fs options paths) stage) ∧
    (∀ stage, ∀ d ∈ found fs options paths stage, d.severity = .error) ∧
    (∀ s ∈ sources fs paths, Mixes (Scan.ofSource s.file s.text).diagnostics
      ((parseFile s.file s.text).failures.map SyntaxFailure.diagnostic)
      (parseFile s.file s.text).diagnostics) ∧
    (∀ s ∈ sources fs paths, lexicalFaults s.text ≠ [] →
      ∀ code, (ofFiles fs options paths).result ≠ .ok code) ∧
    (∀ ds, Log.Reached (Log.empty.reportAll ds)) ∧ ∀ log, Log.Reached log → log.Counted := by
  refine ⟨code_or_endsAt fs options paths, severity_found, fun s _ => mixes_parseFile s.file s.text,
    fun s hs hfaults code hcode => ?_, Log.Reached.empty.reportAll, fun _ h => h.counted⟩
  rcases code_or_endsAt fs options paths with ⟨-, hnone⟩ | ⟨stage, ⟨registry, herror⟩, -⟩
  · have hfile := List.flatMap_eq_nil_iff.mp (hnone .parsing) s hs
    exact hfaults ((diagnostics_parseFile s.file s.text).mp hfile).1
  · cases herror.symm.trans hcode

end Compilation

end TermRules

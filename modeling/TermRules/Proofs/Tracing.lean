import Mathlib.Tactic.Common
import TermRules.CommandLine

/-!
# Tracing

A run of the program writes to two streams as it goes along. If the trace
variable is set, each stage of the compiler reports its progress on the error
stream when it is done. The compiler writes nothing else, and no stage reads what
was written, so the reports come before everything that the program writes
itself, and nothing but them depends on the variable.
-/

namespace TermRules

structure Streams where
  out : Bytes
  err : Bytes

/-- A part of a run, which can see the value of the trace variable and write to the streams. -/
abbrev Process := ReaderT (Option Bytes) (StateM Streams)

namespace Process

def print (text : Bytes) : Process Unit := modify fun s => { s with out := s.out ++ text }

def printError (text : Bytes) : Process Unit := modify fun s => { s with err := s.err ++ text }

def trace (e : TraceEvent) : Process Unit := do
  if (← read).isSome then printError e.line

def parse : List Source → List Definition → Log → Process (List Definition × Log)
  | [], defs, log => return (defs, log)
  | s :: sources, defs, log => do
      let file := parseFile s.file s.text
      trace (.parsed s.path file.definitions.length)
      parse sources (defs ++ file.definitions) (log.reportAll file.diagnostics)

def generate (options : Options) (registry : Registry) (sources : List Source) (log : Log)
    (rs : RuleSet) : Process CompileResult := do
  if options.target = .zig then
    let code := (Zig.Setting.mk rs options).moduleText (sources.map Source.path)
    trace (.generated code.length)
    return .ok code
  else return .error ⟨(log.report CompileFault.unsupportedTarget.diagnostic).entries, registry⟩

def analyze (options : Options) (registry : Registry) (sources : List Source) (log : Log)
    (defs : List Definition) : Process CompileResult := do
  let (rs, errors) := RuleSet.empty.analyze defs
  trace (.analyzed rs.types.size rs.terms.size rs.rules.size)
  let log := log.reportAll (errors.map SemanticError.diagnostic)
  if log.errorCount = 0 then generate options registry sources log rs
  else return .error ⟨log.entries, registry⟩

def compileSources (options : Options) (registry : Registry) (sources : List Source) :
    Process CompileResult := do
  let (defs, log) ← parse sources [] .empty
  if log.errorCount = 0 then analyze options registry sources log defs
  else return .error ⟨log.entries, registry⟩

def compile (fs : FileSystem) (paths : List Bytes) (options : Options) :
    Process CompileResult := do
  if paths = [] then
    return .error ⟨(Log.empty.report CompileFault.noInputFiles.diagnostic).entries, .empty⟩
  else
    let (loaded, registry) := Source.loadAll fs .empty paths
    let log := Log.empty.reportAll (Compilation.loadErrors loaded)
    if log.errorCount = 0 then
      compileSources options registry (loaded.filterMap Except.toOption)
    else return .error ⟨log.entries, registry⟩

def finish : CompileResult → Process Nat
  | .error errors => do
      printError (CommandLine.failureHeader ++ Byte.newline :: errors.text)
      return 1
  | .ok code => do
      print (code ++ [Byte.newline])
      return 0

def main (fs : FileSystem) (a : Arguments) : Process Nat :=
  match a.files with
  | .error usage => do
      printError (usage.message ++ [Byte.newline])
      return 1
  | .ok files => do finish (← compile fs files CommandLine.options)

/-- What a run leaves behind where the trace variable has the value, or is not set. -/
def outcome (fs : FileSystem) (setting : Option Bytes) (a : Arguments) : Outcome :=
  let (status, s) := ((main fs a).run setting).run ⟨[], []⟩
  ⟨status, s.out, s.err⟩

section Traces

variable {α β : Type}

def Traces (x : Process α) (a : α) (events : List TraceEvent) : Prop :=
  ∀ (setting : Option Bytes) (s : Streams), (x.run setting).run s =
    (a, if setting.isSome then { s with err := s.err ++ events.flatMap TraceEvent.line } else s)

theorem traces_pure (a : α) : Traces (pure a) a [] := by
  intro setting s
  simp only [List.flatMap_nil, List.append_nil, ite_self]
  rfl

theorem traces_trace (e : TraceEvent) : Traces (trace e) () [e] := by
  intro setting s
  cases setting with
  | none => rfl
  | some value =>
    rw [List.flatMap_singleton]
    rfl

theorem Traces.bind {x : Process α} {a : α} {es : List TraceEvent} {f : α → Process β} {b : β}
    {fs : List TraceEvent} (hx : Traces x a es) (hf : Traces (f a) b fs) :
    Traces (x >>= f) b (es ++ fs) := by
  intro setting s
  rw [ReaderT.run_bind, StateT.run_bind, hx setting s]
  refine (hf setting _).trans ?_
  cases setting with
  | none => rfl
  | some value => simp

theorem Traces.congr {x : Process α} {a b : α} {es fs : List TraceEvent} (h : Traces x a es)
    (hab : a = b) (hes : es = fs) : Traces x b fs :=
  hab ▸ hes ▸ h

end Traces

theorem reportAll_append (log : Log) (ds es : List Diagnostic) :
    log.reportAll (ds ++ es) = (log.reportAll ds).reportAll es := List.foldl_append

theorem traces_parse (sources : List Source) (defs : List Definition) (log : Log) :
    Traces (parse sources defs log)
      (defs ++ sources.flatMap fun s => (parseFile s.file s.text).definitions,
        log.reportAll (sources.flatMap fun s => (parseFile s.file s.text).diagnostics))
      (sources.map fun s => .parsed s.path (parseFile s.file s.text).definitions.length) := by
  induction sources generalizing defs log with
  | nil => exact (traces_pure _).congr (by rw [List.flatMap_nil, List.append_nil]; rfl) rfl
  | cons s sources ih =>
    refine ((traces_trace _).bind (ih _ _)).congr ?_ rfl
    rw [List.flatMap_cons, List.flatMap_cons, reportAll_append, List.append_assoc]

section Compilation

variable {α : Type} (options : Options) (registry : Registry) (sources : List Source)

/-- The part has the result of the compilation and reports what that adds to its trace. -/
def Performs (x : Process CompileResult) (before : List TraceEvent) (c : Compilation) : Prop :=
  ∃ events, Traces x c.result events ∧ c.trace = before ++ events

theorem performs_fail (before : List TraceEvent) (log : Log) :
    Performs (pure (.error ⟨log.entries, registry⟩)) before
      (Compilation.fail before log registry) :=
  ⟨[], traces_pure _, (List.append_nil _).symm⟩

theorem Performs.after {x : Process CompileResult} {before events : List TraceEvent}
    {c : Compilation} (h : Performs x (before ++ events) c) {y : Process α} {a : α}
    {f : α → Process CompileResult} (hy : Traces y a events) (hf : f a = x) :
    Performs (y >>= f) before c := by
  obtain ⟨later, hx, htrace⟩ := h
  exact ⟨events ++ later, hy.bind (hf ▸ hx), by rw [htrace, List.append_assoc]⟩

theorem Performs.ite {c : Prop} [Decidable c] {x y : Process CompileResult}
    {before : List TraceEvent} {d e : Compilation} (hx : Performs x before d)
    (hy : Performs y before e) : Performs (if c then x else y) before (if c then d else e) := by
  split_ifs
  · exact hx
  · exact hy

theorem performs_generate (before : List TraceEvent) (log : Log) (rs : RuleSet) :
    Performs (generate options registry sources log rs) before
      (Compilation.generate options registry sources before log rs) := by
  refine .ite ⟨_, (traces_trace _).bind (traces_pure _), rfl⟩ ?_
  exact performs_fail registry before _

theorem performs_analyze (before : List TraceEvent) (log : Log) (defs : List Definition) :
    Performs (analyze options registry sources log defs) before
      (Compilation.analyze options registry sources before log defs) := by
  refine Performs.after ?_ (traces_trace _) rfl
  exact .ite (performs_generate options registry sources _ _ _) (performs_fail registry _ _)

theorem performs_compileSources :
    Performs (compileSources options registry sources) []
      (Compilation.ofSources options registry sources) := by
  rw [Compilation.ofSources]
  simp only [List.flatMap_map, List.map_map]
  refine Performs.after ?_ (traces_parse sources [] .empty) rfl
  exact .ite (performs_analyze options registry sources _ _ _) (performs_fail registry _ _)

theorem performs_compile (fs : FileSystem) (paths : List Bytes) :
    Performs (compile fs paths options) [] (Compilation.ofFiles fs options paths) := by
  refine .ite (performs_fail .empty [] _) ?_
  exact .ite (performs_compileSources options _ _) (performs_fail _ [] _)

end Compilation

theorem outcome_of_traces {fs : FileSystem} {a : Arguments} {files : List Bytes}
    {result : CompileResult} {events : List TraceEvent} (hfiles : a.files = .ok files)
    (h : Traces (compile fs files CommandLine.options) result events) (setting : Option Bytes) :
    outcome fs setting a =
      let o := CommandLine.outcomeOf result
      { o with
        err := (if setting.isSome then events.flatMap TraceEvent.line else []) ++ o.err } := by
  have hrun : ((main fs a).run setting).run ⟨[], []⟩ =
      ((finish result).run setting).run
        ⟨[], if setting.isSome then events.flatMap TraceEvent.line else []⟩ := by
    simp only [main, hfiles, ReaderT.run_bind, StateT.run_bind, h setting]
    cases setting <;> rfl
  rw [outcome, hrun]
  cases result with
  | error errors => rfl
  | ok code =>
    simp only [CommandLine.outcomeOf, List.append_nil]
    rfl

theorem outcome_eq (fs : FileSystem) (setting : Option Bytes) (a : Arguments) :
    outcome fs setting a = CommandLine.program fs setting.isSome a := by
  cases hfiles : a.files with
  | error usage =>
    simp only [outcome, main, CommandLine.program, CommandLine.run, hfiles]
    cases setting <;> rfl
  | ok files =>
    obtain ⟨events, hcompile, htrace⟩ := performs_compile CommandLine.options fs files
    rw [List.nil_append] at htrace
    have hprogram : CommandLine.run (CommandLine.compileFiles fs) a [] =
        (CommandLine.outcomeOf (Compilation.ofFiles fs CommandLine.options files).result,
          events) := by
      rw [← htrace, CommandLine.run, hfiles]
      rfl
    rw [outcome_of_traces hfiles hcompile setting]
    simp only [CommandLine.program, StateT.run, hprogram]
    cases setting <;> rfl

end Process

/-- Setting the trace variable, to whatever value, puts reports before what the program writes to
the error stream otherwise, and changes nothing else. -/
theorem CommandLine.outcome_traced (fs : FileSystem) (a : Arguments) (value : Bytes) :
    let traced := Process.outcome fs (some value) a
    let untraced := Process.outcome fs none a
    traced.status = untraced.status ∧ traced.out = untraced.out ∧
      (∃ reports : List Bytes, (∀ report ∈ reports, ascii "[isle] " <+: report) ∧
        traced.err = reports.flatten ++ untraced.err) ∧
      traced = program fs true a ∧ untraced = program fs false a := by
  intro traced untraced
  have htraced : traced = program fs true a := Process.outcome_eq fs (some value) a
  have huntraced : untraced = program fs false a := Process.outcome_eq fs none a
  refine ⟨?_, ?_, ?_, htraced, huntraced⟩
  · rw [htraced, huntraced]
    rfl
  · rw [htraced, huntraced]
    rfl
  · refine ⟨((run (compileFiles fs) a).run []).2.map TraceEvent.line, ?_, ?_⟩
    · intro report hreport
      obtain ⟨event, -, rfl⟩ := List.mem_map.1 hreport
      rw [TraceEvent.line, List.append_assoc]
      exact List.prefix_append _ _
    · rw [htraced, huntraced, ← List.flatMap_def]
      rfl

end TermRules

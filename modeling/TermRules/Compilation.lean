import TermRules.File.Source
import TermRules.Parse.File
import TermRules.RuleSet.Analysis
import TermRules.Zig.Module

/-!
# Compiling rule files

Compilation loads the files, parses them, analyses all definitions as one rule
set and generates code. A stage that reports an error is the last one, so all
errors of a failed compilation come from one stage. The trace tells how far a
compilation came.
-/

namespace TermRules

structure CompileErrors where
  diagnostics : List Diagnostic
  registry : Registry
deriving Repr

def CompileErrors.text (e : CompileErrors) : Bytes :=
  Diagnostic.renderAll e.registry.pathOf e.diagnostics

abbrev CompileResult := Except CompileErrors Bytes

inductive TraceEvent
  | parsed (path : Bytes) (definitions : Nat)
  | analyzed (types terms rules : Nat)
  | generated (size : Nat)
deriving DecidableEq, Repr

def TraceEvent.message : TraceEvent → Bytes
  | .parsed path definitions =>
      ascii "parsed " ++ path ++ ascii ": " ++ decimal definitions ++ ascii " definitions"
  | .analyzed types terms rules =>
      ascii "sema: " ++ decimal types ++ ascii " types, " ++ decimal terms ++ ascii " terms, " ++
        decimal rules ++ ascii " rules"
  | .generated size => ascii "emitted " ++ decimal size ++ ascii " bytes of zig"

def TraceEvent.line (e : TraceEvent) : Bytes :=
  ascii "[isle] " ++ e.message ++ [Byte.newline]

structure Compilation where
  trace : List TraceEvent
  result : CompileResult

inductive CompileFault
  | noInputFiles
  | unsupportedTarget
deriving DecidableEq, Repr

def CompileFault.message : CompileFault → Bytes
  | .noInputFiles => ascii "no input files"
  | .unsupportedTarget => ascii "unsupported code generation target"

def CompileFault.diagnostic (f : CompileFault) : Diagnostic :=
  Diagnostic.error .unknown f.message

namespace Compilation

def fail (trace : List TraceEvent) (log : Log) (registry : Registry) : Compilation :=
  ⟨trace, .error ⟨log.entries, registry⟩⟩

def generate (options : Options) (registry : Registry) (sources : List Source)
    (trace : List TraceEvent) (log : Log) (rs : RuleSet) : Compilation :=
  if options.target = .zig then
    let code := (Zig.Setting.mk rs options).moduleText (sources.map Source.path)
    ⟨trace ++ [.generated code.length], .ok code⟩
  else fail trace (log.report CompileFault.unsupportedTarget.diagnostic) registry

def analyze (options : Options) (registry : Registry) (sources : List Source)
    (trace : List TraceEvent) (log : Log) (defs : List Definition) : Compilation :=
  let (rs, errors) := RuleSet.empty.analyze defs
  let trace := trace ++ [.analyzed rs.types.size rs.terms.size rs.rules.size]
  let log := log.reportAll (errors.map SemanticError.diagnostic)
  if log.errorCount = 0 then generate options registry sources trace log rs
  else fail trace log registry

def ofSources (options : Options) (registry : Registry) (sources : List Source) : Compilation :=
  let files := sources.map fun s => (s.path, parseFile s.file s.text)
  let trace := files.map fun (path, file) => TraceEvent.parsed path file.definitions.length
  let log := Log.empty.reportAll (files.flatMap fun (_, file) => file.diagnostics)
  if log.errorCount = 0 then
    analyze options registry sources trace log (files.flatMap fun (_, file) => file.definitions)
  else fail trace log registry

def loadErrors (loaded : List (Except Diagnostic Source)) : List Diagnostic :=
  loaded.filterMap fun
    | .ok _ => none
    | .error d => some d

/-- Compiles the files at the paths, in order, as one rule set. -/
def ofFiles (fs : FileSystem) (options : Options) (paths : List Bytes) : Compilation :=
  if paths = [] then fail [] (Log.empty.report CompileFault.noInputFiles.diagnostic) .empty
  else
    let (loaded, registry) := Source.loadAll fs .empty paths
    let log := Log.empty.reportAll (loadErrors loaded)
    if log.errorCount = 0 then ofSources options registry (loaded.filterMap Except.toOption)
    else fail [] log registry

/-- Compiles a text that stands for the file at a path. -/
def ofText (options : Options) (path text : Bytes) : Compilation :=
  let (file, registry) := Registry.empty.register path
  if file = 0 then
    fail [] (Log.empty.report (LoadFault.numbersExhausted.diagnostic 0)) registry
  else ofSources options registry [⟨file, path, text⟩]

end Compilation

end TermRules

import TermRules.CommandLine
import TermRules.Proofs.Stages

/-!
# Invocations

A run is a function of the argument vector and of what the compiler answers. It
asks the compiler at most once, with the files in the order of the vector, and
one of its two streams stays empty. The compilation of files never fails without
a text.
-/

namespace TermRules

namespace Arguments

section Vector

variable (count : Int) (vector : Option (List (Option Bytes)))

def vectorSize : Nat := min count.toNat (vector.elim 0 List.length)

/-- The entry at a position. It is empty when it is missing, or when the vector has no such
position. -/
def vectorEntry (i : Nat) : Bytes :=
  if i < vectorSize count vector then (vector.bind fun entries => entries[i]?.join).getD []
  else []

theorem size_ofVector : (ofVector count vector).size = vectorSize count vector := by
  rw [size, ofVector, List.length_map, List.length_take, vectorSize]
  cases vector <;> rfl

theorem get_ofVector (i : Nat) : (ofVector count vector).get i = vectorEntry count vector i := by
  rw [vectorEntry, ← size_ofVector]
  split_ifs with h
  · rw [size, ofVector, List.length_map, List.length_take] at h
    rw [get, ofVector, List.getElem?_map, List.getElem?_take_of_lt (by omega)]
    cases vector with
    | none => rfl
    | some entries =>
      rw [Option.getD_some, Option.bind_some]
      cases entries[i]? <;> rfl
  · rw [get, List.getElem?_eq_none (Nat.le_of_not_lt h)]
    rfl

end Vector

theorem entries_operands (a : Arguments) :
    a.operands.entries = (List.range' 1 (a.size - 1)).map a.get := by
  apply List.ext_getElem
  · rw [List.length_map, List.length_range', operands, List.length_tail, size]
  · intro i hi _
    rw [operands, List.length_tail] at hi
    have hlt : 1 + i < a.entries.length := by omega
    rw [List.getElem_map, List.getElem_range', Nat.one_mul, get, List.getElem?_eq_getElem hlt,
      Option.getD_some]
    simp only [operands, List.getElem_tail, Nat.add_comm]

theorem files_eq (a : Arguments) :
    a.files = if a.size < 2 then .error (Diagnostic.error .unknown a.usage)
      else .ok ((List.range' 1 (a.size - 1)).map a.get) := by
  rw [files, entries_operands]
  refine if_congr ?_ rfl rfl
  rw [isEmpty, List.isEmpty_iff_length_eq_zero, operands, List.length_tail, size]
  omega

end Arguments

namespace CommandLine

section Calls

variable {m : Type → Type u} [Monad m]

/-- The compiler with a record of the calls that it gets. -/
def recorded (compile : List Bytes → Options → m CompileResult) (files : List Bytes)
    (options : Options) : StateT (List (List Bytes × Options)) m CompileResult := do
  modify (· ++ [(files, options)])
  compile files options

theorem run_recorded [LawfulMonad m] (compile : List Bytes → Options → m CompileResult)
    (a : Arguments) :
    (run (recorded compile) a).run [] =
      match a.files with
      | .error d => pure (⟨1, [], d.message ++ [Byte.newline]⟩, [])
      | .ok files => do
          let result ← compile files options
          return (outcomeOf result, [(files, options)]) := by
  rw [run]
  cases a.files with
  | error d => rfl
  | ok files => simp [recorded]

end Calls

theorem text_ne_nil {e : CompileErrors} (h : e.diagnostics ≠ []) : e.text ≠ [] := by
  obtain ⟨d, ds, hds⟩ := List.exists_cons_of_ne_nil h
  rw [CompileErrors.text, Diagnostic.renderAll, hds, List.flatMap_cons, Diagnostic.render]
  simp

theorem diagnostics_ne_nil {fs : FileSystem} {options : Options} {paths : List Bytes}
    {e : CompileErrors} (h : (Compilation.ofFiles fs options paths).result = .error e) :
    e.diagnostics ≠ [] := by
  rcases Compilation.code_or_endsAt fs options paths with
    ⟨⟨code, hcode⟩, -⟩ | ⟨stage, ⟨registry, herror⟩, hfound, -⟩
  · cases h.symm.trans hcode
  · cases h.symm.trans herror
    exact hfound

/-- With fewer than two entries a run writes the usage and does not call the compiler. Otherwise it
calls it once, for all entries but the first and with the same options as always, and writes the
code to one stream or all diagnostics to the other. Keeping the record does not change the run, and
what the compiler of files failed with always has a text. -/
theorem run_ofVector {m : Type → Type u} [Monad m] [LawfulMonad m]
    (compile : List Bytes → Options → m CompileResult) (count : Int)
    (vector : Option (List (Option Bytes))) :
    let a := Arguments.ofVector count vector
    let size := Arguments.vectorSize count vector
    let entry := Arguments.vectorEntry count vector
    let files := (List.range' 1 (size - 1)).map entry
    ((run (recorded compile) a).run [] =
        if size < 2 then
          pure (⟨1, [], ascii "Usage: " ++ entry 0 ++ ascii " <input.isle> [<input2.isle> ...]" ++
            [Byte.newline]⟩, [])
        else do
          match ← compile files options with
          | .ok code => pure (⟨0, code ++ [Byte.newline], []⟩, [(files, options)])
          | .error e =>
              pure (⟨1, [], ascii "ISLE compilation failed:" ++ [Byte.newline] ++
                (e.diagnostics.map (Diagnostic.render e.registry.pathOf)).flatten⟩,
                [(files, options)])) ∧
      Prod.fst <$> (run (recorded compile) a).run [] = run compile a ∧
      ∀ fs paths options trace e trace',
        (compileFiles fs paths options).run trace = (.error e, trace') → e.text ≠ [] := by
  intro a size entry files
  have hentry : a.get = entry := funext (Arguments.get_ofVector count vector)
  have hfiles : a.files = if size < 2 then .error (Diagnostic.error .unknown a.usage)
      else .ok files := by
    rw [Arguments.files_eq, Arguments.size_ofVector, hentry]
  refine ⟨?_, ?_, fun fs paths options trace e trace' h => ?_⟩
  · rw [run_recorded, hfiles]
    split_ifs
    · have husage : a.usage =
          ascii "Usage: " ++ entry 0 ++ ascii " <input.isle> [<input2.isle> ...]" := by
        rw [Arguments.usage, Arguments.program, hentry]
      rw [← husage]
      rfl
    · refine bind_congr fun result => ?_
      cases result with
      | ok code => rfl
      | error e =>
        dsimp only [outcomeOf]
        rw [CompileErrors.text, Diagnostic.renderAll, List.flatMap_def, List.append_assoc,
          List.singleton_append]
        rfl
  · rw [run_recorded, run]
    cases a.files with
    | error d => exact map_pure _ _
    | ok files => simp only [map_bind, map_pure]
  · have hresult : (Compilation.ofFiles fs options paths).result = .error e := congrArg Prod.fst h
    exact text_ne_nil (diagnostics_ne_nil hresult)

def missingFirst : Option (List (Option Bytes)) :=
  some [some (ascii "islec"), none, some (ascii "a.isle"), none]

/-- The compiler is called once, for two files, the first of which has no name. -/
theorem run_ofVector_missingFirst :
    let compile : List Bytes → Options → Id CompileResult := fun files _ =>
      if [] ∈ files then .error ⟨[CompileFault.noInputFiles.diagnostic], .empty⟩ else .ok []
    (run (recorded compile) (.ofVector 3 missingFirst)).run [] =
      (⟨1, [], ascii "ISLE compilation failed:\nerror: no input files\n"⟩,
        [([[], ascii "a.isle"], options)]) := by
  intro compile
  exact (run_ofVector compile 3 missingFirst).1.trans rfl

end CommandLine

end TermRules

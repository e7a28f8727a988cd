import TermRules.Proofs.Places
import TermRules.Proofs.Partition
import TermRules.Proofs.Stages

/-!
# Reported positions

Every token of a file and every lexical error stands at an offset of the text,
and so does the end of the file. A syntax error is at one of these, since an error
at any other place would not move along with the tokens. An analysis reports at
places of definitions, which are places of tokens. So every error has a file that
was loaded and a line and a column in it, and its line of the report starts with
these and the normal path of the file.
-/

namespace TermRules

/-- The place is that of an offset of the text, the end of the text included. -/
def Loc.InText (loc : Loc) (file : UInt32) (text : Bytes) : Prop :=
  ∃ offset ≤ text.length, loc.Behind file (text.take offset)

theorem Loc.inText_of_prefix {loc : Loc} {file : UInt32} {text before : Bytes}
    (hbefore : before <+: text) (h : loc.Behind file before) : loc.InText file text :=
  ⟨before.length, hbefore.length_le, by rwa [← List.prefix_iff_eq_take.mp hbefore]⟩

theorem Loc.InText.pos {loc : Loc} {file : UInt32} {text : Bytes} (h : loc.InText file text) :
    loc.file = file ∧ 1 ≤ loc.line.toNat ∧ 1 ≤ loc.column.toNat := by
  obtain ⟨offset, -, hbehind⟩ := h
  rw [hbehind.line, hbehind.column]
  exact ⟨hbehind.file, Nat.le_add_right 1 _, Nat.le_add_right 1 _⟩

section Text

variable {file : UInt32} {text : Bytes} (htext : text.length + 1 < UInt32.size)
include htext

theorem PlacedPiece.inText {p : PlacedPiece} (hp : p ∈ place (Loc.start file) (pieces text)) :
    p.loc.InText file text := by
  obtain ⟨before, after, hps⟩ := List.append_of_mem hp
  refine Loc.inText_of_prefix ?_ (Reader.loc_behind (by omega) hps)
  have hpieces := map_piece_place (Loc.start file) (pieces text)
  rw [hps, List.map_append] at hpieces
  rw [← pieces_text text, ← hpieces, List.flatMap_append, List.flatMap_map]
  exact List.prefix_append _ _

theorem Scan.inText_tokens {t : Token} (ht : t ∈ (ofSource file text).tokens) :
    t.loc.InText file text := by
  rw [ofSource, tokens_ofPieces] at ht
  obtain ⟨p, hp, htoken⟩ := List.mem_filterMap.mp ht
  obtain ⟨lexeme, -, rfl⟩ := Option.map_eq_some_iff.mp htoken
  exact PlacedPiece.inText htext hp

theorem Scan.inText_diagnostics {d : Diagnostic} (hd : d ∈ (ofSource file text).diagnostics) :
    d.loc.InText file text := by
  rw [ofSource, diagnostics_ofPieces] at hd
  obtain ⟨p, hp, hfault⟩ := List.mem_flatMap.mp hd
  obtain ⟨fault, -, rfl⟩ := Option.map_eq_some_iff.mp (Option.mem_toList.mp hfault)
  exact PlacedPiece.inText htext hp

theorem Scan.inText_endLoc : (ofSource file text).endLoc.InText file text := by
  have hend : (ofSource file text).endLoc = (Loc.start file).after text := by
    rw [ofSource]
    induction PlacedPiece.place (Loc.start file) (pieces text) with
    | nil => rfl
    | cons p ps ih =>
      have hcons : ofPieces ((Loc.start file).after text) (p :: ps) =
        (ofPieces ((Loc.start file).after text) ps).cons p := rfl
      rw [hcons, cons]
      cases p.token? with
      | some t => exact ih
      | none =>
        rw [prepend]
        cases (ofPieces ((Loc.start file).after text) ps).readings <;> exact ih
  rw [hend]
  exact Loc.inText_of_prefix (List.prefix_refl text) (Loc.after_start_behind file htext)

end Text

namespace Parse

theorem loc_of_error {ts : List Token} {endLoc : Loc} {e : SyntaxError}
    (he : .error e ∈ outcomes ts endLoc) : e.loc ∈ endLoc :: ts.map Token.loc := by
  by_contra hloc
  -- Moves every other place, so that the tokens stay and the error would not.
  let move (loc : Loc) : Loc :=
    if loc ∈ endLoc :: ts.map Token.loc then loc else { loc with file := loc.file + 1 }
  have htokens : ts.map (Token.relocate move) = ts := by
    have hsame : ∀ t ∈ ts, t.relocate move = id t := by
      intro t ht
      have hmem : t.loc ∈ endLoc :: ts.map Token.loc :=
        List.mem_cons_of_mem endLoc (List.mem_map_of_mem ht)
      rw [Token.relocate, show move t.loc = t.loc from if_pos hmem]
      rfl
    rw [List.map_congr_left hsame, List.map_id]
  have hmoved := outcomes_relocate move ts endLoc
  rw [htokens, show move endLoc = endLoc from if_pos List.mem_cons_self] at hmoved
  have hfixed : Outcome.relocate move (.error e) = .error e :=
    List.map_inj_left.mp (hmoved.symm.trans (List.map_id _).symm) _ he
  have hfile : move e.loc = e.loc := congrArg SyntaxError.loc (Except.error.inj hfixed)
  rw [show move e.loc = { e.loc with file := e.loc.file + 1 } from if_neg hloc] at hfile
  have hsucc : e.loc.file + 1 = e.loc.file := congrArg Loc.file hfile
  simp at hsucc

theorem mem_outcomes_of_mem_failures {file : UInt32} {text : Bytes} {f : SyntaxFailure}
    (hf : f ∈ (parseFile file text).failures) :
    let scan := Scan.ofSource file text
    .error f.error ∈ outcomes scan.tokens scan.endLoc := by
  intro scan
  obtain ⟨r, hr, hf⟩ := List.mem_filterMap.mp hf
  cases r with
  | ok d => cases hf
  | error g =>
    cases hf
    exact List.mem_map_of_mem hr

theorem exists_item_of_mem_definitions {file : UInt32} {text : Bytes} {d : Definition}
    (hd : d ∈ (parseFile file text).definitions) :
    ∃ i ∈ cut (Scan.ofSource file text).tokens,
      i.outcome (Scan.ofSource file text).endLoc = .ok d := by
  let scan := Scan.ofSource file text
  have hdefinitions : (parseFile file text).definitions =
      (outcomes scan.tokens scan.endLoc).filterMap Except.toOption := definitionsOf_eq _
  rw [hdefinitions, outcomes_eq] at hd
  obtain ⟨o, ho, hok⟩ := List.mem_filterMap.mp hd
  obtain ⟨i, hi, rfl⟩ := List.mem_map.mp ho
  refine ⟨i, hi, ?_⟩
  cases hout : i.outcome scan.endLoc with
  | ok d' =>
    rw [hout] at hok
    cases hok
    rfl
  | error e =>
    rw [hout] at hok
    cases hok

theorem Item.run_of_outcome {i : Item} {endLoc : Loc} {d : Definition}
    (h : i.outcome endLoc = .ok d) :
    ∃ c', definition.run (.ofTokens i.tokens endLoc) = .ok d c' := by
  by_cases hkind : (Cursor.ofTokens i.tokens endLoc).kind = .lparen
  · rw [Item.outcome, item_lparen hkind] at h
    cases hrun : definition.run (.ofTokens i.tokens endLoc) with
    | ok d' c' =>
      rw [hrun] at h
      cases h
      exact ⟨c', rfl⟩
    | error e c' =>
      rw [hrun] at h
      cases h
  · rw [Item.outcome, item, if_neg hkind] at h
    cases h

/-- A definition is read from consecutive tokens of its file. -/
theorem exists_spans {file : UInt32} {text : Bytes} {d : Definition}
    (hd : d ∈ (parseFile file text).definitions) :
    ∃ ts, ts <:+: (Scan.ofSource file text).tokens ∧ d.Spans ts := by
  obtain ⟨i, hi, hout⟩ := exists_item_of_mem_definitions hd
  have htokens : i.tokens <:+: (Scan.ofSource file text).tokens := by
    rw [← flatMap_tokens_cut (Scan.ofSource file text).tokens]
    exact List.infix_of_mem_flatten (List.mem_map_of_mem hi)
  obtain ⟨c', hrun⟩ := i.run_of_outcome hout
  obtain ⟨ts, hts, hspans⟩ := covers_definition _ d c' hrun
  refine ⟨ts, List.IsInfix.trans ?_ htokens, hspans⟩
  exact ⟨[], c'.tokens, by rw [List.nil_append]; exact hts.symm⟩

end Parse

theorem Mixes.mem {α : Type} {as bs cs : List α} (h : Mixes as bs cs) {c : α} (hc : c ∈ cs) :
    c ∈ as ∨ c ∈ bs := by
  induction h with
  | nil => cases hc
  | left a _ ih =>
    rcases List.mem_cons.mp hc with rfl | hc
    · exact .inl List.mem_cons_self
    · exact (ih hc).imp_left (List.mem_cons_of_mem a)
  | right b _ ih =>
    rcases List.mem_cons.mp hc with rfl | hc
    · exact .inr List.mem_cons_self
    · exact (ih hc).imp_right (List.mem_cons_of_mem b)

theorem inText_parseFile {file : UInt32} {text : Bytes} (htext : text.length + 1 < UInt32.size)
    {d : Diagnostic} (hd : d ∈ (parseFile file text).diagnostics) : d.loc.InText file text := by
  rcases (mixes_parseFile file text).mem hd with hd | hd
  · exact Scan.inText_diagnostics htext hd
  · obtain ⟨f, hf, rfl⟩ := List.mem_map.mp hd
    have hloc := Parse.loc_of_error (Parse.mem_outcomes_of_mem_failures hf)
    change f.error.loc.InText file text
    rcases List.mem_cons.mp hloc with hloc | hloc
    · rw [hloc]
      exact Scan.inText_endLoc htext
    · obtain ⟨t, ht, hloc⟩ := List.mem_map.mp hloc
      rw [← hloc]
      exact Scan.inText_tokens htext ht

def Diagnostic.line (path : Bytes) (d : Diagnostic) : Bytes :=
  path ++ ascii ":" ++ decimal d.loc.line.toNat ++ ascii ":" ++ decimal d.loc.column.toNat ++
    ascii ": error: " ++ d.message ++ [Byte.newline]

theorem Diagnostic.render_eq_line {pathOf : UInt32 → Bytes} {d : Diagnostic}
    (hpath : pathOf d.loc.file ≠ []) (hline : 1 ≤ d.loc.line.toNat)
    (hcolumn : 1 ≤ d.loc.column.toNat) (hseverity : d.severity = .error) :
    d.render pathOf = d.line (pathOf d.loc.file) := by
  have hnonzero : ∀ {n : UInt32}, 1 ≤ n.toNat → n ≠ 0 := by
    rintro n hn rfl
    cases hn
  have hpath' : ¬(pathOf d.loc.file).isEmpty = true := mt List.isEmpty_iff.mp hpath
  rw [render, renderPlace, if_neg hpath', if_neg (hnonzero hline), if_neg (hnonzero hcolumn),
    hseverity, line]
  simp [Severity.name, ascii]

namespace Compilation

section Files

variable {fs : FileSystem} {options : Options} {paths : List Bytes}

theorem source_of_mem {s : Source} (hs : s ∈ sources fs paths) :
    (Registry.empty.registerAll paths).idOf? (Path.normal s.path) = some s.file ∧
      s.text.length ≤ Source.sizeLimit ∧ fs s.path ≠ none := by
  obtain ⟨o, ho, hok⟩ := List.mem_filterMap.mp hs
  obtain ⟨path, -, rfl⟩ := List.mem_map.mp ho
  rw [Source.outcome] at hok
  cases hid : (Registry.empty.registerAll paths).idOf? (Path.normal path) with
  | none =>
    rw [hid] at hok
    cases hok
  | some file =>
    cases hread : Source.read fs path with
    | error fault =>
      rw [hid, hread] at hok
      cases hok
    | ok text =>
      rw [hid, hread] at hok
      cases hok
      obtain ⟨opened, hopened, hloadable, rfl⟩ := Source.read_eq_ok_iff.mp hread
      refine ⟨hid, ?_, by rw [hopened]; exact Option.some_ne_none opened⟩
      exact (Source.length_of_read hloadable).trans_le hloadable.size_le

theorem lt_size_of_mem {s : Source} (hs : s ∈ sources fs paths) :
    s.text.length + 1 < UInt32.size := by
  have hlength := (source_of_mem hs).2.1
  rw [Source.sizeLimit] at hlength
  rw [UInt32.size]
  omega

theorem pathOf_of_mem {s : Source} (hs : s ∈ sources fs paths) :
    (Registry.empty.registerAll paths).pathOf s.file = Path.normal s.path :=
  (Registry.numbered_registerAll paths).pathOf (source_of_mem hs).1

theorem exists_token {srcs : List Source} {loc : Loc}
    (h : loc ∈ Definition.allPlaces (definitionsIn srcs)) :
    ∃ s ∈ srcs, ∃ t ∈ (Scan.ofSource s.file s.text).tokens, t.loc = loc := by
  obtain ⟨d, hd, hloc⟩ := List.mem_flatMap.mp h
  obtain ⟨s, hs, hd⟩ := List.mem_flatMap.mp hd
  obtain ⟨ts, hinfix, hspans⟩ := Parse.exists_spans hd
  obtain ⟨t, ht, rfl⟩ := List.mem_map.mp (hspans.places hloc)
  exact ⟨s, hs, t, hinfix.subset ht, rfl⟩

theorem inText_found {stage : Stage} (hstage : stage = .parsing ∨ stage = .analysis)
    {d : Diagnostic} (hd : d ∈ found fs options paths stage) :
    ∃ s ∈ sources fs paths, d.loc.InText s.file s.text := by
  rcases hstage with rfl | rfl
  · obtain ⟨s, hs, hd⟩ := List.mem_flatMap.mp hd
    exact ⟨s, hs, inText_parseFile (lt_size_of_mem hs) hd⟩
  · obtain ⟨e, he, rfl⟩ := List.mem_map.mp hd
    obtain ⟨s, hs, t, ht, hloc⟩ := exists_token ((RuleSet.analyze_places _).1 e he)
    refine ⟨s, hs, ?_⟩
    change e.loc.InText s.file s.text
    rw [← hloc]
    exact Scan.inText_tokens (lt_size_of_mem hs) ht

theorem error_cases (hload : found fs options paths .loading = []) {e : CompileErrors}
    (he : (ofFiles fs options paths).result = .error e) :
    e.diagnostics = [CompileFault.noInputFiles.diagnostic] ∨
      e.diagnostics = [CompileFault.unsupportedTarget.diagnostic] ∨
      ∃ stage, (stage = .parsing ∨ stage = .analysis) ∧
        e = ⟨found fs options paths stage, Registry.empty.registerAll paths⟩ := by
  have hfail : ∀ {trace : List TraceEvent} {stage : Stage} {registry : Registry},
      (fail trace (Log.empty.reportAll (found fs options paths stage)) registry).result =
        .error e → e = ⟨found fs options paths stage, registry⟩ := by
    intro trace stage registry h
    rw [fail, Log.entries_reportAll] at h
    exact (Except.error.inj h).symm
  by_cases hpaths : paths = []
  · rw [ofFiles_eq_arguments hpaths] at he
    refine .inl ?_
    rw [hfail he]
    exact if_pos hpaths
  rw [ofFiles_eq_loading hpaths, if_pos hload, ofSources_eq_parsing] at he
  by_cases hparsing : found fs options paths .parsing = []
  case neg =>
    rw [if_neg hparsing] at he
    exact .inr (.inr ⟨.parsing, .inl rfl, hfail he⟩)
  rw [if_pos hparsing, analyze_eq_analysis] at he
  by_cases hanalysis : found fs options paths .analysis = []
  case neg =>
    rw [if_neg hanalysis] at he
    exact .inr (.inr ⟨.analysis, .inr rfl, hfail he⟩)
  rw [if_pos hanalysis, generate_eq_generation] at he
  by_cases hgeneration : found fs options paths .generation = []
  · rw [if_pos hgeneration] at he
    cases he
  · rw [if_neg hgeneration] at he
    refine .inr (.inl ?_)
    rw [hfail he]
    exact if_neg fun htarget => hgeneration (if_pos htarget)

theorem text_of_found (hfs : fs [] = none) {stage : Stage}
    (hstage : stage = .parsing ∨ stage = .analysis) :
    let e : CompileErrors :=
      ⟨found fs options paths stage, Registry.empty.registerAll paths⟩
    e.text = e.diagnostics.flatMap fun d => d.line (e.registry.pathOf d.loc.file) := by
  intro e
  rw [CompileErrors.text, Diagnostic.renderAll]
  refine List.flatMap_congr fun d hd => ?_
  obtain ⟨s, hs, hin⟩ := inText_found hstage hd
  obtain ⟨hfile, hline, hcolumn⟩ := hin.pos
  refine Diagnostic.render_eq_line ?_ hline hcolumn (severity_found stage d hd)
  rw [hfile, pathOf_of_mem hs]
  refine Path.normal_ne_nil fun hnil => ?_
  exact (source_of_mem hs).2.2 (hnil ▸ hfs)

end Files

/-- Every error of files that all load stands at an offset of the text of one of them, and its line
of the report starts with the normal path of the file, the line and the column; the empty path names
no file. Each definition is read from consecutive tokens, and every part of it has the place of the
first of its own. Patterns made of templates, and so all parts of checked rules, have such places as
well. -/
theorem ofFiles_positions {fs : FileSystem} (hfs : fs [] = none) (options : Options)
    {paths : List Bytes} (hload : found fs options paths .loading = []) :
    let files := sources fs paths
    let written := Definition.allPlaces (definitionsIn files)
    (∀ e, (ofFiles fs options paths).result = .error e →
      e.diagnostics = [CompileFault.noInputFiles.diagnostic] ∨
      e.diagnostics = [CompileFault.unsupportedTarget.diagnostic] ∨
      ∃ stage, (stage = .parsing ∨ stage = .analysis) ∧
        e.diagnostics = found fs options paths stage ∧
        e.text = (e.diagnostics.flatMap fun d => d.line (e.registry.pathOf d.loc.file)) ∧
        ∀ s ∈ files, e.registry.pathOf s.file = Path.normal s.path) ∧
    (∀ stage, stage = .parsing ∨ stage = .analysis → ∀ d ∈ found fs options paths stage,
      ∃ s ∈ files, d.loc.file = s.file ∧ 1 ≤ d.loc.line.toNat ∧ 1 ≤ d.loc.column.toNat ∧
        d.loc.InText s.file s.text) ∧
    (∀ s ∈ files, ∀ d ∈ (parseFile s.file s.text).definitions,
      ∃ ts, ts <:+: (Scan.ofSource s.file s.text).tokens ∧ d.Spans ts) ∧
    (∀ loc ∈ written, ∃ s ∈ files, ∃ t ∈ (Scan.ofSource s.file s.text).tokens, t.loc = loc) ∧
    (∀ t args, .template t ∈ definitionsIn files → (∀ a ∈ args, a.places ⊆ written) →
      (t.instantiate args).places ⊆ written) ∧
    ∀ r ∈ (analysisOf fs paths).1.rules, r.places ⊆ written := by
  intro files written
  refine ⟨fun e he => ?_, fun stage hstage d hd => ?_, fun s _ d hd => Parse.exists_spans hd,
    fun loc hloc => exists_token hloc, fun t args ht hargs => ?_, (RuleSet.analyze_places _).2⟩
  · rcases error_cases hload he with hnone | htarget | ⟨stage, hstage, rfl⟩
    · exact .inl hnone
    · exact .inr (.inl htarget)
    · exact .inr (.inr ⟨stage, hstage, rfl, text_of_found hfs hstage,
        fun s hs => pathOf_of_mem hs⟩)
  · obtain ⟨s, hs, hin⟩ := inText_found hstage hd
    obtain ⟨hfile, hline, hcolumn⟩ := hin.pos
    exact ⟨s, hs, hfile, hline, hcolumn, hin⟩
  · have hplaces : t.places ⊆ written := Job.places_template (List.mem_filterMap.mpr ⟨_, ht, rfl⟩)
    exact Template.places_instantiate hplaces hargs

def undeclaredFile : FileSystem := fun path =>
  if path = [] then none
  else some (FileData.bytes (ascii "(type u32 (primitive u32))\n(decl f (x) u32)")).opened

theorem ofFiles_positions_undeclaredFile :
    let paths := [ascii "rules/../f.isle"]
    undeclaredFile [] = none ∧ found undeclaredFile .standard paths .loading = [] ∧
      ∃ e, (ofFiles undeclaredFile .standard paths).result = .error e ∧
        e.text = ascii "f.isle:2:10: error: undefined type 'x'\n" ∧
        e.text = e.diagnostics.flatMap fun d => d.line (e.registry.pathOf d.loc.file) := by
  intro paths
  have hload : found undeclaredFile .standard paths .loading = [] := by decide +kernel
  have hnone : undeclaredFile [] = none := rfl
  obtain ⟨hreport, -⟩ := ofFiles_positions hnone .standard hload
  refine ⟨hnone, hload, ?_⟩
  have htext : (match (ofFiles undeclaredFile .standard paths).result with
      | .error e => (e.diagnostics.map (·.loc.line), e.text)
      | .ok _ => ([], [])) = ([2], ascii "f.isle:2:10: error: undefined type 'x'\n") := by
    decide +kernel
  cases hresult : (ofFiles undeclaredFile .standard paths).result with
  | ok code =>
    rw [hresult] at htext
    cases congrArg (·.1) htext
  | error e =>
    rw [hresult] at htext
    obtain ⟨hlines, htext⟩ := Prod.mk.inj htext
    refine ⟨e, rfl, htext, ?_⟩
    rcases hreport e hresult with hinput | htarget | ⟨stage, -, -, hlines', -⟩
    · rw [hinput] at hlines
      cases hlines
    · rw [htarget] at hlines
      cases hlines
    · exact hlines'

end Compilation

end TermRules

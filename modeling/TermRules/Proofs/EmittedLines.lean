import TermRules.Proofs.ClosedModules
import TermRules.Proofs.Identifiers
import TermRules.Proofs.JoinedFiles
import TermRules.Proofs.Literals
import TermRules.Proofs.Symbols

/-!
# Comments and messages of generated code

Texts of the input go into three places of generated code: paths into comments of
the header, spellings and rule names into comments of the context and of the
blocks, and term names into the messages of functions that no rule may match.
None is escaped. What is read from a rule file contains no newline, so that all
of its comments are single lines. A path may contain anything, and so may a term
name, but for blanks and delimiters.
-/

namespace TermRules

/-- The lines of a text, without the newlines that end them. -/
def lines : Bytes → List Bytes
  | [] => []
  | b :: t =>
      if b = Byte.newline then [] :: lines t
      else
        match lines t with
        | [] => [[b]]
        | l :: ls => (b :: l) :: ls

def OneLine (text : Bytes) : Prop := Byte.newline ∉ text

instance (text : Bytes) : Decidable (OneLine text) := inferInstanceAs (Decidable (_ ∉ _))

def IsComment (line : Bytes) : Prop := ascii "//" <+: line

instance (line : Bytes) : Decidable (IsComment line) := inferInstanceAs (Decidable (_ <+: _))

def Ended (text : Bytes) : Prop := text = [] ∨ ∃ t, text = t ++ [Byte.newline]

theorem OneLine.append {t u : Bytes} (ht : OneLine t) (hu : OneLine u) : OneLine (t ++ u) :=
  fun hmem => (List.mem_append.mp hmem).elim ht hu

theorem lines_cons {b : UInt8} {t l : Bytes} {ls : List Bytes} (hb : b ≠ Byte.newline)
    (h : lines t = l :: ls) : lines (b :: t) = (b :: l) :: ls := by
  rw [lines, if_neg hb, h]

theorem OneLine.lines_append {t u l : Bytes} {ls : List Bytes} (ht : OneLine t)
    (hu : lines u = l :: ls) : lines (t ++ u) = (t ++ l) :: ls := by
  induction t with
  | nil => exact hu
  | cons b t ih =>
    rw [OneLine, List.mem_cons, not_or] at ht
    exact lines_cons (Ne.symm ht.1) (ih ht.2)

theorem lines_ended_ne_nil (t : Bytes) : lines (t ++ [Byte.newline]) ≠ [] := by
  cases t with
  | nil => exact List.cons_ne_nil _ _
  | cons b t =>
    rw [List.cons_append, lines]
    split_ifs
    · exact List.cons_ne_nil _ _
    · cases lines (t ++ [Byte.newline]) <;> exact List.cons_ne_nil _ _

theorem lines_append_newline (t u : Bytes) :
    lines (t ++ Byte.newline :: u) = lines (t ++ [Byte.newline]) ++ lines u := by
  induction t with
  | nil => rfl
  | cons b t ih =>
    by_cases hb : b = Byte.newline
    · rw [List.cons_append, List.cons_append, lines, if_pos hb, lines, if_pos hb, ih,
        List.cons_append]
    · -- The newline in front of `u` makes sure that `b` has a first line to stand in.
      obtain ⟨l, ls, hl⟩ := List.exists_cons_of_ne_nil (lines_ended_ne_nil t)
      rw [hl, List.cons_append] at ih
      rw [List.cons_append, List.cons_append, lines_cons hb ih, lines_cons hb hl,
        List.cons_append]

theorem Ended.lines_append {t : Bytes} (h : Ended t) (u : Bytes) :
    lines (t ++ u) = lines t ++ lines u := by
  rcases h with rfl | ⟨t, rfl⟩
  · rfl
  · rw [List.append_assoc]
    exact lines_append_newline t u

theorem Ended.append {t u : Bytes} (ht : Ended t) (hu : Ended u) : Ended (t ++ u) := by
  rcases hu with rfl | ⟨u, rfl⟩
  · rwa [List.append_nil]
  · exact .inr ⟨t ++ u, (List.append_assoc t u _).symm⟩

section Lists

variable {α : Type} {f : α → Bytes} {as : List α}

theorem ended_flatMap (h : ∀ a ∈ as, Ended (f a)) : Ended (as.flatMap f) := by
  induction as with
  | nil => exact .inl rfl
  | cons a as ih =>
    obtain ⟨ha, has⟩ := List.forall_mem_cons.mp h
    exact ha.append (ih has)

theorem lines_flatMap (h : ∀ a ∈ as, Ended (f a)) :
    lines (as.flatMap f) = as.flatMap fun a => lines (f a) := by
  induction as with
  | nil => rfl
  | cons a as ih =>
    obtain ⟨ha, has⟩ := List.forall_mem_cons.mp h
    rw [List.flatMap_cons, List.flatMap_cons, ha.lines_append, ih has]

theorem forall_takeWhile_flatMap_cons {β : Type} {P : β → Prop} {q : β → Bool} {first : α → β}
    {others : α → List β} (hfirst : ∀ a, q (first a) = true ∧ P (first a)) {stop : β}
    (hstop : q stop = false) (rest : List β) :
    (∀ b ∈ (as.flatMap (fun a => first a :: others a) ++ stop :: rest).takeWhile q, P b) ↔
      ∀ b ∈ (as.flatMap others).takeWhile q, P b := by
  induction as with
  | nil => simp [hstop]
  | cons a as ih =>
    have htake : ∀ bs, (others a ++ bs).takeWhile q =
        if ((others a).takeWhile q).length = (others a).length then others a ++ bs.takeWhile q
        else (others a).takeWhile q := fun _ => List.takeWhile_append
    rw [List.flatMap_cons, List.flatMap_cons, List.append_assoc, List.cons_append,
      List.takeWhile_cons_of_pos (hfirst a).1, List.forall_mem_cons, and_iff_right (hfirst a).2,
      htake, htake]
    split_ifs
    · rw [List.forall_mem_append, List.forall_mem_append, ih]
    · -- One of the others stops both lists, before anything that differs.
      rfl

end Lists

namespace Zig

theorem oneLine_identifier (name : Bytes) : OneLine (identifier name) := by
  have hclean : OneLine (sanitize name) := by
    intro hmem
    exact absurd (forall_mem_sanitize name _ hmem) (by unfold IsIdentifierByte; decide)
  unfold identifier
  dsimp only
  split_ifs
  · exact (OneLine.append (by decide) hclean).append (by decide)
  · exact hclean

theorem oneLine_commaSeparated {texts : List Bytes} (h : ∀ t ∈ texts, OneLine t) :
    OneLine (commaSeparated texts) := by
  rw [commaSeparated]
  fun_induction joinWith (ascii ", ") texts with
  | case1 => exact List.not_mem_nil
  | case2 text => exact List.forall_mem_singleton.mp h
  | case3 text rest _ ih =>
    obtain ⟨htext, hrest⟩ := List.forall_mem_cons.mp h
    exact (htext.append (by decide)).append (ih hrest)

namespace Setting

theorem lines_lineText {indent : String} {text : Bytes} (hindent : OneLine (ascii indent))
    (htext : OneLine text) : lines (lineText indent text) = [ascii indent ++ text] := by
  have hline := (hindent.append htext).lines_append (show lines [Byte.newline] = [[]] from rfl)
  rwa [List.append_nil] at hline

theorem ended_append_lineText (t : Bytes) (indent : String) (text : Bytes) :
    Ended (t ++ lineText indent text) :=
  .inr ⟨t ++ (ascii indent ++ text), (List.append_assoc t _ _).symm⟩

theorem ended_lineText (indent : String) (text : Bytes) : Ended (lineText indent text) :=
  ended_append_lineText [] indent text

section Entries

variable {s : Setting} (h : s.ruleSet.Spells OneLine)
include h

theorem oneLine_typeName (type : TypeId) : OneLine (s.typeName type) := by
  have hspelling : ∀ t ∈ (s.ruleSet.typeInfo type).shape.spelling?, OneLine t := by
    intro t ht
    cases hget : s.ruleSet.types.get? type with
    | some info =>
      rw [RuleSet.typeInfo_of_get? hget] at ht
      exact h.types hget t ht
    | none =>
      rw [RuleSet.typeInfo, hget] at ht
      cases ht
      exact List.not_mem_nil
  unfold typeName
  dsimp only
  cases hshape : (s.ruleSet.typeInfo type).shape with
  | builtin spelling =>
    rw [hshape] at hspelling
    exact hspelling spelling rfl
  | primitive spelling =>
    rw [hshape] at hspelling
    dsimp only
    split_ifs
    · exact hspelling spelling rfl
    · exact oneLine_identifier _
  | enum variants => exact oneLine_identifier _

theorem oneLine_returnTypeText (term : TermInfo) : OneLine (s.returnTypeText term) := by
  refine OneLine.append ?_ (oneLine_typeName h term.ret)
  split_ifs <;> decide

theorem oneLine_typeNames (types : List TypeId) :
    OneLine (commaSeparated (types.map s.typeName)) :=
  oneLine_commaSeparated (List.forall_mem_map.mpr fun type _ => oneLine_typeName h type)

theorem oneLine_methodText (function : Bytes) (params : List TypeId) {result : Bytes}
    (hresult : OneLine result) : OneLine (s.methodText (identifier function) params result) := by
  have hcall :
      OneLine (callText (ascii "ctx." ++ identifier function) (params.map s.typeName)) := by
    refine .append (.append (.append (.append ?_ (oneLine_identifier function)) ?_) ?_) ?_
    · decide
    · decide
    · exact oneLine_typeNames h params
    · decide
  exact .append (.append hcall (by decide)) hresult

theorem oneLine_matchResult (term : TermInfo) (infallible : Bool) :
    OneLine (s.matchResult term infallible) := by
  refine .append (by split_ifs <;> decide) ?_
  unfold resultsText
  split
  · decide
  · exact oneLine_typeName h _
  · exact .append (.append (by decide) (oneLine_typeNames h _)) (by decide)

theorem oneLine_of_mem_contextEntries {entry : Bytes} (hentry : entry ∈ s.contextEntries) :
    OneLine entry := by
  obtain ⟨term, -, hterm⟩ := List.mem_flatMap.mp hentry
  rw [List.mem_append, Option.mem_toList, Option.mem_toList] at hterm
  rcases hterm with hbuild | hmatch
  · unfold buildEntry? at hbuild
    cases hconstructor : term.constructor with
    | external function loc =>
      rw [hconstructor] at hbuild
      cases hbuild
      exact oneLine_methodText h function term.args (oneLine_returnTypeText h term)
    | _ =>
      rw [hconstructor] at hbuild
      cases hbuild
  · unfold matchEntry? at hmatch
    cases hextractor : term.extractor with
    | external function infallible loc =>
      rw [hextractor] at hmatch
      have hresult := oneLine_matchResult h term infallible
      have hmethod := oneLine_methodText h function [term.ret] hresult
      cases hmatch
      rwa [methodText, matchResult, ← List.append_assoc] at hmethod
    | _ =>
      rw [hextractor] at hmatch
      cases hmatch

end Entries

variable (s : Setting)

def contextLines : List Bytes :=
  if s.contextEntries = [] then []
  else
    [] :: ascii "// Context interface: `ctx` must provide" ::
      s.contextEntries.map (ascii "//   " ++ ·)

def blockLines (b : Block) : List Bytes :=
  b.ruleName.toList.map (ascii "    // " ++ ·) ++ lines (s.blockText { b with ruleName := none })

def openingText (f : Function) : Bytes :=
  let term := s.ruleSet.termInfo f.term
  s.headText (s.constructorName f.term) term.args (s.returnTypeText term) ++
    (f.headDiscards term.args.length).flatMap fun z => lineText "    " (discardText z.text)

def closingText (f : Function) : Bytes :=
  (if f.fallsThrough then lineText "    " (fallThroughText (s.ruleSet.termInfo f.term)) else []) ++
    lineText "" (ascii "\x7d")

def functionLines (f : Function) : List Bytes :=
  lines (s.openingText f) ++ f.blocks.flatMap s.blockLines ++ lines (s.closingText f)

variable {s}

theorem ended_blockText (b : Block) : Ended (s.blockText b) := ended_append_lineText _ _ _

theorem ended_functionText (f : Function) : Ended (s.functionText f) := ended_append_lineText _ _ _

theorem ended_typeDeclText (info : TypeInfo) : Ended (s.typeDeclText info) := by
  unfold typeDeclText
  split_ifs
  · exact .inl rfl
  · split
    · exact .inl rfl
    · split_ifs
      · exact .inl rfl
      · exact ended_append_lineText _ _ _
    · exact ended_append_lineText _ _ _

theorem lines_blockText {b : Block} (hname : ∀ name ∈ b.ruleName, OneLine name) :
    lines (s.blockText b) = s.blockLines b := by
  cases hb : b.ruleName with
  | none =>
    obtain ⟨index, ruleName, body⟩ := b
    cases hb
    rfl
  | some name =>
    have hsplit : s.blockText b =
        lineText "    " (ascii "// " ++ name) ++ s.blockText { b with ruleName := none } := by
      rw [blockText, blockText, hb]
      simp only [List.append_assoc]
      rfl
    have hline : OneLine (ascii "// " ++ name) := .append (by decide) (hname name hb)
    rw [hsplit, (ended_lineText _ _).lines_append, lines_lineText (by decide) hline, blockLines, hb]
    rfl

theorem lines_functionText {f : Function}
    (hnames : ∀ b ∈ f.blocks, ∀ name ∈ b.ruleName, OneLine name) :
    lines (s.functionText f) = s.functionLines f := by
  have hsplit : s.functionText f =
      s.openingText f ++ (f.blocks.flatMap s.blockText ++ s.closingText f) := by
    rw [functionText_eq, openingText, closingText, headText]
    simp only [List.append_assoc]
  have hopening : Ended (s.openingText f) :=
    (ended_lineText _ _).append (ended_flatMap fun _ _ => ended_lineText _ _)
  have hblocks : (f.blocks.flatMap fun b => lines (s.blockText b)) =
      f.blocks.flatMap s.blockLines :=
    List.flatMap_congr fun b hb => lines_blockText (hnames b hb)
  rw [hsplit, hopening.lines_append, (ended_flatMap fun b _ => ended_blockText b).lines_append,
    lines_flatMap fun b _ => ended_blockText b, hblocks, functionLines, List.append_assoc]

theorem lines_contextText (hentries : ∀ entry ∈ s.contextEntries, OneLine entry) :
    Ended s.contextText ∧ lines s.contextText = s.contextLines := by
  have hlines : (s.contextEntries.flatMap fun entry => lines (lineText "//   " entry)) =
      s.contextEntries.map (ascii "//   " ++ ·) := by
    rw [List.map_eq_flatMap]
    exact List.flatMap_congr fun entry hentry => lines_lineText (by decide) (hentries entry hentry)
  have hended : ∀ entry ∈ s.contextEntries, Ended (lineText "//   " entry) :=
    fun entry _ => ended_lineText _ _
  unfold contextText contextLines
  cases hcontext : s.contextEntries with
  | nil => exact ⟨.inl rfl, rfl⟩
  | cons entry entries =>
    rw [hcontext] at hlines hended
    have hfront : Ended (lineText "" [] ++
        lineText "" (ascii "// Context interface: `ctx` must provide")) :=
      ended_append_lineText _ _ _
    refine ⟨hfront.append (ended_flatMap hended), ?_⟩
    rw [hfront.lines_append, lines_flatMap hended, hlines, if_neg (List.cons_ne_nil _ _),
      (ended_lineText _ _).lines_append, lines_lineText (by decide) (by decide),
      lines_lineText (by decide) (by decide)]
    rfl

theorem lines_moduleText (inputs : List Bytes)
    (hentries : ∀ entry ∈ s.contextEntries, OneLine entry)
    (hnames : ∀ f ∈ s.functions, ∀ b ∈ f.blocks, ∀ name ∈ b.ruleName, OneLine name) :
    lines (s.moduleText inputs) =
      lines (s.headerText inputs) ++ s.contextLines ++ lines s.typesText ++
        s.functions.flatMap fun f => [] :: s.functionLines f := by
  obtain ⟨hcontext, hcontextLines⟩ := lines_contextText hentries
  have hheader : Ended (s.headerText inputs) := ended_append_lineText _ _ _
  have htypes : Ended s.typesText := ended_flatMap fun info _ => ended_typeDeclText info
  have hfunctions : lines s.functionsText =
      s.functions.flatMap fun f => [] :: s.functionLines f := by
    have hended : ∀ f ∈ s.functions, Ended (lineText "" [] ++ s.functionText f) :=
      fun f _ => (ended_lineText _ _).append (ended_functionText f)
    rw [functionsText, lines_flatMap hended]
    refine List.flatMap_congr fun f hf => ?_
    rw [(ended_lineText _ _).lines_append, lines_lineText (by decide) (by decide),
      lines_functionText (hnames f hf)]
    rfl
  rw [moduleText, List.append_assoc, List.append_assoc, hheader.lines_append, hcontext.lines_append,
    htypes.lines_append, hcontextLines, hfunctions, List.append_assoc, List.append_assoc]

def titleText : Bytes :=
  lineText "" (ascii "// GENERATED BY ISLE. DO NOT EDIT!") ++ lineText "" (ascii "//") ++
    lineText "" (ascii "// Generated automatically from the rule files:")

def pathText (path : Bytes) : Bytes := lineText "" (ascii "// - " ++ path)

def furtherLines (path : Bytes) : List Bytes := (lines (lineText "" path)).tail

theorem headerText_eq (inputs : List Bytes) :
    s.headerText inputs = titleText ++ (inputs.flatMap pathText ++ (lineText "" [] ++
      ((if s.options.omitPragma then []
        else lineText "" (ascii "// zig fmt: off") ++ lineText "" []) ++
          lineText "" (ascii "const std = @import(\"std\");")))) := by
  simp only [headerText, titleText, List.append_assoc]
  rfl

theorem lines_pathText (path : Bytes) :
    ∃ first, lines (pathText path) = (ascii "// - " ++ first) :: furtherLines path := by
  obtain ⟨first, further, hlines⟩ := List.exists_cons_of_ne_nil (lines_ended_ne_nil path)
  have hfurther : furtherLines path = further := congrArg List.tail hlines
  refine ⟨first, ?_⟩
  rw [hfurther]
  exact OneLine.lines_append (show OneLine (ascii "// - ") by decide) hlines

theorem leading_comments_iff (inputs : List Bytes) (rest : Bytes) :
    (∀ l ∈ (lines (s.headerText inputs ++ rest)).takeWhile (· ≠ []), IsComment l) ↔
      ∀ l ∈ (inputs.flatMap furtherLines).takeWhile (· ≠ []), IsComment l := by
  choose first hfirst using lines_pathText
  have htitle : Ended titleText := ended_append_lineText _ _ _
  have htitleLines : ∀ l ∈ lines titleText, l ≠ [] ∧ IsComment l := by decide
  have hended : ∀ path ∈ inputs, Ended (pathText path) := fun _ _ => ended_lineText _ _
  have hpaths : lines (inputs.flatMap pathText) =
      inputs.flatMap fun path => (ascii "// - " ++ first path) :: furtherLines path := by
    rw [lines_flatMap hended]
    exact List.flatMap_congr fun path _ => hfirst path
  have hmark : ∀ path, decide (ascii "// - " ++ first path ≠ []) = true ∧
      IsComment (ascii "// - " ++ first path) := fun path =>
    ⟨rfl, List.IsPrefix.trans (by decide) (List.prefix_append _ _)⟩
  rw [headerText_eq, List.append_assoc, List.append_assoc, List.append_assoc, htitle.lines_append,
    (ended_flatMap hended).lines_append, (ended_lineText _ _).lines_append, hpaths,
    lines_lineText (by decide) (by decide),
    List.takeWhile_append_of_pos fun l hl => decide_eq_true (htitleLines l hl).1,
    List.forall_mem_append, and_iff_right fun l hl => (htitleLines l hl).2]
  exact forall_takeWhile_flatMap_cons hmark rfl _

example : ¬∀ l ∈ (lines ((⟨.empty, .standard⟩ : Setting).headerText [ascii "a\nb"])).takeWhile
    (· ≠ []), IsComment l := by
  decide

theorem exists_argument {f : Function} (hfalls : f.fallsThrough = true)
    (htotal : (s.ruleSet.termInfo f.term).isPartial = false) :
    ∃ argument, s.closingText f =
        lineText "    " (ascii "@panic(" ++ argument ++ ascii ");") ++ lineText "" (ascii "\x7d") ∧
      (Literal.IsLiteral argument
          (ascii "no rule matched for term " ++ (s.ruleSet.termInfo f.term).name) ↔
        Literal.IsPlainText (s.ruleSet.termInfo f.term).name) := by
  let message := ascii "no rule matched for term " ++ (s.ruleSet.termInfo f.term).name
  refine ⟨ascii "\"" ++ message ++ ascii "\"", ?_, ?_⟩
  · rw [closingText, if_pos hfalls, fallThroughText, htotal]
    simp [message, ascii]
  · rw [Literal.isLiteral_quoted_iff, Literal.denotes_self_iff, Literal.isPlainText_append_iff rfl]
    exact and_iff_right rfl

theorem oneLine_of_inSymbol {name : Bytes} (h : ∀ b ∈ name, Byte.inSymbol b = true) :
    OneLine name := fun hmem => absurd (h _ hmem) (by decide)

theorem spells_definitionsIn (batches : List (List Source)) :
    (RuleSet.afterAll (batches.map Compilation.definitionsIn)).Spells OneLine := by
  refine RuleSet.afterAll_spells (by decide) (List.forall_mem_map.mpr fun sources _ d hd => ?_)
  obtain ⟨source, -, hd⟩ := List.mem_flatMap.mp hd
  exact fun t ht => oneLine_of_inSymbol (Parse.inSymbol_of_mem_spellings hd ht)

theorem oneLine_ruleName (h : s.ruleSet.Spells OneLine) {f : Function} (hf : f ∈ s.functions)
    {b : Block} (hb : b ∈ f.blocks) : ∀ name ∈ b.ruleName, OneLine name := by
  obtain ⟨term, -, rfl⟩ := List.mem_map.mp hf
  obtain ⟨i, hi⟩ := List.getElem?_of_mem hb
  obtain ⟨r, d, hr, rfl⟩ := Lower.blocks_getElem? s.ruleSet (s.ruleSet.rulesFor term) 0 .empty hi
  exact h.rules r (RuleSet.mem_of_mem_rulesFor (List.mem_of_getElem? hr)).1

/-- Whatever is read from rule files, each rule name and each entry of the context interface is one
comment line of the code. The text before the first blank line is a comment unless a path has a
further line that is none, and the message of a panic is a literal unless the name of the term
has a character that is not plain. -/
theorem comments_and_messages (batches : List (List Source)) (options : Options)
    (inputs : List Bytes) :
    let s : Setting := ⟨.afterAll (batches.map Compilation.definitionsIn), options⟩
    ((∀ l ∈ (lines (s.moduleText inputs)).takeWhile (· ≠ []), IsComment l) ↔
      ∀ l ∈ (inputs.flatMap furtherLines).takeWhile (· ≠ []), IsComment l) ∧
    lines (s.moduleText inputs) =
      lines (s.headerText inputs) ++ s.contextLines ++ lines s.typesText ++
        s.functions.flatMap (fun f => [] :: s.functionLines f) ∧
    ∀ f ∈ s.functions, f.fallsThrough = true → (s.ruleSet.termInfo f.term).isPartial = false →
      ∃ argument, s.closingText f =
          lineText "    " (ascii "@panic(" ++ argument ++ ascii ");") ++
            lineText "" (ascii "\x7d") ∧
        (Literal.IsLiteral argument
            (ascii "no rule matched for term " ++ (s.ruleSet.termInfo f.term).name) ↔
          Literal.IsPlainText (s.ruleSet.termInfo f.term).name) := by
  intro s
  have hspells : s.ruleSet.Spells OneLine := spells_definitionsIn batches
  refine ⟨?_, lines_moduleText inputs (fun _ => oneLine_of_mem_contextEntries hspells)
    (fun f hf b hb => oneLine_ruleName hspells hf hb), fun f _ => exists_argument⟩
  rw [moduleText, List.append_assoc, List.append_assoc]
  exact leading_comments_iff inputs _

def quotedName : Source :=
  ⟨1, ascii "a.isle", ascii "(type u32 (primitive u32)) (decl a\"b (u32) u32) (rule (a\"b 1) 2)"⟩

/-- The rule does not match everything, and the panic behind it has no literal as its argument. -/
theorem comments_and_messages_quotedName :
    let s : Setting := ⟨.afterAll ([[quotedName]].map Compilation.definitionsIn), .standard⟩
    ∃ f ∈ s.functions, f.fallsThrough = true ∧ ∃ argument,
      s.closingText f =
        lineText "    " (ascii "@panic(" ++ argument ++ ascii ");") ++ lineText "" (ascii "\x7d") ∧
      ¬Literal.IsLiteral argument (ascii "no rule matched for term a\"b") := by
  intro s
  have hfunctions : s.functions.map (fun f => (f.term, f.fallsThrough)) = [(0, true)] := by
    decide +kernel
  have hterm : (s.ruleSet.termInfo 0).isPartial = false ∧
      (s.ruleSet.termInfo 0).name = ascii "a\"b" := by decide +kernel
  obtain ⟨f, hf, hpair⟩ : ∃ f ∈ s.functions, (f.term, f.fallsThrough) = (0, true) :=
    List.mem_map.mp (hfunctions ▸ List.mem_singleton_self _)
  obtain ⟨hzero, hfalls⟩ := Prod.mk.inj hpair
  obtain ⟨-, -, hmessages⟩ := comments_and_messages [[quotedName]] .standard []
  obtain ⟨argument, hclosing, hliteral⟩ := hmessages f hf hfalls (hzero ▸ hterm.1)
  refine ⟨f, hf, hfalls, argument, hclosing, fun h => ?_⟩
  rw [hzero, hterm.2, Literal.isPlainText_iff_of_all (by decide)] at hliteral
  exact absurd (hliteral.mp h) (by decide)

end Setting

end Zig

end TermRules

import TermRules.Proofs.EmittedLines
import TermRules.Proofs.NameClashes
import TermRules.Proofs.Refutability

/-!
# Labels of emitted blocks

A line of a block leaves the block if it ends in a break to the label of the
block, and no line breaks anywhere else. Zig allows no label without a break and
no end of a function behind which nothing is returned: blocks are labelled
exactly if they are left, and the last line of a function is there exactly if the
block before it is left or there is none.
-/

namespace TermRules.Zig

structure LastWord (text : Bytes) (before : UInt8) (word : Bytes) : Prop where
  suffix : before :: word <:+ text
  word : ∀ b ∈ word, IsIdentifierByte b
  before : ¬ IsIdentifierByte before

namespace LastWord

variable {text word word' : Bytes} {b b' : UInt8}

theorem unique (h : LastWord text b word) (h' : LastWord text b' word') :
    b = b' ∧ word = word' := by
  have hinner : ∀ {b b' : UInt8} {word word' : Bytes}, b :: word <:+ b' :: word' →
      (∀ c ∈ word', IsIdentifierByte c) → ¬ IsIdentifierByte b → b = b' ∧ word = word' := by
    intro b b' word word' hsuffix hword hb
    rcases List.suffix_cons_iff.mp hsuffix with heq | hlater
    · exact List.cons.inj heq
    · exact absurd (hword b (hlater.subset List.mem_cons_self)) hb
  rcases List.suffix_or_suffix_of_suffix h.suffix h'.suffix with hle | hle
  · exact hinner hle h'.word h.before
  · exact (hinner hle h.word h'.before).imp Eq.symm Eq.symm

theorem append_left (h : LastWord text b word) (t : Bytes) : LastWord (t ++ text) b word :=
  ⟨h.suffix.trans (List.suffix_append t text), h.word, h.before⟩

end LastWord

theorem not_isIdentifierByte {b : UInt8}
    (h : (Byte.isAlphanumeric b || b == Byte.underscore) = false) : ¬ IsIdentifierByte b := by
  rintro (hb | rfl)
  · rw [hb] at h
    cases h
  · cases h

def colon : UInt8 := 58

def NoColon (text : Bytes) : Prop := ∃ b word, b ≠ colon ∧ LastWord text b word

theorem NoColon.append_left {text : Bytes} (h : NoColon text) (t : Bytes) :
    NoColon (t ++ text) := by
  obtain ⟨b, word, hb, hword⟩ := h
  exact ⟨b, word, hb, hword.append_left t⟩

theorem noColon_cons {b : UInt8} {word : Bytes} (hb : b ≠ colon)
    (hbefore : (Byte.isAlphanumeric b || b == Byte.underscore) = false)
    (hword : ∀ c ∈ word, IsIdentifierByte c) : NoColon (b :: word) :=
  ⟨b, word, hb, List.suffix_rfl, hword, not_isIdentifierByte hbefore⟩

theorem noColon_singleton {b : UInt8} (hb : b ≠ colon)
    (hbefore : (Byte.isAlphanumeric b || b == Byte.underscore) = false) : NoColon [b] :=
  noColon_cons hb hbefore (List.forall_mem_nil _)

theorem noColon_identifier {b : UInt8} (hb : b ≠ colon)
    (hbefore : (Byte.isAlphanumeric b || b == Byte.underscore) = false) (name : Bytes) :
    NoColon (b :: identifier name) := by
  unfold identifier
  dsimp only
  split_ifs
  · exact (noColon_singleton (by decide) (by decide)).append_left (b :: _)
  · exact noColon_cons hb hbefore (forall_mem_sanitize name)

namespace Setting

variable (s : Setting)

theorem exists_field_eq (ref : VariantRef) (field : Nat) :
    ∃ name, ((s.fieldNames ref)[field]?).getD (identifier []) = identifier name := by
  rw [fieldNames, List.getElem?_map]
  cases (s.ruleSet.variantInfo ref).fields[field]? with
  | none => exact ⟨[], rfl⟩
  | some f => exact ⟨f.name, rfl⟩

theorem noColon_valueText (v : Value) : NoColon (Byte.space :: s.valueText v) := by
  have hword : ∀ {text : Bytes}, (∀ c ∈ text, IsIdentifierByte c) →
      NoColon (Byte.space :: text) := noColon_cons (by decide) (by decide)
  have hcall : ∀ (function : Bytes) (args : List Bytes),
      NoColon (Byte.space :: callText function args) := fun _ _ =>
    (noColon_singleton (b := Byte.rparen) (by decide) (by decide)).append_left (Byte.space :: _)
  cases v with
  | param i => exact hword (plain_binder (.param i)).1
  | temp i => exact hword (plain_binder (.temp i)).1
  | int n =>
    rw [valueText, IntLiteral.text]
    split_ifs
    · exact (noColon_cons (by decide) (by decide)
        (isIdentifierByte_of_mem_decimal _)).append_left [Byte.space]
    · exact hword (isIdentifierByte_of_mem_decimal _)
  | bool b => cases b <;> exact hword (all_isIdentifierByte rfl)
  | payload base ref field =>
    obtain ⟨name, hname⟩ := s.exists_field_eq ref field
    rw [valueText, hname, List.append_assoc _ (ascii ".")]
    exact (noColon_identifier (by decide) (by decide) name).append_left (Byte.space :: _)
  | component base i =>
    rw [valueText]
    exact (noColon_singleton (by decide) (by decide)).append_left (Byte.space :: _)
  | variant ref args =>
    -- The text of a variant ends in a blank and a brace.
    have hbrace : NoColon (ascii " \x7d") :=
      (noColon_singleton (by decide) (by decide)).append_left [Byte.space]
    exact hbrace.append_left (Byte.space :: _)
  | construct term args => exact hcall _ _
  | contextBuild term args => exact hcall _ _
  | contextMatch term arg => exact hcall _ _
  | undefined => exact hword (all_isIdentifierByte rfl)

/-- The line ends in a break to the label with this number. -/
def BreaksTo (line : Bytes) (index : Nat) : Prop := breakText index ++ ascii ";" <:+ line

instance (line : Bytes) (index : Nat) : Decidable (BreaksTo line index) :=
  inferInstanceAs (Decidable (_ <:+ _))

theorem label_injective : Function.Injective label :=
  fun _ _ h => decimal_injective (List.append_cancel_left h)

theorem lastWord_breakText (index : Nat) : LastWord (breakText index) colon (label index) :=
  ⟨List.suffix_append (ascii "break ") (colon :: label index),
    (plain_numbered (all_isIdentifierByte rfl) index).1, not_isIdentifierByte rfl⟩

theorem breaksTo_append_iff {text : Bytes} {index : Nat} :
    BreaksTo (text ++ ascii ";") index ↔ breakText index <:+ text :=
  List.suffix_append_self_iff

theorem breaksTo_breakText_iff (text : Bytes) {index target : Nat} :
    BreaksTo (text ++ breakText index ++ ascii ";") target ↔ target = index := by
  rw [breaksTo_append_iff]
  constructor
  · rintro ⟨pre, hpre⟩
    have hfound := (lastWord_breakText target).append_left pre
    rw [hpre] at hfound
    exact label_injective (hfound.unique ((lastWord_breakText index).append_left text)).2
  · rintro rfl
    exact List.suffix_append text _

theorem not_breaksTo_of_noColon {text : Bytes} (h : NoColon text) (target : Nat) :
    ¬ BreaksTo (text ++ ascii ";") target := by
  rw [breaksTo_append_iff]
  rintro ⟨pre, rfl⟩
  obtain ⟨b, word, hb, hword⟩ := h
  exact hb (hword.unique ((lastWord_breakText target).append_left pre)).1

/-- A statement that leaves its block breaks to the label of the block, and no other breaks. -/
theorem breaksTo_statementText_iff (index : Nat) (t : Statement) (target : Nat) :
    BreaksTo (s.statementText index t) target ↔ t.breaks = true ∧ target = index := by
  have hvalue : ∀ (text lead : Bytes) (v : Value),
      ¬ BreaksTo (text ++ (lead ++ ascii " ") ++ s.valueText v ++ ascii ";") target := by
    intro text lead v
    rw [← List.append_assoc text, List.append_assoc (text ++ lead)]
    exact not_breaksTo_of_noColon ((s.noColon_valueText v).append_left (text ++ lead)) target
  cases t with
  | const temp type v orBreak =>
    unfold statementText
    dsimp only
    cases orBreak with
    | true =>
      rw [Statement.breaks, and_iff_right rfl, if_pos rfl, ← List.append_assoc]
      exact breaksTo_breakText_iff _
    | false =>
      refine iff_of_false ?_ (by simp [Statement.breaks])
      rw [if_neg Bool.false_ne_true, List.append_nil]
      exact hvalue _ (ascii " =") v
  | breakIf c =>
    rw [Statement.breaks, and_iff_right rfl]
    exact breaksTo_breakText_iff _
  | discard v => exact iff_of_false (hvalue [] (ascii "_ =") v) (by simp [Statement.breaks])
  | ret v => exact iff_of_false (hvalue [] (ascii "return") v) (by simp [Statement.breaks])

/-- A number is no shorter number that it ends or starts with. -/
example : BreaksTo (ascii "if (v0 != 1) break :rule_10;") 10 ∧
    ¬ BreaksTo (ascii "if (v0 != 1) break :rule_10;") 0 ∧
    ¬ BreaksTo (ascii "if (v0 != 1) break :rule_10;") 1 := by decide

end Setting

structure WrittenBlock where
  name : Option Bytes
  label : Option Nat
  lines : List Bytes

namespace WrittenBlock

def opening (b : WrittenBlock) : Bytes :=
  match b.label with
  | some i => Zig.label i ++ ascii ": \x7b"
  | none => ascii "\x7b"

open Setting in
def text (b : WrittenBlock) : Bytes :=
  (match b.name with
    | some name => lineText "    " (ascii "// " ++ name)
    | none => []) ++
  lineText "    " b.opening ++ b.lines.flatMap (lineText "        ") ++
  lineText "    " (ascii "\x7d")

end WrittenBlock

namespace Setting

variable (s : Setting)

def written (b : Block) : WrittenBlock where
  name := b.ruleName
  label := if b.breaks then some b.index else none
  lines := b.body.map (s.statementText b.index)

def writtenBlocks (f : Function) : List WrittenBlock := f.blocks.map s.written

theorem blockText_eq (b : Block) : s.blockText b = (s.written b).text := by
  unfold blockText WrittenBlock.text WrittenBlock.opening written
  dsimp only
  rw [List.flatMap_map]
  cases b.ruleName <;> cases b.breaks <;> rfl

theorem breaksTo_lines_iff (b : Block) (target : Nat) :
    (∃ line ∈ (s.written b).lines, BreaksTo line target) ↔ b.breaks = true ∧ target = b.index := by
  have hlines : (∃ line ∈ (s.written b).lines, BreaksTo line target) ↔
      ∃ t ∈ b.body, BreaksTo (s.statementText b.index t) target := by
    simp [written]
  rw [hlines, Block.breaks, List.any_eq_true]
  simp only [breaksTo_statementText_iff, ← and_assoc, exists_and_right]

theorem label_written_eq_some_iff (b : Block) :
    (s.written b).label = some b.index ↔ b.breaks = true := by
  unfold written
  dsimp only
  split_ifs with hbreaks <;> simp [hbreaks]

theorem label_written_eq_none_iff (b : Block) :
    (s.written b).label = none ↔ b.breaks = false := by
  unfold written
  dsimp only
  split_ifs with hbreaks <;> simp [hbreaks]

theorem label_written_ne_none_iff (b : Block) :
    (s.written b).label ≠ none ↔ b.breaks = true := by
  rw [Ne, label_written_eq_none_iff, Bool.not_eq_false]

theorem length_writtenBlocks (f : Function) : (s.writtenBlocks f).length = f.blocks.length :=
  List.length_map s.written

theorem writtenBlocks_getElem?_eq_some {f : Function} {i : Nat} {b : WrittenBlock} :
    (s.writtenBlocks f)[i]? = some b ↔ ∃ b', f.blocks[i]? = some b' ∧ s.written b' = b := by
  rw [writtenBlocks, List.getElem?_map, Option.map_eq_some_iff]

theorem functionText_eq_written (f : Function) :
    s.functionText f =
      s.openingText f ++ (s.writtenBlocks f).flatMap WrittenBlock.text ++ s.closingText f := by
  have hblocks : (s.writtenBlocks f).flatMap WrittenBlock.text = f.blocks.flatMap s.blockText := by
    rw [writtenBlocks, List.flatMap_map]
    exact List.flatMap_congr fun b _ => (s.blockText_eq b).symm
  rw [functionText_eq, hblocks, openingText, closingText, headText]
  simp only [List.append_assoc]

/-- The block is written for this rule under this number. It is labelled exactly if a line breaks
to its label, which is the case exactly if the rule can fail. -/
structure IsBlockOf (b : WrittenBlock) (i : Nat) (r : CheckedRule) : Prop where
  name_eq : b.name = r.name
  lines_eq : ∃ d,
    b.lines = ((Lower.block s.ruleSet i r).run d).1.body.map (s.statementText i)
  label_eq : b.label = none ∨ b.label = some i
  labelled_iff_breaks : b.label = some i ↔ ∃ line ∈ b.lines, BreaksTo line i
  target_eq : ∀ line ∈ b.lines, ∀ j, BreaksTo line j → j = i
  labelled_iff_refutable : b.label = some i ↔ r.Refutable s.ruleSet

/-- The function tries its rules one after the other, up to the first that cannot fail. -/
structure TriesRules (f : Function) : Prop where
  text_eq :
    s.functionText f =
      s.openingText f ++ (s.writtenBlocks f).flatMap WrittenBlock.text ++
        (if f.fallsThrough then
          lineText "    "
            (if (s.ruleSet.termInfo f.term).isPartial then ascii "return null;"
            else
              ascii "@panic(\"no rule matched for term " ++ (s.ruleSet.termInfo f.term).name ++
                ascii "\");")
        else []) ++
        lineText "" (ascii "\x7d")
  block : ∀ i b, (s.writtenBlocks f)[i]? = some b →
    ∃ r, (s.ruleSet.rulesFor f.term)[i]? = some r ∧ s.IsBlockOf b i r
  stops : ∀ i b, (s.writtenBlocks f)[i]? = some b → b.label = none →
    (s.writtenBlocks f).length = i + 1
  complete : (∀ b ∈ s.writtenBlocks f, b.label ≠ none) →
    (s.writtenBlocks f).length = (s.ruleSet.rulesFor f.term).length
  fallsThrough_iff : f.fallsThrough = true ↔ s.ruleSet.rulesFor f.term = [] ∨
    ∃ b, (s.writtenBlocks f).getLast? = some b ∧ b.label ≠ none

variable {s}

theorem isBlockOf_written {r : CheckedRule} (hrs : s.ruleSet.VariantsTotal)
    (hr : r.Typed s.ruleSet) (i : Nat) (d : Draft) :
    s.IsBlockOf (s.written ((Lower.block s.ruleSet i r).run d).1) i r := by
  have hlabel := s.label_written_eq_some_iff ((Lower.block s.ruleSet i r).run d).1
  have hbreaks := s.breaksTo_lines_iff ((Lower.block s.ruleSet i r).run d).1
  exact {
    name_eq := rfl
    lines_eq := ⟨d, rfl⟩
    label_eq := by
      unfold written
      dsimp only
      split_ifs
      · exact .inr rfl
      · exact .inl rfl
    labelled_iff_breaks := by
      rw [hbreaks]
      exact hlabel.trans (and_iff_left rfl).symm
    target_eq := fun line hline j hj => ((hbreaks j).mp ⟨line, hline, hj⟩).2
    labelled_iff_refutable := hlabel.trans (Lower.breaks_block hrs hr i d) }

theorem triesRules_of_blocks {f : Function}
    (hkept : Lower.UpToFirstKept (s.ruleSet.rulesFor f.term) f.blocks f.fallsThrough)
    (hblock : ∀ i b, f.blocks[i]? = some b →
      ∃ r, (s.ruleSet.rulesFor f.term)[i]? = some r ∧ s.IsBlockOf (s.written b) i r) :
    s.TriesRules f where
  text_eq := by
    rw [functionText_eq_written, closingText, fallThroughText, ← List.append_assoc]
  block i b hb := by
    obtain ⟨b, hget, rfl⟩ := s.writtenBlocks_getElem?_eq_some.mp hb
    exact hblock i b hget
  stops i b hb hlabel := by
    obtain ⟨b, hget, rfl⟩ := s.writtenBlocks_getElem?_eq_some.mp hb
    rw [length_writtenBlocks]
    exact hkept.stops i b hget ((s.label_written_eq_none_iff b).mp hlabel)
  complete hall := by
    rw [length_writtenBlocks]
    exact hkept.complete fun b hb =>
      (s.label_written_ne_none_iff b).mp (hall _ (List.mem_map_of_mem hb))
  fallsThrough_iff := by
    refine hkept.fallsThrough_iff_getLast?.trans (or_congr Iff.rfl ?_)
    rw [writtenBlocks, List.getLast?_map]
    constructor
    · rintro ⟨b, hb, hbreaks⟩
      exact ⟨s.written b, by rw [hb]; rfl, (s.label_written_ne_none_iff b).mpr hbreaks⟩
    · rintro ⟨_, hlast, hlabel⟩
      obtain ⟨b, hb, rfl⟩ := Option.map_eq_some_iff.mp hlast
      exact ⟨b, hb, (s.label_written_ne_none_iff b).mp hlabel⟩

/-- Whatever is read, each function tries the rules of its term in order, up to the first that
cannot fail. The block of a rule is labelled exactly if one of its lines breaks to the label, no
line breaks to another label, and a line stands behind the blocks exactly if the last of them can
be left. -/
theorem triesRules (batches : List (List Definition)) (options : Options) :
    let s : Setting := ⟨.afterAll batches, options⟩
    ∀ f ∈ s.functions, s.TriesRules f := by
  intro s f hf
  obtain ⟨term, -, rfl⟩ := List.mem_map.mp hf
  have hrs : s.ruleSet.VariantsTotal := RuleSet.afterAll_variantsTotal batches
  refine triesRules_of_blocks
    (Lower.upToFirstKept_blocks s.ruleSet (s.ruleSet.rulesFor term) 0 .empty) fun i b hb => ?_
  obtain ⟨r, d, hr, rfl⟩ :=
    Lower.blocks_getElem? s.ruleSet (s.ruleSet.rulesFor term) 0 .empty hb
  rw [Nat.zero_add]
  have hmem := (RuleSet.mem_of_mem_rulesFor (List.mem_of_getElem? hr)).1
  have htyped := ((RuleSet.afterAll_sound batches).wellFormed r hmem).wellTyped
  exact ⟨r, hr, isBlockOf_written hrs htyped i d⟩

def stoppingRule : Source :=
  ⟨1, ascii "a.isle", ascii "(type u32 (primitive u32)) (decl f (u32) u32)" ++
    ascii "(rule (f 1) 2) (rule (f x) x) (rule (f 3) 4)"⟩

/-- The first block is labelled, the second is not and ends the function, and there is no third. -/
theorem triesRules_stoppingRule :
    let s : Setting := ⟨.afterAll [Compilation.definitionsIn [stoppingRule]], .standard⟩
    ∃ f ∈ s.functions, s.TriesRules f ∧ (s.ruleSet.rulesFor f.term).length = 3 ∧
      (s.writtenBlocks f).map WrittenBlock.label = [some 0, none] ∧ f.fallsThrough = false := by
  intro s
  have hfunctions : s.functions.map (fun f =>
      ((s.ruleSet.rulesFor f.term).length, (s.writtenBlocks f).map WrittenBlock.label,
        f.fallsThrough)) = [(3, [some 0, none], false)] := by decide +kernel
  obtain ⟨f, hf, hwritten⟩ := List.mem_map.mp (hfunctions ▸ List.mem_singleton_self _)
  simp only [Prod.mk.injEq] at hwritten
  exact ⟨f, hf, triesRules [Compilation.definitionsIn [stoppingRule]] .standard f hf, hwritten⟩

end Setting

end TermRules.Zig

import TermRules.Proofs.Environments
import TermRules.Proofs.Positions

/-!
# Spellings and rule names

Most names are sanitized before they reach generated code. The spelling of a
type in the target language and the name of a rule are not. Both are symbols of
the files that were read, and a symbol contains no delimiter, no blank and no
zero byte.
-/

namespace TermRules

theorem Piece.AllFit.fits {p : Piece} {ps : List Piece} (h : AllFit ps) (hp : p ∈ ps) :
    ∃ rest, p.Fits rest := by
  induction ps with
  | nil => cases hp
  | cons q ps ih =>
    rcases List.mem_cons.mp hp with rfl | hp
    · exact ⟨_, h.1⟩
    · exact ih h.2 hp

theorem Scan.inSymbol_of_mem_tokens {file : UInt32} {text name : Bytes} {loc : Loc}
    (h : ⟨.symbol name, loc⟩ ∈ (ofSource file text).tokens) :
    ∀ b ∈ name, Byte.inSymbol b = true := by
  have hlexeme : .symbol name ∈ lexemes text := by
    rw [← lexemes_tokens_ofSource file text]
    exact List.mem_map_of_mem h
  obtain ⟨p, hp, hsymbol⟩ := List.mem_filterMap.mp hlexeme
  cases p with
  | symbol spelling =>
    cases hsymbol
    obtain ⟨rest, hrun, -⟩ := (Piece.partition_pieces text).fit.fits hp
    exact hrun.all
  | _ => cases hsymbol

def TypeShape.spelling? : TypeShape → Option Bytes
  | .builtin spelling | .primitive spelling => some spelling
  | .enum _ => none

theorem TypeShape.spelling?_addVariant (v : VariantInfo) (shape : TypeShape) :
    (shape.addVariant v).spelling? = shape.spelling? := by
  cases shape <;> rfl

def Definition.spellings : Definition → List Bytes
  | .type d =>
      match d.body with
      | .primitive spelling => [spelling.name]
      | .enum _ => []
  | .rule r => (r.name.map Ident.name).toList
  | _ => []

theorem Definition.Spans.spellings {d : Definition} {ts : List Token} (h : d.Spans ts)
    {name : Bytes} (hname : name ∈ d.spellings) : ∃ loc, ⟨.symbol name, loc⟩ ∈ ts := by
  cases d with
  | type d =>
    obtain ⟨head, flags, us, ⟨close, rfl⟩, hbody⟩ := h
    rw [Definition.spellings] at hname
    cases hd : d.body with
    | enum variants =>
      rw [hd] at hname
      cases hname
    | primitive spelling =>
      rw [hd] at hname hbody
      cases List.mem_singleton.mp hname
      have hmem : spelling.token ∈ us := by
        rcases hbody with rfl | ⟨first, word, close, rfl⟩ <;> simp
      refine ⟨spelling.loc, ?_⟩
      change spelling.token ∈ _
      simp [hmem]
  | rule r =>
    obtain ⟨head, number, us, vs, ws, ⟨close, rfl⟩, -⟩ := h
    rw [Definition.spellings, Option.mem_toList, Option.map_eq_some_iff] at hname
    obtain ⟨i, hi, rfl⟩ := hname
    refine ⟨i.loc, ?_⟩
    change i.token ∈ _
    simp [hi]
  | _ => cases hname

theorem Parse.inSymbol_of_mem_spellings {file : UInt32} {text : Bytes} {d : Definition}
    (hd : d ∈ (parseFile file text).definitions) {name : Bytes} (hname : name ∈ d.spellings) :
    ∀ b ∈ name, Byte.inSymbol b = true := by
  obtain ⟨ts, hts, hspans⟩ := exists_spans hd
  obtain ⟨loc, hmem⟩ := hspans.spellings hname
  exact Scan.inSymbol_of_mem_tokens (hts.subset hmem)

namespace RuleSet

/-- All spellings of types and all names of rules have the property. -/
structure Spells (rs : RuleSet) (P : Bytes → Prop) : Prop where
  types : ∀ {id info}, rs.types.get? id = some info → ∀ t ∈ info.shape.spelling?, P t
  rules : ∀ r ∈ rs.rules, ∀ name ∈ r.name, P name

theorem spells_empty {P : Bytes → Prop} (h : P (ascii "bool")) : empty.Spells P where
  types := by
    intro id info hinfo t ht
    cases id with
    | zero =>
      cases hinfo
      cases ht
      exact h
    | succ id => simp [empty, Table.get?] at hinfo
  rules := by simp [empty]

variable {rs s : RuleSet} {P : Bytes → Prop} {defs : List Definition}

theorem Spells.attempt (h : rs.Spells P) (hdefs : ∀ d ∈ defs, ∀ t ∈ d.spellings, P t) {t : Job}
    (ht : t.AskedBy defs) (hs : t.attempt rs = .ok s) : s.Spells P := by
  cases ht with
  | @type d mem =>
    obtain ⟨d', hd', hsome⟩ := List.mem_filterMap.mp mem
    cases d' with
    | type d' =>
      cases hsome
      obtain ⟨types, hinsert, rfl⟩ := addTypeName_ok.mp hs
      refine ⟨fun {id info} hinfo t ht => ?_, h.rules⟩
      rw [Table.get?_of_insert? hinsert] at hinfo
      split_ifs at hinfo
      · cases hinfo
        apply hdefs _ hd'
        rw [TypeInfo.ofDef] at ht
        rw [Definition.spellings]
        cases hbody : d.body with
        | primitive spelling =>
          rw [hbody] at ht
          cases ht
          exact List.mem_singleton_self _
        | enum variants =>
          rw [hbody] at ht
          cases ht
      · exact h.types hinfo t ht
    | _ => cases hsome
  | variant mem hv =>
    obtain ⟨type, -, hvariant⟩ := Entry.enter_variant_ok.mp hs
    obtain ⟨ids, terms, -, -, rfl⟩ := addVariant_ok.mp hvariant
    refine ⟨fun {id info} hinfo t ht => ?_, h.rules⟩
    rw [Table.withVariant, Table.get?_modify] at hinfo
    split_ifs at hinfo
    · obtain ⟨info', hinfo', rfl⟩ := Option.map_eq_some_iff.mp hinfo
      rw [TypeShape.spelling?_addVariant] at ht
      exact h.types hinfo' t ht
    · exact h.types hinfo t ht
  | decl mem =>
    obtain ⟨args, ret, terms, -, -, -, rfl⟩ := addDecl_ok.mp hs
    exact ⟨h.types, h.rules⟩
  | external mem =>
    obtain ⟨id, -, -, rfl⟩ := addExternal_ok.mp hs
    exact ⟨h.types, h.rules⟩
  | template mem =>
    obtain ⟨id, -, -, -, rfl⟩ := addTemplate_ok.mp hs
    exact ⟨h.types, h.rules⟩
  | @mark r mem =>
    cases hs
    rw [markInternal_eq]
    cases r.root?.bind rs.terms.find? <;> exact ⟨h.types, h.rules⟩
  | @rule r mem order =>
    obtain ⟨c, hc, rfl⟩ := addRule_ok.mp hs
    have hname : c.name = r.name.map Ident.name := by
      obtain ⟨-, -, -, -, -, -, -, -, -, -, -, -, rfl⟩ := Check.rule_ok.mp hc
      rfl
    refine ⟨h.types, fun r' hr' name hmem => ?_⟩
    rcases Array.mem_push.mp hr' with hr' | rfl
    · exact h.rules r' hr' name hmem
    obtain ⟨d, hd, hsome⟩ := List.mem_filterMap.mp mem
    cases d with
    | rule r' =>
      cases hsome
      rw [hname] at hmem
      exact hdefs _ hd name (Option.mem_toList.mpr hmem)
    | _ => cases hsome
  | secondVariant mem hv => cases hs
  | secondRule mem name => cases hs

theorem Spells.analyze (h : rs.Spells P) (hdefs : ∀ d ∈ defs, ∀ t ∈ d.spellings, P t) :
    (rs.analyze defs).1.Spells P :=
  analyze_induction (P := (·.Spells P)) h defs fun _ ht _ _ hrs hs =>
    hrs.attempt hdefs (Job.askedBy_of_mem ht) hs

theorem afterAll_spells {batches : List (List Definition)} (hbool : P (ascii "bool"))
    (h : ∀ defs ∈ batches, ∀ d ∈ defs, ∀ t ∈ d.spellings, P t) : (afterAll batches).Spells P := by
  -- The definitions of each batch count, so the induction is on the batches themselves.
  have hfold : ∀ rs : RuleSet, rs.Spells P →
      (batches.foldl (fun rs defs => (rs.analyze defs).1) rs).Spells P := by
    induction batches with
    | nil => exact fun rs hrs => hrs
    | cons defs batches ih =>
      obtain ⟨hdefs, hbatches⟩ := List.forall_mem_cons.mp h
      exact fun rs hrs => ih hbatches _ (hrs.analyze hdefs)
  exact hfold empty (spells_empty hbool)

end RuleSet

end TermRules

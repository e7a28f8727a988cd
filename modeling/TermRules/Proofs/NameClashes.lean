import TermRules.Proofs.ClosedModules
import TermRules.Proofs.Identifiers

/-!
# Clashes of generated names

A module declares its import, the types of the rule set and a function for each
term that rules are written for, and all of these share one scope with the
parameters and locals of the functions. Types, terms and the variants of a type
have different names in every rule set, so sanitizing is all that can make their
identifiers equal. Nothing keeps the fields of a variant apart, nor a type from
the names that the generator makes up.
-/

namespace TermRules

namespace Zig

structure Declaration where
  name : Bytes
  text : Bytes

def Declaration.Introduces (d : Declaration) : Prop :=
  ascii "const " ++ d.name ++ ascii " = " <+: d.text ∨
    Byte.newline :: ascii "pub const " ++ d.name ++ ascii " = " <+: d.text ∨
      Byte.newline :: ascii "pub fn " ++ d.name ++ ascii "(ctx: anytype" <+: d.text

def isDeclared (info : TypeInfo) : Bool :=
  !info.isExternal &&
    match info.shape with
    | .builtin _ => false
    | .primitive spelling => info.name ≠ spelling
    | .enum _ => true

namespace Setting

variable (s : Setting)

def importDeclaration : Declaration :=
  ⟨ascii "std", lineText "" (ascii "const std = @import(\"std\");")⟩

def declaredTypes : List TypeInfo := s.ruleSet.types.entries.toList.filter isDeclared

def typeDeclaration (info : TypeInfo) : Declaration :=
  ⟨identifier info.name, s.typeDeclText info⟩

def functionDeclaration (f : Function) : Declaration :=
  ⟨s.constructorName f.term, lineText "" [] ++ s.functionText f⟩

def declarations : List Declaration :=
  importDeclaration ::
    (s.declaredTypes.map s.typeDeclaration ++ s.functions.map s.functionDeclaration)

def declaredNames : List Bytes := s.declarations.map Declaration.name

def binders (f : Function) : List Binder :=
  .context :: ((List.range (s.ruleSet.termInfo f.term).args.length).map .param ++
    (f.blocks.flatMap Block.declared).map .temp)

/-- No two names of one scope are equal. -/
structure ClashFree : Prop where
  declarations : s.declaredNames.Nodup
  unions : ∀ info ∈ s.declaredTypes,
    (info.shape.variants.toList.map fun v => identifier v.name).Nodup
  structs : ∀ info ∈ s.declaredTypes, ∀ v ∈ info.shape.variants,
    (v.fields.map fun f => identifier f.name).Nodup
  binders : ∀ f ∈ s.functions, ∀ z ∈ s.binders f, z.text ∉ s.declaredNames

/-- Sanitizing merges no two names of one kind, the fields of a variant have different names, and
no declared type has a name that the generator makes up. -/
structure Separate : Prop where
  types : ∀ a ∈ s.declaredTypes, ∀ b ∈ s.declaredTypes,
    sanitize a.name = sanitize b.name → a.name = b.name
  terms : ∀ t ∈ s.internalTerms, ∀ u ∈ s.internalTerms,
    sanitize (s.ruleSet.termInfo t).name = sanitize (s.ruleSet.termInfo u).name →
      (s.ruleSet.termInfo t).name = (s.ruleSet.termInfo u).name
  variants : ∀ info ∈ s.declaredTypes, ∀ v ∈ info.shape.variants, ∀ w ∈ info.shape.variants,
    sanitize v.name = sanitize w.name → v.name = w.name
  fields : ∀ info ∈ s.declaredTypes, ∀ v ∈ info.shape.variants,
    (v.fields.map FieldInfo.name).Nodup ∧
      ∀ f ∈ v.fields, ∀ g ∈ v.fields, sanitize f.name = sanitize g.name → f.name = g.name
  reserved : ∀ info ∈ s.declaredTypes, sanitize info.name ≠ ascii "std" ∧
    (∀ t ∈ s.internalTerms, sanitize info.name ≠ s.constructorName t) ∧
      ∀ f ∈ s.functions, ∀ z ∈ s.binders f, sanitize info.name ≠ z.text

theorem introduces_typeDeclaration {info : TypeInfo} (h : isDeclared info = true) :
    (s.typeDeclaration info).Introduces := by
  refine .inr (.inl ?_)
  rw [isDeclared, Bool.and_eq_true, Bool.not_eq_true'] at h
  obtain ⟨hexternal, hshape⟩ := h
  simp only [typeDeclaration, typeDeclText, hexternal]
  cases hs : info.shape with
  | builtin spelling => simp [hs] at hshape
  | primitive spelling =>
    have hname : info.name ≠ spelling := by simpa [hs] using hshape
    refine ⟨spelling ++ ascii ";" ++ [Byte.newline], ?_⟩
    simp [hname, lineText, ascii]
  | enum variants =>
    refine ⟨ascii "union(enum) \x7b" ++ [Byte.newline] ++
      variants.toList.flatMap s.variantDeclText ++ lineText "" (ascii "\x7d;"), ?_⟩
    simp [lineText, ascii]

theorem introduces_functionDeclaration (f : Function) : (s.functionDeclaration f).Introduces := by
  refine .inr (.inr ?_)
  simp only [functionDeclaration, functionText, lineText, List.append_assoc]
  exact ⟨_, by simp [ascii]; rfl⟩

theorem typeDeclText_eq_nil {info : TypeInfo} (h : isDeclared info = false) :
    s.typeDeclText info = [] := by
  unfold typeDeclText
  unfold isDeclared at h
  cases hexternal : info.isExternal with
  | true => rfl
  | false =>
    cases hs : info.shape with
    | builtin spelling => rfl
    | primitive spelling =>
      have hname : info.name = spelling := by simpa [hexternal, hs] using h
      simp [hname]
    | enum variants => simp [hexternal, hs] at h

theorem typesText_eq :
    s.typesText = (s.declaredTypes.map s.typeDeclaration).flatMap Declaration.text := by
  rw [typesText, declaredTypes, List.flatMap_map]
  induction s.ruleSet.types.entries.toList with
  | nil => rfl
  | cons info infos ih =>
    rw [List.flatMap_cons, List.filter_cons, ih]
    cases hdeclared : isDeclared info with
    | true => rfl
    | false => rw [s.typeDeclText_eq_nil hdeclared]; rfl

theorem moduleText_declarations (inputs : List Bytes) :
    ∃ comments, s.headerText inputs = comments ++ importDeclaration.text ∧
      s.moduleText inputs = comments ++ importDeclaration.text ++ s.contextText ++
        s.declarations.tail.flatMap Declaration.text ∧
      ∀ d ∈ s.declarations, d.Introduces := by
  refine ⟨_, rfl, ?_, ?_⟩
  · have hfunctions :
        (s.functions.map s.functionDeclaration).flatMap Declaration.text = s.functionsText :=
      List.flatMap_map _ _ _
    rw [moduleText, typesText_eq, declarations, List.tail_cons, List.flatMap_append, hfunctions,
      ← List.append_assoc]
    rfl
  · rw [declarations, List.forall_mem_cons, List.forall_mem_append, List.forall_mem_map,
      List.forall_mem_map]
    refine ⟨.inl ⟨ascii "@import(\"std\");" ++ [Byte.newline], by decide⟩, fun info hinfo => ?_,
      fun f _ => s.introduces_functionDeclaration f⟩
    exact s.introduces_typeDeclaration (List.mem_filter.mp hinfo).2

end Setting

theorem isIdentifierByte_of_mem_decimal (n : Nat) : ∀ b ∈ decimal n, IsIdentifierByte b :=
  fun b hb => isIdentifierByte_of_isDigit (Numeral.isDigit_decimal n b hb)

theorem isLower_of_isDigit {b : UInt8} (h : Byte.isDigit b = true) : Byte.isLower b = false := by
  simp only [Byte.isDigit, Byte.isLower, Bool.and_eq_true, Bool.and_eq_false_iff,
    decide_eq_true_eq, decide_eq_false_iff_not, UInt8.le_iff_toNat_le] at h ⊢
  have hbound : b.toNat ≤ 57 := h.2
  exact .inl fun hle => absurd (Nat.le_trans hle hbound) (by decide)

theorem plain_numbered {word : Bytes} (hword : ∀ b ∈ word, IsIdentifierByte b) (n : Nat) :
    (∀ b ∈ word ++ decimal n, IsIdentifierByte b) ∧ word ++ decimal n ∉ keywords := by
  refine ⟨List.forall_mem_append.mpr ⟨hword, isIdentifierByte_of_mem_decimal n⟩, ?_⟩
  obtain ⟨b, hb⟩ := List.exists_mem_of_ne_nil _ (decimal_ne_nil n)
  refine not_mem_keywords (List.mem_append_right word hb) ?_
  exact isLower_of_isDigit (Numeral.isDigit_decimal n b hb)

theorem plain_binder (z : Binder) :
    (∀ b ∈ z.text, IsIdentifierByte b) ∧ z.text ∉ keywords := by
  cases z with
  | context => exact ⟨all_isIdentifierByte rfl, by decide⟩
  | param i => exact plain_numbered (all_isIdentifierByte rfl) i
  | temp i => exact plain_numbered (all_isIdentifierByte rfl) i

namespace Setting

variable {s : Setting}

theorem plain_constructorName (t : TermId) :
    (∀ b ∈ s.constructorName t, IsIdentifierByte b) ∧ s.constructorName t ∉ keywords := by
  have hword : ∀ b ∈ ascii "constructor_", IsIdentifierByte b := all_isIdentifierByte rfl
  have hsegments : ∀ b ∈ s.options.segments.flatMap (sanitize · ++ ascii "_"),
      IsIdentifierByte b := by
    intro b hb
    obtain ⟨segment, -, hb⟩ := List.mem_flatMap.mp hb
    rcases List.mem_append.mp hb with hb | hb
    · exact forall_mem_sanitize segment b hb
    · exact .inr (List.mem_singleton.mp hb)
  refine ⟨List.forall_mem_append.mpr
    ⟨List.forall_mem_append.mpr ⟨hword, hsegments⟩, forall_mem_sanitize _⟩, ?_⟩
  refine not_mem_keywords (b := Byte.underscore) ?_ (by decide)
  exact List.mem_append_left _ (List.mem_append_left _ (by decide))

theorem constructorName_eq_iff {t u : TermId} :
    s.constructorName t = s.constructorName u ↔
      sanitize (s.ruleSet.termInfo t).name = sanitize (s.ruleSet.termInfo u).name := by
  rw [constructorName, constructorName, List.append_right_inj]

theorem constructorName_ne_std (t : TermId) : s.constructorName t ≠ ascii "std" := by
  intro h
  exact absurd (Option.some.inj (congrArg List.head? h)) (by decide)

theorem constructorName_ne_binder (t : TermId) (z : Binder) : s.constructorName t ≠ z.text := by
  intro h
  cases z with
  | context => exact absurd (Option.some.inj (congrArg (fun text => text[1]?) h)) (by decide)
  | param i => exact absurd (Option.some.inj (congrArg List.head? h)) (by decide)
  | temp i => exact absurd (Option.some.inj (congrArg List.head? h)) (by decide)

theorem std_ne_binder (z : Binder) : ascii "std" ≠ z.text := by
  intro h
  cases z <;> exact absurd (Option.some.inj (congrArg List.head? h)) (by decide)

theorem nodup_names {α : Type} [Named α] {t : Table α} (h : t.Keyed) :
    (t.entries.toList.map Named.name).Nodup := by
  rw [List.nodup_iff_injective_getElem]
  intro i j hij
  have hi : i.1 < t.entries.size := by simpa using i.2
  have hj : j.1 < t.entries.size := by simpa using j.2
  have hname : (Named.name t.entries[i.1] : Bytes) = Named.name t.entries[j.1] := by simpa using hij
  have hfind := h.find? (Array.getElem?_eq_getElem hi)
  rw [hname, h.find? (Array.getElem?_eq_getElem hj)] at hfind
  exact Fin.ext (Option.some.inj hfind).symm

theorem nodup_declaredTypes (h : s.ruleSet.Linked) :
    (s.declaredTypes.map TypeInfo.name).Nodup :=
  (nodup_names h.types).sublist (List.filter_sublist.map _)

theorem nodup_internalTerms (h : s.ruleSet.Linked) :
    (s.internalTerms.map fun t => (s.ruleSet.termInfo t).name).Nodup := by
  have hnodup : s.internalTerms.Nodup := List.nodup_range.filter _
  refine hnodup.map_on fun t ht u hu hname => ?_
  have hfind : s.ruleSet.terms.find? (s.ruleSet.termInfo t).name = some t :=
    h.terms.find? (get?_of_mem_internalTerms ht)
  have hfind' : s.ruleSet.terms.find? (s.ruleSet.termInfo u).name = some u :=
    h.terms.find? (get?_of_mem_internalTerms hu)
  rw [hname, hfind'] at hfind
  exact (Option.some.inj hfind).symm

theorem nodup_variants (h : s.ruleSet.Linked) {info : TypeInfo} (hinfo : info ∈ s.declaredTypes) :
    (info.shape.variants.toList.map VariantInfo.name).Nodup := by
  have hmem := (List.mem_filter.mp hinfo).1
  obtain ⟨id, hid⟩ := Array.getElem?_of_mem (Array.mem_toList_iff.mp hmem)
  have hterm : ∀ {i : Nat} {v}, info.shape.variants[i]? = some v → ∃ term,
      s.ruleSet.terms.get? v.term = some term ∧ term.constructor = .variant ⟨id, i⟩ ∧
        term.name = info.name ++ Byte.dot :: v.name := by
    intro i v hv
    obtain ⟨term, hget, hc⟩ := h.variants hid hv
    obtain ⟨type, v', htype, hv', -, -, -, hname⟩ := (h.infos hget).variant _ hc
    cases hid.symm.trans htype
    cases hv.symm.trans hv'
    exact ⟨term, hget, hc, hname⟩
  rw [List.nodup_iff_injective_getElem]
  intro i j hij
  have hi : i.1 < info.shape.variants.size := by simpa using i.2
  have hj : j.1 < info.shape.variants.size := by simpa using j.2
  have hname : info.shape.variants[i.1].name = info.shape.variants[j.1].name := by simpa using hij
  obtain ⟨term, hget, hc, hterm₁⟩ := hterm (Array.getElem?_eq_getElem hi)
  obtain ⟨term', hget', hc', hterm₂⟩ := hterm (Array.getElem?_eq_getElem hj)
  have hsame : term.name = term'.name := by rw [hterm₁, hterm₂, hname]
  have hfind : s.ruleSet.terms.find? term.name = some _ := h.terms.find? hget
  have hfind' : s.ruleSet.terms.find? term'.name = some _ := h.terms.find? hget'
  rw [hsame, hfind'] at hfind
  rw [← Option.some.inj hfind, hget'] at hget
  rw [← Option.some.inj hget, hc'] at hc
  exact Fin.ext (congrArg VariantRef.index (Constructor.variant.inj hc)).symm

theorem declaredNames_eq : s.declaredNames = ascii "std" ::
    ((s.declaredTypes.map fun info => identifier info.name) ++
      s.internalTerms.map s.constructorName) := by
  rw [declaredNames, declarations, List.map_cons, List.map_append, List.map_map, List.map_map,
    functions, List.map_map]
  rfl

theorem identifier_eq_constructorName_iff {name : Bytes} {t : TermId} :
    identifier name = s.constructorName t ↔ sanitize name = s.constructorName t :=
  identifier_eq_iff_of_not_mem (plain_constructorName t).1 (plain_constructorName t).2

theorem nodup_functions_iff (h : s.ruleSet.Linked) :
    (s.internalTerms.map s.constructorName).Nodup ↔
      ∀ t ∈ s.internalTerms, ∀ u ∈ s.internalTerms,
        sanitize (s.ruleSet.termInfo t).name = sanitize (s.ruleSet.termInfo u).name →
          (s.ruleSet.termInfo t).name = (s.ruleSet.termInfo u).name := by
  have hnodup : s.internalTerms.Nodup := List.nodup_range.filter _
  rw [← nodup_identifiers_iff (nodup_internalTerms h), List.nodup_map_iff_inj_on hnodup,
    List.nodup_map_iff_inj_on hnodup]
  simp only [constructorName_eq_iff, identifier_eq_iff]

theorem nodup_declaredNames_iff (h : s.ruleSet.Linked) :
    s.declaredNames.Nodup ↔
      (∀ info ∈ s.declaredTypes, sanitize info.name ≠ ascii "std") ∧
        (∀ a ∈ s.declaredTypes, ∀ b ∈ s.declaredTypes,
          sanitize a.name = sanitize b.name → a.name = b.name) ∧
        (∀ t ∈ s.internalTerms, ∀ u ∈ s.internalTerms,
          sanitize (s.ruleSet.termInfo t).name = sanitize (s.ruleSet.termInfo u).name →
            (s.ruleSet.termInfo t).name = (s.ruleSet.termInfo u).name) ∧
        ∀ info ∈ s.declaredTypes, ∀ t ∈ s.internalTerms,
          sanitize info.name ≠ s.constructorName t := by
  have hstd : ascii "std" ∉ (s.declaredTypes.map fun info => identifier info.name) ++
      s.internalTerms.map s.constructorName ↔
        ∀ info ∈ s.declaredTypes, sanitize info.name ≠ ascii "std" := by
    have hplain : ∀ b ∈ ascii "std", IsIdentifierByte b := all_isIdentifierByte rfl
    have hfunctions : ascii "std" ∉ s.internalTerms.map s.constructorName := by
      intro hmem
      obtain ⟨t, -, ht⟩ := List.mem_map.mp hmem
      exact constructorName_ne_std t ht
    rw [List.mem_append, or_iff_left hfunctions, List.mem_map]
    simp only [identifier_eq_iff_of_not_mem hplain (by decide), not_exists, not_and, ne_eq]
  rw [declaredNames_eq, List.nodup_cons, hstd, List.nodup_append,
    nodup_identifiers_iff (nodup_declaredTypes h), nodup_functions_iff h]
  simp only [List.forall_mem_map, ne_eq, identifier_eq_constructorName_iff]

theorem binder_not_mem_declaredNames_iff (z : Binder) :
    z.text ∉ s.declaredNames ↔ ∀ info ∈ s.declaredTypes, sanitize info.name ≠ z.text := by
  have hfunctions : z.text ∉ s.internalTerms.map s.constructorName := by
    intro hmem
    obtain ⟨t, -, ht⟩ := List.mem_map.mp hmem
    exact constructorName_ne_binder t z ht
  rw [declaredNames_eq, List.mem_cons, or_iff_right (std_ne_binder z).symm, List.mem_append,
    or_iff_left hfunctions, List.mem_map]
  simp only [identifier_eq_iff_of_not_mem (plain_binder z).1 (plain_binder z).2, not_exists,
    not_and, ne_eq]

theorem nodup_fields_iff {fields : List FieldInfo} :
    (fields.map fun f => identifier f.name).Nodup ↔
      (fields.map FieldInfo.name).Nodup ∧
        ∀ f ∈ fields, ∀ g ∈ fields, sanitize f.name = sanitize g.name → f.name = g.name := by
  constructor
  · intro h
    have hnodup := nodup_of_nodup_identifiers h
    exact ⟨hnodup, (nodup_identifiers_iff hnodup).mp h⟩
  · rintro ⟨hnodup, h⟩
    exact (nodup_identifiers_iff hnodup).mpr h

/-- The names of a module and of its functions clash just where sanitizing merges two names, where
a variant has two fields of one name, or where a type has a name that the generator makes up. This
holds whatever was analysed, with any options. -/
theorem clashFree_iff (batches : List (List Definition)) (options : Options) :
    let s : Setting := ⟨.afterAll batches, options⟩
    (s.ClashFree ↔ s.Separate) ∧
      ∀ inputs, ∃ comments, s.headerText inputs = comments ++ importDeclaration.text ∧
        s.moduleText inputs = comments ++ importDeclaration.text ++ s.contextText ++
          s.declarations.tail.flatMap Declaration.text ∧
        ∀ d ∈ s.declarations, d.Introduces := by
  intro s
  have hlinked : s.ruleSet.Linked := RuleSet.afterAll_linked batches
  have hvariants : ∀ info ∈ s.declaredTypes,
      ((info.shape.variants.toList.map fun v => identifier v.name).Nodup ↔
        ∀ v ∈ info.shape.variants, ∀ w ∈ info.shape.variants,
          sanitize v.name = sanitize w.name → v.name = w.name) := by
    intro info hinfo
    rw [nodup_identifiers_iff (nodup_variants hlinked hinfo)]
    simp only [Array.mem_toList_iff]
  refine ⟨⟨fun h => ?_, fun h => ?_⟩, s.moduleText_declarations⟩
  · obtain ⟨hstd, htypes, hterms, hfunctions⟩ :=
      (nodup_declaredNames_iff hlinked).mp h.declarations
    refine ⟨htypes, hterms, fun info hinfo => (hvariants info hinfo).mp (h.unions info hinfo),
      fun info hinfo v hv => nodup_fields_iff.mp (h.structs info hinfo v hv),
      fun info hinfo => ⟨hstd info hinfo, hfunctions info hinfo, fun f hf z hz => ?_⟩⟩
    exact (binder_not_mem_declaredNames_iff z).mp (h.binders f hf z hz) info hinfo
  · refine ⟨(nodup_declaredNames_iff hlinked).mpr ⟨fun info hinfo => (h.reserved info hinfo).1,
      h.types, h.terms, fun info hinfo => (h.reserved info hinfo).2.1⟩,
      fun info hinfo => (hvariants info hinfo).mpr (h.variants info hinfo),
      fun info hinfo v hv => nodup_fields_iff.mpr (h.fields info hinfo v hv), fun f hf z hz => ?_⟩
    rw [binder_not_mem_declaredNames_iff]
    exact fun info hinfo => (h.reserved info hinfo).2.2 f hf z hz

/-- Two fields `x` of a variant are accepted, and both names stand in its struct. -/
example :
    let name (b : UInt8) : Ident := ⟨[b], .unknown⟩
    let type (b : UInt8) (body : TypeBody) : Definition :=
      .type ⟨name b, false, false, body, .unknown⟩
    let field : Field := ⟨name 120, name 117⟩
    let a := RuleSet.empty.analyze
      [type 117 (.primitive (name 117)), type 84 (.enum [⟨name 86, [field, field]⟩])]
    a.2 = [] ∧ (a.1.types.entries.toList.flatMap fun info => info.shape.variants.toList).map
      (fun v => v.fields.map FieldInfo.name) = [[[120], [120]]] := by
  decide +kernel

end Setting

end Zig

end TermRules

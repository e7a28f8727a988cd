import TermRules.Proofs.RenumberedChecks
import TermRules.Proofs.Runs

/-!
# Entries under renumbering

Entering a type, a variant, a declaration or a template does the same to
corresponding rule sets, and is refused for the same reason.
-/

namespace TermRules

variable {ρ : Renumbering}

/-- Answers for rule sets that correspond, or the same errors at moved places. -/
inductive Attempt.Renumbered (ρ : Renumbering) (before before' : RuleSet) : Attempt → Attempt → Prop
  | ok {rs rs' : RuleSet} (h : rs.Renumbered ρ rs') (rules : rs.rules = before.rules)
      (rules' : rs'.rules = before'.rules) : Renumbered ρ before before' (.ok rs) (.ok rs')
  | error (es : List SemanticError) :
      Renumbered ρ before before' (.error es) (.error (es.map (SemanticError.relocate ρ.move)))

def renumberResult {α β : Type} (ρ : Renumbering) (f : α → β) :
    Except (List SemanticError) α → Except (List SemanticError) β
  | .ok a => .ok (f a)
  | .error es => .error (es.map (SemanticError.relocate ρ.move))

theorem bothOrErrors_renumber {α α' β β' : Type} (f : α → α') (g : β → β')
    (x : Except (List SemanticError) α) (y : Except (List SemanticError) β) :
    bothOrErrors (renumberResult ρ f x) (renumberResult ρ g y) =
      renumberResult ρ (Prod.map f g) (bothOrErrors x y) := by
  cases x <;> cases y <;> simp [bothOrErrors, renumberResult]

def TermInfo.ofVariant (ref : VariantRef) (typeName : Bytes) (v : Variant) (types : List TypeId) :
    TermInfo :=
  ⟨typeName ++ Byte.dot :: v.name.name, types, ref.type, true, false, v.name.loc, .variant ref,
    .variant ref⟩

def VariantInfo.ofVariant (v : Variant) (types : List TypeId) (term : TermId) : VariantInfo :=
  ⟨v.name.name, (v.fields.zip types).map fun (f, t) => ⟨f.name.name, t⟩, term⟩

def TermInfo.ofDecl (d : TermDecl) (args : List TypeId) (ret : TypeId) : TermInfo :=
  ⟨d.term.name, args, ret, d.isPure, d.isPartial, d.loc, .missing, .missing⟩

theorem ofVariant_renumber (v : Variant) (types : List TypeId) {term : TermId}
    (hterm : ρ.term term = term) :
    VariantInfo.ofVariant (v.relocate ρ.move) (types.map ρ.type) term =
      (VariantInfo.ofVariant v types term).renumber ρ := by
  rw [VariantInfo.renumber, VariantInfo.ofVariant, VariantInfo.ofVariant, hterm, Variant.relocate,
    List.zip_map, List.map_map, List.map_map]
  rfl

theorem ofDef_relocate (d : TypeDef) :
    TypeInfo.ofDef (d.relocate ρ.move) = (TypeInfo.ofDef d).renumber ρ := by
  rw [TypeDef.relocate, TypeInfo.ofDef, TypeInfo.ofDef]
  cases d.body with
  | primitive spelling => rfl
  | enum variants => simp [TypeBody.relocate, TypeInfo.renumber, TypeShape.renumber, Ident.relocate]

theorem addVariant_renumber (shape : TypeShape) (v : VariantInfo) :
    (shape.addVariant v).renumber ρ = (shape.renumber ρ).addVariant (v.renumber ρ) := by
  cases shape <;> simp [TypeShape.renumber, TypeShape.addVariant]

def Table.withVariant (types : Table TypeInfo) (type : TypeId) (v : VariantInfo) : Table TypeInfo :=
  types.modify type fun t => { t with shape := t.shape.addVariant v }

theorem Table.find?_withVariant (types : Table TypeInfo) (type : TypeId) (v : VariantInfo)
    (name : Bytes) : (types.withVariant type v).find? name = types.find? name :=
  find?_modify types type (fun _ => by rfl) name

theorem Table.Renumbered.withVariant {types types' : Table TypeInfo}
    (h : types.Renumbered ρ.type (fun t t' => t' = t.renumber ρ) types') {v v' : VariantInfo}
    (hv : v' = v.renumber ρ) (type : TypeId) :
    (types.withVariant type v).Renumbered ρ.type (fun t t' => t' = t.renumber ρ)
      (types'.withVariant (ρ.type type) v') := by
  refine h.modify (fun _ => by rfl) (fun _ => by rfl) type fun t t' _ ht => ?_
  subst hv ht
  rw [TypeInfo.renumber, TypeInfo.renumber, addVariant_renumber]

theorem constructor_missing_iff {c c' : Constructor} (hc : c.Renumbered ρ c') :
    c' = .missing ↔ c = .missing := by
  cases hc <;> simp

theorem extractor_missing_iff (e : Extractor) : e.renumber ρ = .missing ↔ e = .missing := by
  cases e <;> simp [Extractor.renumber]

namespace RuleSet

def addTypeName (d : TypeDef) (rs : RuleSet) : Attempt :=
  match rs.types.insert? (TypeInfo.ofDef d) with
  | some types => .ok { rs with types }
  | none => .error [⟨d.name.loc, .duplicateType d.name.name⟩]

theorem addVariant_eq (type : TypeId) (typeName : Bytes) (v : Variant) (rs : RuleSet) :
    addVariant type typeName v rs =
      match rs.resolveTypes (v.fields.map Field.type) with
      | .error es => .error es
      | .ok types =>
          match rs.terms.insert? (.ofVariant ⟨type, (rs.typeInfo type).shape.variants.size⟩
            typeName v types) with
          | none => .error [⟨v.name.loc, .duplicateTerm (typeName ++ Byte.dot :: v.name.name)⟩]
          | some terms => .ok { rs with
              terms
              types := rs.types.withVariant type (.ofVariant v types rs.terms.size) } := by
  rw [addVariant]
  cases rs.resolveTypes (v.fields.map Field.type) <;> rfl

theorem addDecl_eq (d : TermDecl) (rs : RuleSet) :
    addDecl d rs =
      match bothOrErrors (rs.resolveTypes d.args) (rs.resolveType d.ret) with
      | .error es => .error es
      | .ok (args, ret) =>
          match rs.terms.insert? (.ofDecl d args ret) with
          | some terms => .ok { rs with terms }
          | none => .error [⟨d.term.loc, .duplicateTerm d.term.name⟩] := by
  rw [addDecl]
  rcases bothOrErrors (rs.resolveTypes d.args) (rs.resolveType d.ret) with es | ⟨args, ret⟩ <;> rfl

section Steps

variable {rs rs' : RuleSet} (h : rs.Renumbered ρ rs')
include h

theorem resolveType_renumber (i : Ident) :
    rs'.resolveType (i.relocate ρ.move) = renumberResult ρ ρ.type (rs.resolveType i) := by
  rw [resolveType, resolveType, show (i.relocate ρ.move).name = i.name from rfl, h.types.find]
  cases rs.types.find? i.name <;> rfl

theorem resolveTypes_renumber (is : List Ident) :
    rs'.resolveTypes (is.map (Ident.relocate ρ.move)) =
      renumberResult ρ (List.map ρ.type) (rs.resolveTypes is) := by
  induction is with
  | nil => rfl
  | cons i is ih =>
    rw [List.map_cons, resolveTypes, resolveTypes, resolveType_renumber h, ih,
      bothOrErrors_renumber]
    cases bothOrErrors (rs.resolveType i) (rs.resolveTypes is) <;> rfl

theorem addTypeName_renumber (d : TypeDef) :
    (addTypeName d rs).Renumbered ρ rs rs' (addTypeName (d.relocate ρ.move) rs') := by
  rw [addTypeName, addTypeName, ofDef_relocate]
  cases hinsert : rs.types.insert? (TypeInfo.ofDef d) with
  | none =>
    rw [h.types.insert_none hinsert ((TypeInfo.ofDef d).renumber ρ) rfl]
    exact .error _
  | some types =>
    obtain ⟨types', hinsert', htypes⟩ :=
      h.types.insert_some hinsert ((TypeInfo.ofDef d).renumber ρ) rfl rfl
    rw [hinsert']
    exact .ok { h with types := htypes } rfl rfl

theorem addVariant_renumber (type : TypeId) (typeName : Bytes) (v : Variant) :
    (addVariant type typeName v rs).Renumbered ρ rs rs'
      (addVariant (ρ.type type) typeName (v.relocate ρ.move) rs') := by
  have htypes : rs'.resolveTypes ((v.relocate ρ.move).fields.map Field.type) =
      renumberResult ρ (List.map ρ.type) (rs.resolveTypes (v.fields.map Field.type)) := by
    rw [← resolveTypes_renumber h, Variant.relocate, List.map_map, List.map_map]
    rfl
  have hsize : (rs'.typeInfo (ρ.type type)).shape.variants.size =
      (rs.typeInfo type).shape.variants.size := by
    rw [h.typeInfo, TypeInfo.renumber, variants_renumber, Array.size_map]
  rw [addVariant_eq, addVariant_eq, htypes, hsize, h.terms.size]
  cases rs.resolveTypes (v.fields.map Field.type) with
  | error es => exact .error es
  | ok types =>
    dsimp only [renumberResult]
    generalize (rs.typeInfo type).shape.variants.size = index
    have hterm : (TermInfo.ofVariant ⟨type, index⟩ typeName v types).Renumbered ρ
        (.ofVariant ⟨ρ.type type, index⟩ typeName (v.relocate ρ.move) (types.map ρ.type)) :=
      ⟨rfl, rfl, rfl, rfl, rfl, rfl, .variant ⟨type, index⟩, rfl⟩
    have hinfo := ofVariant_renumber v types (h.terms.fresh _ (Nat.le_refl _))
    cases hinsert : rs.terms.insert? (.ofVariant ⟨type, index⟩ typeName v types) with
    | none =>
      rw [h.terms.insert_none hinsert _ hterm.name]
      exact .error _
    | some terms =>
      obtain ⟨terms', hinsert', hterms⟩ := h.terms.insert_some hinsert _ hterm hterm.name
      rw [hinsert']
      exact .ok ⟨h.types.withVariant hinfo type, hterms, h.templateCount, h.freshTemplate,
        h.templates⟩ rfl rfl

theorem addDecl_renumber (d : TermDecl) :
    (addDecl d rs).Renumbered ρ rs rs' (addDecl (d.relocate ρ.move) rs') := by
  have htypes : bothOrErrors (rs'.resolveTypes (d.relocate ρ.move).args)
      (rs'.resolveType (d.relocate ρ.move).ret) =
      renumberResult ρ (Prod.map (List.map ρ.type) ρ.type)
        (bothOrErrors (rs.resolveTypes d.args) (rs.resolveType d.ret)) := by
    rw [← bothOrErrors_renumber, ← resolveTypes_renumber h, ← resolveType_renumber h]
    rfl
  rw [addDecl_eq, addDecl_eq, htypes]
  rcases bothOrErrors (rs.resolveTypes d.args) (rs.resolveType d.ret) with es | ⟨args, ret⟩
  · exact .error es
  · dsimp only [renumberResult, Prod.map_apply]
    have hterm : (TermInfo.ofDecl d args ret).Renumbered ρ
        (.ofDecl (d.relocate ρ.move) (args.map ρ.type) (ρ.type ret)) :=
      ⟨rfl, rfl, rfl, rfl, rfl, rfl, .missing, rfl⟩
    cases hinsert : rs.terms.insert? (.ofDecl d args ret) with
    | none =>
      rw [h.terms.insert_none hinsert _ hterm.name]
      exact .error _
    | some terms =>
      obtain ⟨terms', hinsert', hterms⟩ := h.terms.insert_some hinsert _ hterm hterm.name
      rw [hinsert']
      exact .ok ⟨h.types, hterms, h.templateCount, h.freshTemplate, h.templates⟩ rfl rfl

theorem Renumbered.setConstructor {c c' : Constructor} (hc : c.Renumbered ρ c') (term : TermId) :
    (rs.setConstructor term c).Renumbered ρ (rs'.setConstructor (ρ.term term) c') where
  types := h.types
  terms := h.terms.modify (fun _ => by rfl) (fun _ => by rfl) term fun _ _ _ ht =>
    { ht with constructor := hc }
  templateCount := h.templateCount
  freshTemplate := h.freshTemplate
  templates := h.templates

theorem Renumbered.setExtractor {e e' : Extractor} (he : e' = e.renumber ρ) (term : TermId) :
    (rs.setExtractor term e).Renumbered ρ (rs'.setExtractor (ρ.term term) e') where
  types := h.types
  terms := h.terms.modify (fun _ => by rfl) (fun _ => by rfl) term fun _ _ _ ht =>
    { ht with extractor := he }
  templateCount := h.templateCount
  freshTemplate := h.freshTemplate
  templates := h.templates

theorem addExternal_renumber (d : ExternalDef) :
    (addExternal d rs).Renumbered ρ rs rs' (addExternal (d.relocate ρ.move) rs') := by
  have hname : (d.relocate ρ.move).term.name = d.term.name := rfl
  rw [addExternal, addExternal, hname, h.terms.find]
  cases rs.terms.find? d.term.name with
  | none => exact .error _
  | some term =>
    have hterm := h.termInfo term
    have hkind : (d.relocate ρ.move).kind = d.kind := rfl
    simp only [Option.map_some, hkind, hterm.name, hterm.extractor]
    cases d.kind with
    | constructor =>
      dsimp only
      rw [if_congr (constructor_missing_iff hterm.constructor) rfl rfl]
      split_ifs
      · exact .ok (h.setConstructor (.external _ _) term) rfl rfl
      · exact .error _
    | extractor infallible =>
      dsimp only
      rw [if_congr (extractor_missing_iff _) rfl rfl]
      split_ifs
      · exact .ok (h.setExtractor rfl term) rfl rfl
      · exact .error _

theorem Renumbered.pushTemplate (d : Template) (term : TermId) :
    RuleSet.Renumbered ρ
      { rs.setExtractor term (.template rs.templates.size d.loc) with
        templates := rs.templates.push d }
      { rs'.setExtractor (ρ.term term) (.template rs.templates.size (ρ.move d.loc)) with
        templates := rs'.templates.push (d.relocate ρ.move) } := by
  have hnext : ρ.template rs.templates.size = rs.templates.size :=
    h.freshTemplate _ (Nat.le_refl _)
  have hset := h.setExtractor (e := .template rs.templates.size d.loc) rfl term
  rw [Extractor.renumber, hnext] at hset
  refine ⟨hset.types, hset.terms, ?_, fun i hi => ?_, fun i => ?_⟩
  · rw [Array.size_push, Array.size_push, h.templateCount]
  · rw [Array.size_push] at hi
    exact h.freshTemplate i (by omega)
  · have hiff : ρ.template i = rs.templates.size ↔ i = rs.templates.size := by
      rw [← ρ.template.apply_eq_iff_eq (x := i), hnext]
    rw [Array.getElem?_push, Array.getElem?_push, h.templateCount, if_congr hiff rfl rfl]
    split_ifs
    · rfl
    · exact h.templates i

theorem addTemplate_renumber (d : Template) :
    (addTemplate d rs).Renumbered ρ rs rs' (addTemplate (d.relocate ρ.move) rs') := by
  have hname : (d.relocate ρ.move).term.name = d.term.name := rfl
  have hparams : (d.relocate ρ.move).params.length = d.params.length := List.length_map _
  rw [addTemplate, addTemplate, hname, h.terms.find]
  cases rs.terms.find? d.term.name with
  | none => exact .error _
  | some term =>
    have hterm := h.termInfo term
    simp only [Option.map_some, hparams, hterm.name, hterm.args, hterm.extractor, List.length_map,
      ne_eq, extractor_missing_iff, h.templateCount]
    split_ifs
    · exact .ok (h.pushTemplate d term) rfl rfl
    · exact .error _
    · exact .error _

theorem markInternal_renumber (r : Rule) :
    (rs.markInternal r).Renumbered ρ (rs'.markInternal (r.relocate ρ.move)) := by
  have hpattern : (r.relocate ρ.move).pattern = r.pattern.relocate ρ.move := rfl
  rw [markInternal, markInternal, hpattern]
  cases r.pattern with
  | term loc name args =>
    simp only [Pattern.relocate, h.terms.find]
    cases rs.terms.find? name with
    | none => exact h
    | some term =>
      dsimp only [Option.map_some]
      rw [if_congr (constructor_missing_iff (h.termInfo term).constructor) rfl rfl]
      split_ifs
      · exact h.setConstructor (.internal _ _) term
      · exact h
  | _ => exact h

theorem foldl_markInternal_renumber (rules : List Rule) :
    (rules.foldl markInternal rs).Renumbered ρ
      ((rules.map (Rule.relocate ρ.move)).foldl markInternal rs') := by
  induction rules generalizing rs rs' with
  | nil => exact h
  | cons r rules ih => exact ih (markInternal_renumber h r)

omit h in
theorem rules_markInternal (rs : RuleSet) (r : Rule) : (rs.markInternal r).rules = rs.rules := by
  rw [markInternal]
  split
  · split
    · split_ifs <;> rfl
    · rfl
  · rfl

omit h in
theorem rules_foldl_markInternal (rules : List Rule) :
    (rules.foldl markInternal rs).rules = rs.rules := by
  induction rules generalizing rs with
  | nil => rfl
  | cons r rules ih => rw [List.foldl_cons, ih, rules_markInternal]

theorem checkRule_renumber (r : Rule) (order : Nat) :
    Check.rule rs' (r.relocate ρ.move) order =
      renumberResult ρ (CheckedRule.renumber ρ) (Check.rule rs r order) := by
  rw [Check.rule_renumber h]
  cases Check.rule rs r order <;> rfl

end Steps

end RuleSet

end TermRules

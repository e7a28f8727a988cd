import TermRules.Proofs.RenumberedLowering
import TermRules.Zig.Module

/-!
# Code under renumbering

The text of renumbered statements is the same to the byte, since numbers are
written nowhere.
-/

namespace TermRules.Zig

variable (ρ : Renumbering)

namespace Setting

variable {ρ} {rs rs' : RuleSet} (h : rs.Renumbered ρ rs') (options : Options)
include h

theorem typeName_renumber (type : TypeId) :
    (Setting.mk rs' options).typeName (ρ.type type) = (Setting.mk rs options).typeName type := by
  rw [typeName, typeName, h.typeInfo, TypeInfo.renumber]
  cases (rs.typeInfo type).shape <;> rfl

theorem constructorName_renumber (term : TermId) :
    (Setting.mk rs' options).constructorName (ρ.term term) =
      (Setting.mk rs options).constructorName term := by
  rw [constructorName, constructorName, (h.termInfo term).name]

omit options in
theorem variantInfo_renumber (ref : VariantRef) :
    (rs'.variantInfo (ref.renumber ρ)).name = (rs.variantInfo ref).name ∧
      (rs'.variantInfo (ref.renumber ρ)).fields =
        (rs.variantInfo ref).fields.map (FieldInfo.renumber ρ) := by
  rw [RuleSet.variantInfo, RuleSet.variantInfo,
    show (ref.renumber ρ).type = ρ.type ref.type from rfl,
    show (ref.renumber ρ).index = ref.index from rfl, h.typeInfo, TypeInfo.renumber,
    variants_renumber, Array.getElem?_map]
  cases (rs.typeInfo ref.type).shape.variants[ref.index]? <;> exact ⟨rfl, rfl⟩

theorem tag_renumber (ref : VariantRef) :
    (Setting.mk rs' options).tag (ref.renumber ρ) = (Setting.mk rs options).tag ref := by
  rw [tag, tag, (variantInfo_renumber h ref).1]

theorem fieldNames_renumber (ref : VariantRef) :
    (Setting.mk rs' options).fieldNames (ref.renumber ρ) =
      (Setting.mk rs options).fieldNames ref := by
  rw [fieldNames, fieldNames, (variantInfo_renumber h ref).2, List.map_map]
  rfl

theorem buildMethod_renumber (term : TermId) :
    (Setting.mk rs' options).buildMethod (ρ.term term) =
      (Setting.mk rs options).buildMethod term := by
  rw [buildMethod, buildMethod]
  have hconstructor := (h.termInfo term).constructor
  generalize (rs.termInfo term).constructor = c, (rs'.termInfo (ρ.term term)).constructor = c'
    at hconstructor
  cases hconstructor <;> rfl

theorem matchMethod_renumber (term : TermId) :
    (Setting.mk rs' options).matchMethod (ρ.term term) =
      (Setting.mk rs options).matchMethod term := by
  rw [matchMethod, matchMethod, (h.termInfo term).extractor]
  cases (rs.termInfo term).extractor <;> rfl

theorem variantText_renumber (ref : VariantRef) (args : List Bytes) :
    (Setting.mk rs' options).variantText (ref.renumber ρ) args =
      (Setting.mk rs options).variantText ref args := by
  rw [variantText, variantText, fieldNames_renumber h, tag_renumber h,
    show (ref.renumber ρ).type = ρ.type ref.type from rfl, typeName_renumber h]

omit h in
mutual

theorem valueText_renumber (h : rs.Renumbered ρ rs') (options : Options) : ∀ v : Value,
    (Setting.mk rs' options).valueText (v.renumber ρ) = (Setting.mk rs options).valueText v
  | .param _ | .temp _ | .int _ | .bool _ | .undefined => rfl
  | .payload base ref field => by
    rw [Value.renumber, valueText, valueText, valueText_renumber h options base, tag_renumber h,
      fieldNames_renumber h]
  | .component base i => by
    rw [Value.renumber, valueText, valueText, valueText_renumber h options base]
  | .variant ref args => by
    rw [Value.renumber, valueText, valueText, valueTexts_renumber h options args,
      variantText_renumber h]
  | .construct term args => by
    rw [Value.renumber, valueText, valueText, valueTexts_renumber h options args,
      constructorName_renumber h]
  | .contextBuild term args => by
    rw [Value.renumber, valueText, valueText, valueTexts_renumber h options args,
      buildMethod_renumber h]
  | .contextMatch term arg => by
    rw [Value.renumber, valueText, valueText, valueText_renumber h options arg,
      matchMethod_renumber h]

theorem valueTexts_renumber (h : rs.Renumbered ρ rs') (options : Options) : ∀ vs : List Value,
    (Setting.mk rs' options).valueTexts (Value.renumberAll ρ vs) =
      (Setting.mk rs options).valueTexts vs
  | [] => rfl
  | v :: vs => by
    rw [Value.renumberAll, valueTexts, valueTexts, valueText_renumber h options v,
      valueTexts_renumber h options vs]

end

theorem conditionText_renumber (c : Condition) :
    (Setting.mk rs' options).conditionText (c.renumber ρ) =
      (Setting.mk rs options).conditionText c := by
  cases c <;> simp only [Condition.renumber, conditionText, valueText_renumber h, tag_renumber h]

theorem statementText_renumber (index : Nat) (t : Statement) :
    (Setting.mk rs' options).statementText index (t.renumber ρ) =
      (Setting.mk rs options).statementText index t := by
  cases t with
  | const temp type v orBreak =>
    cases type <;>
      simp only [Statement.renumber, statementText, Option.map_none, Option.map_some,
        valueText_renumber h, typeName_renumber h]
  | breakIf c => rw [Statement.renumber, statementText, statementText, conditionText_renumber h]
  | discard v | ret v => rw [Statement.renumber, statementText, statementText, valueText_renumber h]

theorem blockText_renumber (b : Block) :
    (Setting.mk rs' options).blockText (b.renumber ρ) = (Setting.mk rs options).blockText b := by
  have hbody : ((b.renumber ρ).body.flatMap fun t =>
      lineText "        " ((Setting.mk rs' options).statementText b.index t)) =
      b.body.flatMap fun t =>
        lineText "        " ((Setting.mk rs options).statementText b.index t) := by
    rw [Block.renumber, List.flatMap_map]
    simp only [statementText_renumber h]
  rw [blockText, blockText, b.breaks_renumber, show (b.renumber ρ).index = b.index from rfl,
    show (b.renumber ρ).ruleName = b.ruleName from rfl, hbody]

section Terms

variable {term term' : TermInfo} (hterm : term.Renumbered ρ term')
include hterm

theorem typeNames_renumber :
    term'.args.map (Setting.mk rs' options).typeName =
      term.args.map (Setting.mk rs options).typeName := by
  rw [hterm.args, List.map_map]
  exact List.map_congr_left fun type _ => typeName_renumber h options type

theorem returnTypeText_renumber :
    (Setting.mk rs' options).returnTypeText term' =
      (Setting.mk rs options).returnTypeText term := by
  rw [returnTypeText, returnTypeText, hterm.isPartial, hterm.ret, typeName_renumber h]

theorem resultsText_renumber :
    (Setting.mk rs' options).resultsText term' = (Setting.mk rs options).resultsText term := by
  have htypes := typeNames_renumber h options hterm
  rw [resultsText, resultsText]
  rw [hterm.args] at htypes ⊢
  generalize term.args = types at htypes
  rcases types with _ | ⟨type, _ | ⟨type', types⟩⟩
  · rfl
  · exact (List.cons.inj htypes).1
  · exact congrArg (ascii "struct \x7b " ++ commaSeparated · ++ ascii " \x7d") htypes

theorem buildEntry?_renumber :
    Setting.buildEntry? ⟨rs', options⟩ term' = Setting.buildEntry? ⟨rs, options⟩ term := by
  have hconstructor := hterm.constructor
  rw [ buildEntry?, buildEntry?, typeNames_renumber h options hterm,
    returnTypeText_renumber h options hterm]
  generalize term.constructor = c, term'.constructor = c' at hconstructor
  cases hconstructor <;> rfl

theorem matchEntry?_renumber :
    Setting.matchEntry? ⟨rs', options⟩ term' = Setting.matchEntry? ⟨rs, options⟩ term := by
  have hempty : term'.args.isEmpty = term.args.isEmpty := by rw [hterm.args, List.isEmpty_map]
  rw [ matchEntry?, matchEntry?, resultsText_renumber h options hterm, hempty, hterm.ret,
    typeName_renumber h, hterm.extractor]
  cases term.extractor <;> rfl

end Terms

theorem functionText_renumber (f : Function) :
    (Setting.mk rs' options).functionText (f.renumber ρ) =
      (Setting.mk rs options).functionText f := by
  have hterm := h.termInfo f.term
  have hparams : (rs'.termInfo (ρ.term f.term)).args.mapIdx (Setting.mk rs' options).paramText =
      (rs.termInfo f.term).args.mapIdx (Setting.mk rs options).paramText := by
    refine List.ext_getElem? fun i => ?_
    rw [hterm.args, List.getElem?_mapIdx, List.getElem?_mapIdx, List.getElem?_map, Option.map_map]
    congr 1
    funext type
    rw [Function.comp_apply, paramText, paramText, typeName_renumber h]
  have hlength : (rs'.termInfo (ρ.term f.term)).args.length =
      (rs.termInfo f.term).args.length := by
    rw [hterm.args, List.length_map]
  have hblocks : (f.renumber ρ).blocks.flatMap (Setting.mk rs' options).blockText =
      f.blocks.flatMap (Setting.mk rs options).blockText := by
    rw [Function.renumber, List.flatMap_map]
    simp only [blockText_renumber h]
  have hpartial : fallThroughText (rs'.termInfo (ρ.term f.term)) =
      fallThroughText (rs.termInfo f.term) := by
    rw [fallThroughText, fallThroughText, hterm.isPartial, hterm.name]
  rw [functionText, functionText, show (f.renumber ρ).term = ρ.term f.term from rfl, hblocks]
  dsimp only
  rw [hparams, hlength, hpartial, constructorName_renumber h,
    returnTypeText_renumber h options hterm]
  rfl

theorem fieldText_renumber (f : FieldInfo) :
    (Setting.mk rs' options).fieldText (f.renumber ρ) = (Setting.mk rs options).fieldText f := by
  rw [fieldText, fieldText, show (f.renumber ρ).type = ρ.type f.type from rfl, typeName_renumber h]
  rfl

theorem variantDeclText_renumber (v : VariantInfo) :
    (Setting.mk rs' options).variantDeclText (v.renumber ρ) =
      (Setting.mk rs options).variantDeclText v := by
  have hfields : (v.renumber ρ).fields.map (Setting.mk rs' options).fieldText =
      v.fields.map (Setting.mk rs options).fieldText := by
    rw [VariantInfo.renumber, List.map_map]
    exact List.map_congr_left fun f _ => fieldText_renumber h options f
  rw [variantDeclText, variantDeclText, show (v.renumber ρ).name = v.name from rfl]
  rw [VariantInfo.renumber] at hfields ⊢
  dsimp only at hfields ⊢
  generalize v.fields = fields at hfields
  cases fields with
  | nil => rfl
  | cons f fs =>
    exact congrArg (fun texts => lineText "    " (identifier v.name ++ ascii ": " ++
      (ascii "struct \x7b " ++ commaSeparated texts ++ ascii " \x7d") ++ ascii ",")) hfields

theorem typeDeclText_renumber (info : TypeInfo) :
    (Setting.mk rs' options).typeDeclText (info.renumber ρ) =
      (Setting.mk rs options).typeDeclText info := by
  rw [typeDeclText, typeDeclText, TypeInfo.renumber]
  split_ifs
  · rfl
  · cases info.shape with
    | builtin spelling => rfl
    | primitive spelling => rfl
    | enum variants =>
      have hvariants : (variants.map (VariantInfo.renumber ρ)).toList.flatMap
          (Setting.mk rs' options).variantDeclText =
          variants.toList.flatMap (Setting.mk rs options).variantDeclText := by
        rw [Array.toList_map, List.flatMap_map]
        simp only [variantDeclText_renumber h]
      dsimp only [TypeShape.renumber]
      rw [hvariants]

end Setting

end TermRules.Zig

import TermRules.Proofs.ClosedModules
import TermRules.Proofs.GuardedLowering
import TermRules.Proofs.Identifiers
import TermRules.Proofs.RuleOrder

/-!
# Text from what is there

The text of a module names types, terms, variants and fields by number. In its
guarded form it fails wherever such a number has no entry. Where code is legible,
the guarded text is there and it is the text.
-/

namespace TermRules.Zig

namespace Setting

variable (s : Setting)

def typeName? (type : TypeId) : Option Bytes := do
  let info ← s.ruleSet.types.get? type
  return match info.shape with
    | .builtin spelling => spelling
    | .primitive spelling =>
        if info.isExternal || info.name = spelling then spelling else identifier info.name
    | .enum _ => identifier info.name

def constructorName? (term : TermId) : Option Bytes := do
  let info ← s.ruleSet.terms.get? term
  return ascii "constructor_" ++ s.options.segments.flatMap (sanitize · ++ ascii "_") ++
    sanitize info.name

def buildMethod? (term : TermId) : Option Bytes := do
  match (← s.ruleSet.terms.get? term).constructor with
  | .external function _ => some (identifier function)
  | _ => none

def matchMethod? (term : TermId) : Option Bytes := do
  match (← s.ruleSet.terms.get? term).extractor with
  | .external function _ _ => some (identifier function)
  | _ => none

def assignments? : List FieldInfo → List Bytes → Option (List Bytes)
  | _, [] => some []
  | [], _ :: _ => none
  | f :: fs, arg :: args => do
      return (ascii "." ++ identifier f.name ++ ascii " = " ++ arg) :: (← assignments? fs args)

def payloadText? : List FieldInfo → List Bytes → Option Bytes
  | [], _ => some (ascii "\x7b\x7d")
  | fields, args => do
      return ascii ".\x7b " ++ commaSeparated (← assignments? fields args) ++ ascii " \x7d"

def variantText? (ref : VariantRef) (args : List Bytes) : Option Bytes := do
  let variant ← s.ruleSet.variant? ref
  let type ← s.typeName? ref.type
  let payload ← payloadText? variant.fields args
  return type ++ ascii "\x7b ." ++ identifier variant.name ++ ascii " = " ++ payload ++
    ascii " \x7d"

mutual

def valueText? : Value → Option Bytes
  | .param i => some (paramName i)
  | .temp i => some (tempName i)
  | .int n => some n.text
  | .bool b => some (if b then ascii "true" else ascii "false")
  | .payload base ref field => do
      let variant ← s.ruleSet.variant? ref
      let f ← variant.fields[field]?
      return (← valueText? base) ++ ascii "." ++ identifier variant.name ++ ascii "." ++
        identifier f.name
  | .component base i => do return (← valueText? base) ++ ascii "[" ++ decimal i ++ ascii "]"
  | .variant ref args => do s.variantText? ref (← valueTexts? args)
  | .construct term args => do
      return callText (← s.constructorName? term) (ascii "ctx" :: (← valueTexts? args))
  | .contextBuild term args => do
      return callText (ascii "ctx." ++ (← s.buildMethod? term)) (← valueTexts? args)
  | .contextMatch term arg => do
      return callText (ascii "ctx." ++ (← s.matchMethod? term)) [← valueText? arg]
  | .undefined => none

def valueTexts? : List Value → Option (List Bytes)
  | [] => some []
  | v :: vs => do return (← valueText? v) :: (← valueTexts? vs)

end

def conditionText? : Condition → Option Bytes
  | .differ a b => do return (← s.valueText? a) ++ ascii " != " ++ (← s.valueText? b)
  | .differDeeply a b => do
      return ascii "!" ++ callText (ascii "std.meta.eql") [← s.valueText? a, ← s.valueText? b]
  | .otherTag v ref => do
      return (← s.valueText? v) ++ ascii " != ." ++ identifier (← s.ruleSet.variant? ref).name
  | .isTrue v => s.valueText? v
  | .isFalse v => do return ascii "!" ++ (← s.valueText? v)

def annotation? : Option TypeId → Option Bytes
  | some type => do return ascii ": " ++ (← s.typeName? type)
  | none => some []

def statementText? (index : Nat) : Statement → Option Bytes
  | .const temp type value orBreak => do
      return ascii "const " ++ tempName temp ++ (← s.annotation? type) ++ ascii " = " ++
        (← s.valueText? value) ++ (if orBreak then ascii " orelse " ++ breakText index else []) ++
        ascii ";"
  | .breakIf c => do
      return ascii "if (" ++ (← s.conditionText? c) ++ ascii ") " ++ breakText index ++ ascii ";"
  | .discard v => do return ascii "_ = " ++ (← s.valueText? v) ++ ascii ";"
  | .ret v => do return ascii "return " ++ (← s.valueText? v) ++ ascii ";"

def blockText? (b : Block) : Option Bytes := do
  let lines ← b.body.mapM (s.statementText? b.index)
  return (match b.ruleName with
      | some name => lineText "    " (ascii "// " ++ name)
      | none => []) ++
    lineText "    " (if b.breaks then label b.index ++ ascii ": \x7b" else ascii "\x7b") ++
    lines.flatMap (lineText "        ") ++
    lineText "    " (ascii "\x7d")

def returnTypeText? (term : TermInfo) : Option Bytes := do
  return (if term.isPartial then ascii "?" else []) ++ (← s.typeName? term.ret)

def functionText? (f : Function) : Option Bytes := do
  let term ← s.ruleSet.terms.get? f.term
  let name ← s.constructorName? f.term
  let types ← term.args.mapM s.typeName?
  let result ← s.returnTypeText? term
  let blocks ← f.blocks.mapM s.blockText?
  let params := types.mapIdx fun i type => ascii ", " ++ paramName i ++ ascii ": " ++ type
  return lineText "" (ascii "pub fn " ++ name ++ ascii "(ctx: anytype" ++ params.flatten ++
      ascii ") " ++ result ++ ascii " \x7b") ++
    (f.headDiscards term.args.length).flatMap (fun z => lineText "    " (discardText z.text)) ++
    blocks.flatten ++
    (if f.fallsThrough then lineText "    " (fallThroughText term) else []) ++
    lineText "" (ascii "\x7d")

def buildEntries? (term : TermInfo) : Option (List Bytes) :=
  match term.constructor with
  | .external function _ => do
      let args ← term.args.mapM s.typeName?
      return [callText (ascii "ctx." ++ identifier function) args ++ ascii " " ++
        (← s.returnTypeText? term)]
  | _ => some []

def resultsText? (term : TermInfo) : Option Bytes := do
  match ← term.args.mapM s.typeName? with
  | [] => return ascii "bool"
  | [type] => return type
  | types => return ascii "struct \x7b " ++ commaSeparated types ++ ascii " \x7d"

def matchEntries? (term : TermInfo) : Option (List Bytes) :=
  match term.extractor with
  | .external function infallible _ => do
      return [callText (ascii "ctx." ++ identifier function) [← s.typeName? term.ret] ++
        ascii " " ++ (if infallible || term.args.isEmpty then [] else ascii "?") ++
        (← s.resultsText? term)]
  | _ => some []

def contextText? : Option Bytes := do
  let entries ← s.ruleSet.terms.entries.toList.mapM fun term => do
    return (← s.buildEntries? term) ++ (← s.matchEntries? term)
  return match entries.flatten with
    | [] => []
    | entries =>
        lineText "" [] ++ lineText "" (ascii "// Context interface: `ctx` must provide") ++
          entries.flatMap fun entry => lineText "//   " entry

def variantDeclText? (v : VariantInfo) : Option Bytes := do
  let fields ← v.fields.mapM fun f => do
    return identifier f.name ++ ascii ": " ++ (← s.typeName? f.type)
  let payload :=
    match fields with
    | [] => ascii "void"
    | fields => ascii "struct \x7b " ++ commaSeparated fields ++ ascii " \x7d"
  return lineText "    " (identifier v.name ++ ascii ": " ++ payload ++ ascii ",")

def typeDeclText? (info : TypeInfo) : Option Bytes :=
  match info.isExternal, info.shape with
  | false, .enum variants => do
      let lines ← variants.toList.mapM s.variantDeclText?
      return lineText "" [] ++
        lineText "" (ascii "pub const " ++ identifier info.name ++ ascii " = union(enum) \x7b") ++
        lines.flatten ++ lineText "" (ascii "\x7d;")
  | _, _ => some (s.typeDeclText info)

def functionsText? : Option Bytes := do
  let texts ← s.internalTerms.mapM fun term => do
    let f ← Function.ofTerm? s.ruleSet term
    return lineText "" [] ++ (← s.functionText? f)
  return texts.flatten

def moduleText? (inputs : List Bytes) : Option Bytes := do
  let context ← s.contextText?
  let types ← s.ruleSet.types.entries.toList.mapM s.typeDeclText?
  let functions ← s.functionsText?
  return s.headerText inputs ++ context ++ types.flatten ++ functions

section Texts

variable {s}

theorem mapM_eq_map {α β : Type} {f : α → Option β} {g : α → β} {l : List α}
    (h : ∀ a ∈ l, f a = some (g a)) : l.mapM f = some (l.map g) := by
  induction l with
  | nil => rfl
  | cons a l ih =>
    obtain ⟨ha, hl⟩ := List.forall_mem_cons.mp h
    rw [List.mapM_cons, ha, ih hl]
    rfl

theorem variant?_eq_some {rs : RuleSet} {ref : VariantRef} {variant : VariantInfo}
    (h : rs.variant? ref = some variant) :
    (∃ type, rs.types.get? ref.type = some type) ∧ rs.variantInfo ref = variant := by
  obtain ⟨type, htype, hvariant⟩ := Option.bind_eq_some_iff.mp h
  refine ⟨⟨type, htype⟩, ?_⟩
  rw [RuleSet.variantInfo, RuleSet.typeInfo_of_get? htype, hvariant, Option.getD_some]

theorem typeName?_eq {type : TypeId} {info : TypeInfo}
    (h : s.ruleSet.types.get? type = some info) : s.typeName? type = some (s.typeName type) := by
  rw [typeName?, typeName, RuleSet.typeInfo_of_get? h, h]
  rfl

theorem constructorName?_eq {term : TermId} {info : TermInfo}
    (h : s.ruleSet.terms.get? term = some info) :
    s.constructorName? term = some (s.constructorName term) := by
  rw [constructorName?, constructorName, RuleSet.termInfo_of_get? h, h]
  rfl

theorem buildMethod?_eq {term : TermId} {info : TermInfo} {function : Bytes} {loc : Loc}
    (h : s.ruleSet.terms.get? term = some info) (hc : info.constructor = .external function loc) :
    s.buildMethod? term = some (s.buildMethod term) := by
  rw [buildMethod?, buildMethod, RuleSet.termInfo_of_get? h, h]
  simp only [Option.bind_eq_bind, Option.bind_some, hc]

theorem matchMethod?_eq {term : TermId} {info : TermInfo} {function : Bytes} {infallible : Bool}
    {loc : Loc} (h : s.ruleSet.terms.get? term = some info)
    (he : info.extractor = .external function infallible loc) :
    s.matchMethod? term = some (s.matchMethod term) := by
  rw [matchMethod?, matchMethod, RuleSet.termInfo_of_get? h, h]
  simp only [Option.bind_eq_bind, Option.bind_some, he]

theorem assignments?_eq : ∀ {fields : List FieldInfo} {args : List Bytes},
    args.length ≤ fields.length →
      assignments? fields args =
        some (((fields.map fun f => identifier f.name).zip args).map fun (name, arg) =>
          ascii "." ++ name ++ ascii " = " ++ arg)
  | [], [], _ => rfl
  | _ :: _, [], _ => rfl
  | f :: fs, arg :: args, h => by
      rw [assignments?, assignments?_eq (Nat.le_of_succ_le_succ h)]
      rfl

theorem variantText?_eq {ref : VariantRef} {variant : VariantInfo} {args : List Bytes}
    (h : s.ruleSet.variant? ref = some variant) (hargs : args.length ≤ variant.fields.length) :
    s.variantText? ref args = some (s.variantText ref args) := by
  obtain ⟨⟨type, htype⟩, hinfo⟩ := variant?_eq_some h
  rw [variantText?, variantText, fieldNames, tag, hinfo, h, typeName?_eq htype]
  simp only [Option.bind_eq_bind, Option.bind_some]
  cases hfields : variant.fields with
  | nil => rfl
  | cons f fs =>
    rw [hfields] at hargs
    rw [payloadText?, assignments?_eq hargs]
    · rfl
    · simp

variable {arity : Nat} {locals : List Nat}

mutual

theorem valueText?_eq : ∀ {v : Value}, v.Legible s.ruleSet arity locals →
    s.valueText? v = some (s.valueText v)
  | .param _, _ => rfl
  | .temp _, _ => rfl
  | .int _, _ => rfl
  | .bool _, _ => rfl
  | .payload base ref field, ⟨⟨variant, hvariant, hfield⟩, hbase⟩ => by
      have hname : (s.fieldNames ref)[field]? = some (identifier (variant.fields[field]).name) := by
        rw [fieldNames, (variant?_eq_some hvariant).2, List.getElem?_map,
          List.getElem?_eq_getElem hfield, Option.map_some]
      rw [valueText?, valueText, valueText?_eq hbase, hvariant, hname, tag,
        (variant?_eq_some hvariant).2, Option.getD_some]
      simp only [Option.bind_eq_bind, Option.bind_some, List.getElem?_eq_getElem hfield]
      rfl
  | .component base i, h => by
      rw [valueText?, valueText, valueText?_eq (v := base) h]
      rfl
  | .variant ref args, ⟨⟨variant, hvariant, hlength⟩, hargs⟩ => by
      obtain ⟨htexts, hcount⟩ := valueTexts?_eq hargs
      rw [valueText?, valueText, htexts]
      exact variantText?_eq hvariant (by rwa [hcount])
  | .construct term args, ⟨⟨info, hinfo⟩, hargs⟩ => by
      rw [valueText?, valueText, (valueTexts?_eq hargs).1, constructorName?_eq hinfo]
      rfl
  | .contextBuild term args, ⟨⟨info, function, loc, hinfo, hc⟩, hargs⟩ => by
      rw [valueText?, valueText, (valueTexts?_eq hargs).1, buildMethod?_eq hinfo hc]
      rfl
  | .contextMatch term arg, ⟨⟨info, function, infallible, loc, hinfo, he⟩, harg⟩ => by
      rw [valueText?, valueText, valueText?_eq harg, matchMethod?_eq hinfo he]
      rfl

theorem valueTexts?_eq : ∀ {vs : List Value}, Value.LegibleAll s.ruleSet arity locals vs →
    s.valueTexts? vs = some (s.valueTexts vs) ∧ (s.valueTexts vs).length = vs.length
  | [], _ => ⟨rfl, rfl⟩
  | v :: vs, ⟨hv, hvs⟩ => by
      obtain ⟨htexts, hlength⟩ := valueTexts?_eq hvs
      rw [valueTexts?, valueTexts, valueText?_eq hv, htexts]
      exact ⟨rfl, congrArg (· + 1) hlength⟩

end

theorem conditionText?_eq {c : Condition} (h : c.Legible s.ruleSet arity locals) :
    s.conditionText? c = some (s.conditionText c) := by
  cases c with
  | differ a b | differDeeply a b =>
    rw [conditionText?, conditionText, valueText?_eq h.1, valueText?_eq h.2]
    rfl
  | otherTag v ref =>
    obtain ⟨hv, variant, hvariant⟩ := h
    rw [conditionText?, conditionText, valueText?_eq hv, hvariant, tag,
      (variant?_eq_some hvariant).2]
    rfl
  | isTrue v => exact valueText?_eq h
  | isFalse v =>
    rw [conditionText?, conditionText, valueText?_eq (v := v) h]
    rfl

theorem statementText?_eq {t : Statement} (h : t.Legible s.ruleSet arity locals) (index : Nat) :
    s.statementText? index t = some (s.statementText index t) := by
  cases t with
  | const temp type v orBreak =>
    obtain ⟨htype, hv⟩ := h
    rw [statementText?, valueText?_eq hv]
    cases type with
    | none => rfl
    | some id =>
      obtain ⟨info, hinfo⟩ := htype id rfl
      rw [annotation?, typeName?_eq hinfo]
      rfl
  | breakIf c =>
    rw [statementText?, statementText, conditionText?_eq (c := c) h]
    rfl
  | discard v | ret v =>
    rw [statementText?, statementText, valueText?_eq (v := v) h]
    rfl

theorem legible_of_legibleFrom {rs : RuleSet} {before after : List Statement} {t : Statement}
    (h : LegibleFrom rs arity [] (before ++ t :: after)) :
    t.Legible rs arity (before.filterMap Statement.declared?) := by
  rw [legibleFrom_append, List.nil_append] at h
  exact h.2.1

theorem blockText?_eq {b : Block} (h : LegibleFrom s.ruleSet arity [] b.body) :
    s.blockText? b = some (s.blockText b) := by
  have hlines : b.body.mapM (s.statementText? b.index) =
      some (b.body.map (s.statementText b.index)) := by
    refine mapM_eq_map fun t ht => ?_
    obtain ⟨before, after, hbody⟩ := List.append_of_mem ht
    rw [hbody] at h
    exact statementText?_eq (legible_of_legibleFrom h) b.index
  rw [blockText?, hlines, Option.bind_eq_bind, Option.bind_some, List.flatMap_map]
  rfl

end Texts

end Setting

end TermRules.Zig

import TermRules.Proofs.Numbers
import TermRules.Proofs.RenumberedRuns

/-!
# Entries in any order

An accepted analysis enters the names of types, the variants, the declarations,
the external functions and the templates one by one and then marks the terms
that have rules. Entries of the same round may change places, variants of one
type apart, and the rule set that is reached stays the same up to numbers.
-/

namespace TermRules

namespace RuleSet

variable {rs s : RuleSet}

theorem addTypeName_ok {d : TypeDef} :
    addTypeName d rs = .ok s ↔
      ∃ types, rs.types.insert? (TypeInfo.ofDef d) = some types ∧ { rs with types } = s := by
  rw [addTypeName]
  cases rs.types.insert? (TypeInfo.ofDef d) <;> simp

theorem addVariant_ok {type : TypeId} {typeName : Bytes} {v : Variant} :
    addVariant type typeName v rs = .ok s ↔
      ∃ types terms, rs.resolveTypes (v.fields.map Field.type) = .ok types ∧
        rs.terms.insert? (.ofVariant ⟨type, (rs.typeInfo type).shape.variants.size⟩ typeName v
          types) = some terms ∧
        { rs with
          terms
          types := rs.types.withVariant type (.ofVariant v types rs.terms.size) } = s := by
  rw [addVariant_eq]
  cases rs.resolveTypes (v.fields.map Field.type) with
  | error es => simp
  | ok types =>
    dsimp only
    cases hinsert : rs.terms.insert? (.ofVariant ⟨type, (rs.typeInfo type).shape.variants.size⟩
      typeName v types) <;> simp [hinsert]

theorem addDecl_ok {d : TermDecl} :
    addDecl d rs = .ok s ↔
      ∃ args ret terms, rs.resolveTypes d.args = .ok args ∧ rs.resolveType d.ret = .ok ret ∧
        rs.terms.insert? (.ofDecl d args ret) = some terms ∧ { rs with terms } = s := by
  rw [addDecl_eq]
  cases rs.resolveTypes d.args with
  | error es => cases rs.resolveType d.ret <;> simp [bothOrErrors]
  | ok args =>
    cases rs.resolveType d.ret with
    | error es => simp [bothOrErrors]
    | ok ret =>
      dsimp only [bothOrErrors]
      cases hinsert : rs.terms.insert? (.ofDecl d args ret) <;> simp [hinsert]

end RuleSet

namespace ExternalDef

def FreeIn (d : ExternalDef) (t : TermInfo) : Prop :=
  match d.kind with
  | .constructor => t.constructor = .missing
  | .extractor _ => t.extractor = .missing

def fill (d : ExternalDef) (t : TermInfo) : TermInfo :=
  match d.kind with
  | .constructor => { t with constructor := .external d.function.name d.loc }
  | .extractor infallible =>
      { t with extractor := .external d.function.name infallible d.loc }

theorem name_fill (d : ExternalDef) (t : TermInfo) : (d.fill t).name = t.name := by
  rw [fill]
  cases d.kind <;> rfl

theorem fill_exchange {d e : ExternalDef} {t : TermInfo} (h : e.FreeIn (d.fill t)) :
    e.FreeIn t ∧ (d.FreeIn t → d.FreeIn (e.fill t)) ∧ d.fill (e.fill t) = e.fill (d.fill t) := by
  obtain ⟨dkind, dterm, dfunction, dloc⟩ := d
  obtain ⟨ekind, eterm, efunction, eloc⟩ := e
  cases dkind <;> cases ekind <;> simp_all [FreeIn, fill]

end ExternalDef

namespace RuleSet

variable {rs s : RuleSet}

theorem addExternal_ok {d : ExternalDef} :
    addExternal d rs = .ok s ↔
      ∃ id, rs.terms.find? d.term.name = some id ∧ d.FreeIn (rs.termInfo id) ∧
        { rs with terms := rs.terms.modify id d.fill } = s := by
  obtain ⟨kind, term, function, loc⟩ := d
  rw [addExternal]
  dsimp only
  cases rs.terms.find? term.name with
  | none => simp
  | some id =>
    cases kind with
    | constructor =>
      dsimp only [ExternalDef.FreeIn]
      split_ifs with hfree
      · constructor
        · exact fun h => ⟨id, rfl, hfree, Except.ok.inj h⟩
        · rintro ⟨_, hid, -, h⟩
          cases hid
          exact congrArg _ h
      · simp [hfree]
    | extractor infallible =>
      dsimp only [ExternalDef.FreeIn]
      split_ifs with hfree
      · constructor
        · exact fun h => ⟨id, rfl, hfree, Except.ok.inj h⟩
        · rintro ⟨_, hid, -, h⟩
          cases hid
          exact congrArg _ h
      · simp [hfree]

theorem addTemplate_ok {d : Template} :
    addTemplate d rs = .ok s ↔
      ∃ id, rs.terms.find? d.term.name = some id ∧ (rs.termInfo id).extractor = .missing ∧
        d.params.length = (rs.termInfo id).args.length ∧
        { rs.setExtractor id (.template rs.templates.size d.loc) with
          templates := rs.templates.push d } = s := by
  rw [addTemplate]
  cases rs.terms.find? d.term.name with
  | none => simp
  | some id =>
    dsimp only
    split_ifs with hextractor hparams
    · simp [hextractor]
    · simp [hparams]
    · simp_all

end RuleSet

def TermInfo.mark (loc : Loc) (t : TermInfo) : TermInfo :=
  if t.constructor = .missing then { t with constructor := .internal loc } else t

theorem TermInfo.name_mark (loc : Loc) (t : TermInfo) : (t.mark loc).name = t.name := by
  rw [mark]
  split_ifs <;> rfl

def Rule.root? (r : Rule) : Option Bytes :=
  match r.pattern with
  | .term _ name _ => some name
  | _ => none

theorem RuleSet.markInternal_eq (rs : RuleSet) (r : Rule) :
    rs.markInternal r =
      match r.root?.bind rs.terms.find? with
      | some id => { rs with terms := rs.terms.modify id (TermInfo.mark r.loc) }
      | none => rs := by
  rw [markInternal, Rule.root?]
  cases r.pattern with
  | term loc name args =>
    dsimp only [Option.bind_some]
    cases hfound : rs.terms.find? name with
    | none => rfl
    | some id =>
      obtain ⟨info, hinfo, -⟩ := Table.get?_of_find? hfound
      dsimp only
      rw [termInfo_of_get? hinfo, setConstructor]
      split_ifs with hmissing
      · congr 1
        exact Table.modify_congr hinfo (by rw [TermInfo.mark, if_pos hmissing])
      · rw [Table.modify_eq_self hinfo (by rw [TermInfo.mark, if_neg hmissing])]
  | _ => rfl

inductive Entry
  | type (d : TypeDef)
  | variant (typeName : Bytes) (v : Variant)
  | decl (d : TermDecl)
  | external (d : ExternalDef)
  | template (d : Template)
  | mark (r : Rule)

namespace Entry

def enter : Entry → RuleSet → Attempt
  | .type d, rs => RuleSet.addTypeName d rs
  | .variant typeName v, rs =>
      match rs.types.find? typeName with
      | some id => RuleSet.addVariant id typeName v rs
      | none => .error [⟨v.name.loc, .undefinedType typeName⟩]
  | .decl d, rs => RuleSet.addDecl d rs
  | .external d, rs => RuleSet.addExternal d rs
  | .template d, rs => RuleSet.addTemplate d rs
  | .mark r, rs => .ok (rs.markInternal r)

theorem enter_renumber {ρ : Renumbering} (hρ : ρ.move = id) {rs rs' : RuleSet}
    (h : rs.Renumbered ρ rs') (e : Entry) : (e.enter rs).Renumbered ρ rs rs' (e.enter rs') := by
  cases e with
  | type d =>
    have htype := RuleSet.addTypeName_renumber h d
    rw [hρ, d.relocate_id] at htype
    exact htype
  | variant typeName v =>
    rw [enter, enter, h.types.find]
    cases rs.types.find? typeName with
    | none =>
      have herror (es) : Attempt.Renumbered ρ rs rs' (.error es) _ := .error es
      rw [hρ] at herror
      exact herror [⟨v.name.loc, .undefinedType typeName⟩]
    | some type =>
      have hvariant := RuleSet.addVariant_renumber h type typeName v
      rw [hρ, Variant.relocate_id] at hvariant
      exact hvariant
  | decl d =>
    have hdecl := RuleSet.addDecl_renumber h d
    rw [hρ, d.relocate_id] at hdecl
    exact hdecl
  | external d =>
    have hexternal := RuleSet.addExternal_renumber h d
    rw [hρ, d.relocate_id] at hexternal
    exact hexternal
  | template d =>
    have htemplate := RuleSet.addTemplate_renumber h d
    rw [hρ, d.relocate_id] at htemplate
    exact htemplate
  | mark r =>
    have hmark := RuleSet.markInternal_renumber h r
    rw [hρ, r.relocate_id] at hmark
    exact .ok hmark (RuleSet.rules_markInternal rs r) (RuleSet.rules_markInternal rs' r)

theorem enter_variant_ok {typeName : Bytes} {v : Variant} {rs s : RuleSet} :
    (variant typeName v).enter rs = .ok s ↔
      ∃ type, rs.types.find? typeName = some type ∧
        RuleSet.addVariant type typeName v rs = .ok s := by
  rw [enter]
  cases rs.types.find? typeName <;> simp

theorem enter_rules {e : Entry} {rs s : RuleSet} (h : e.enter rs = .ok s) : s.rules = rs.rules := by
  cases e with
  | type d =>
    obtain ⟨types, -, rfl⟩ := RuleSet.addTypeName_ok.mp h
    rfl
  | variant typeName v =>
    obtain ⟨type, -, hvariant⟩ := enter_variant_ok.mp h
    obtain ⟨types, terms, -, -, rfl⟩ := RuleSet.addVariant_ok.mp hvariant
    rfl
  | decl d =>
    obtain ⟨args, ret, terms, -, -, -, rfl⟩ := RuleSet.addDecl_ok.mp h
    rfl
  | external d =>
    obtain ⟨id, -, -, rfl⟩ := RuleSet.addExternal_ok.mp h
    rfl
  | template d =>
    obtain ⟨id, -, -, -, rfl⟩ := RuleSet.addTemplate_ok.mp h
    rfl
  | mark r =>
    cases h
    exact RuleSet.rules_markInternal rs r

end Entry

namespace RuleSet

variable {rs : RuleSet}

theorem resolveTypes_congr {rs' : RuleSet}
    (h : ∀ name, rs'.types.find? name = rs.types.find? name) (is : List Ident) :
    rs'.resolveTypes is = rs.resolveTypes is := by
  induction is with
  | nil => rfl
  | cons i is ih => rw [resolveTypes, resolveTypes, ih, resolveType, resolveType, h]

theorem resolveType_lt {i : Ident} {type : TypeId} (h : rs.resolveType i = .ok type) :
    type < rs.types.size := by
  rw [resolveType] at h
  cases hi : rs.types.find? i.name with
  | none => simp [hi] at h
  | some id =>
    rw [hi] at h
    cases h
    exact Table.find?_lt_size hi

theorem resolveTypes_lt {is : List Ident} {types : List TypeId}
    (h : rs.resolveTypes is = .ok types) : ∀ type ∈ types, type < rs.types.size := by
  induction is generalizing types with
  | nil =>
    cases h
    simp
  | cons i is ih =>
    rw [resolveTypes] at h
    cases hi : rs.resolveType i <;> cases his : rs.resolveTypes is <;>
      simp only [hi, his, bothOrErrors, Except.map, reduceCtorEq, Except.ok.injEq] at h
    subst h
    exact List.forall_mem_cons.mpr ⟨resolveType_lt hi, ih his⟩

end RuleSet

theorem TypeInfo.Below.addVariant {types terms : Nat} {t : TypeInfo} (h : t.Below types terms)
    {v : VariantInfo} (hv : v.Below types terms) :
    TypeInfo.Below types terms { t with shape := t.shape.addVariant v } := by
  rw [TypeInfo.Below] at h ⊢
  dsimp only
  cases hshape : t.shape with
  | enum variants =>
    rw [hshape] at h
    intro w hw
    rcases Array.mem_push.mp hw with hw | rfl
    · exact h w hw
    · exact hv
  | _ => simp [TypeShape.addVariant, TypeShape.variants]

theorem VariantInfo.below_ofVariant {v : Variant} {ids : List TypeId} {types terms : Nat}
    {term : TermId} (hids : ∀ type ∈ ids, type < types) (hterm : term < terms) :
    (VariantInfo.ofVariant v ids term).Below types terms where
  fields f hf := by
    obtain ⟨⟨field, type⟩, hmem, rfl⟩ := List.mem_map.mp hf
    exact hids type (List.of_mem_zip hmem).2
  term := hterm

theorem ExternalDef.below_fill (d : ExternalDef) {types templates : Nat} {t : TermInfo}
    (h : t.Below types templates) : (d.fill t).Below types templates := by
  rw [fill]
  cases d.kind with
  | constructor => exact { h with constructor := trivial }
  | extractor infallible => exact { h with extractor := trivial }

theorem TermInfo.Below.mark {types templates : Nat} {t : TermInfo} (h : t.Below types templates)
    (loc : Loc) : (t.mark loc).Below types templates := by
  rw [TermInfo.mark]
  split_ifs
  · exact { h with constructor := trivial }
  · exact h

namespace RuleSet

theorem Bounded.modifyTerms {rs : RuleSet} (h : rs.Bounded) (id : TermId) {f : TermInfo → TermInfo}
    {templates : Array Template} (hsize : rs.templates.size ≤ templates.size)
    (hf : ∀ t : TermInfo, t.Below rs.types.size templates.size →
      (f t).Below rs.types.size templates.size) :
    RuleSet.Bounded ⟨rs.types, rs.terms.modify id f, templates, rs.rules⟩ where
  bool := h.bool
  types i info hi := by
    rw [Table.size_modify]
    exact h.types i info hi
  terms i info hi := by
    dsimp only at hi ⊢
    rw [Table.get?_modify] at hi
    have hold : ∀ t, rs.terms.get? i = some t → t.Below rs.types.size templates.size :=
      fun t ht => (h.terms i t ht).mono (Nat.le_refl _) hsize
    split_ifs at hi
    · obtain ⟨t, ht, rfl⟩ := Option.map_eq_some_iff.mp hi
      exact hf t (hold t ht)
    · exact hold info hi

theorem Bounded.insertTerm {rs : RuleSet} (h : rs.Bounded) {term : TermInfo}
    {terms : Table TermInfo} (hinsert : rs.terms.insert? term = some terms)
    (hterm : term.Below rs.types.size rs.templates.size) :
    RuleSet.Bounded { rs with terms } where
  bool := h.bool
  types i info hi := by
    refine (h.types i info hi).mono (Nat.le_refl _) ?_
    rw [Table.size_of_insert? hinsert]
    omega
  terms i info hi := by
    dsimp only at hi
    rw [Table.get?_of_insert? hinsert] at hi
    split_ifs at hi
    · cases hi
      exact hterm
    · exact h.terms i info hi

end RuleSet

theorem Entry.enter_bounded {e : Entry} {rs s : RuleSet} (h : e.enter rs = .ok s)
    (hrs : rs.Bounded) : s.Bounded := by
  cases e with
  | type d =>
    obtain ⟨types, hinsert, rfl⟩ := RuleSet.addTypeName_ok.mp h
    have hsize := Table.size_of_insert? hinsert
    have hle : rs.types.size ≤ types.size := by omega
    refine ⟨Nat.lt_of_lt_of_le hrs.bool hle, fun i info hi => ?_, fun i info hi =>
      (hrs.terms i info hi).mono hle (Nat.le_refl _)⟩
    dsimp only at hi
    rw [Table.get?_of_insert? hinsert] at hi
    split_ifs at hi
    · cases hi
      rw [TypeInfo.Below, TypeInfo.ofDef]
      cases d.body <;> simp [TypeShape.variants]
    · exact (hrs.types i info hi).mono hle (Nat.le_refl _)
  | variant typeName v =>
    obtain ⟨type, htype, hvariant⟩ := enter_variant_ok.mp h
    obtain ⟨ids, terms, hids, hinsert, rfl⟩ := RuleSet.addVariant_ok.mp hvariant
    have hlt := RuleSet.resolveTypes_lt hids
    have htype := Table.find?_lt_size htype
    have hterms := hrs.insertTerm hinsert ⟨hlt, htype, htype, htype⟩
    refine ⟨?_, fun i info hi => ?_, fun i info hi => ?_⟩
    · rw [Table.withVariant, Table.size_modify]
      exact hrs.bool
    · dsimp only at hi ⊢
      rw [Table.withVariant, Table.size_modify]
      rw [Table.withVariant, Table.get?_modify] at hi
      split_ifs at hi
      · obtain ⟨t, ht, rfl⟩ := Option.map_eq_some_iff.mp hi
        refine (hterms.types i t ht).addVariant (VariantInfo.below_ofVariant hlt ?_)
        change rs.terms.size < terms.size
        rw [Table.size_of_insert? hinsert]
        exact Nat.lt_succ_self _
      · exact hterms.types i info hi
    · rw [Table.withVariant, Table.size_modify]
      exact hterms.terms i info hi
  | decl d =>
    obtain ⟨args, ret, terms, hargs, hret, hinsert, rfl⟩ := RuleSet.addDecl_ok.mp h
    exact hrs.insertTerm hinsert
      ⟨RuleSet.resolveTypes_lt hargs, RuleSet.resolveType_lt hret, trivial, trivial⟩
  | external d =>
    obtain ⟨id, -, -, rfl⟩ := RuleSet.addExternal_ok.mp h
    exact hrs.modifyTerms id (Nat.le_refl _) fun _ ht => d.below_fill ht
  | template d =>
    obtain ⟨id, -, -, -, rfl⟩ := RuleSet.addTemplate_ok.mp h
    have hsize : (rs.templates.push d).size = rs.templates.size + 1 := Array.size_push d
    refine hrs.modifyTerms id (by omega) fun _ ht => { ht with extractor := ?_ }
    change rs.templates.size < (rs.templates.push d).size
    omega
  | mark r =>
    cases h
    rw [RuleSet.markInternal_eq]
    cases r.root?.bind rs.terms.find? with
    | none => exact hrs
    | some id => exact hrs.modifyTerms id (Nat.le_refl _) fun _ ht => ht.mark r.loc

end TermRules

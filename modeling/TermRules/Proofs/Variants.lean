import TermRules.Proofs.Runs

/-!
# Entries that belong together

The truth type is the first type of every rule set that is ever reached, and
names and numbers of types and terms are one to one. So are variants and their
terms: the term of a variant yields its enum and takes its fields as arguments.
A template belongs to the one term that it matches.
-/

namespace TermRules

/-- The entry of a term agrees with the variant or the template that it refers to. -/
structure TermInfo.Linked (rs : RuleSet) (id : TermId) (info : TermInfo) : Prop where
  paired : ∀ ref, info.constructor = .variant ref ↔ info.extractor = .variant ref
  variant : ∀ ref, info.constructor = .variant ref → ∃ type v,
    rs.types.get? ref.type = some type ∧ type.shape.variants[ref.index]? = some v ∧
      v.term = id ∧ info.args = v.fields.map FieldInfo.type ∧ info.ret = ref.type ∧
        info.name = type.name ++ Byte.dot :: v.name
  template : ∀ index loc, info.extractor = .template index loc → ∃ t,
    rs.templates[index]? = some t ∧ t.term.name = info.name ∧
      t.params.length = info.args.length

structure TermInfo.Follows (old info : TermInfo) : Prop where
  name_eq : info.name = old.name
  args_eq : info.args = old.args
  ret_eq : info.ret = old.ret
  constructor_iff : ∀ ref, info.constructor = .variant ref ↔ old.constructor = .variant ref
  extractor_iff : ∀ ref, info.extractor = .variant ref ↔ old.extractor = .variant ref
  template_of : ∀ {index loc}, info.extractor = .template index loc →
    old.extractor = .template index loc

theorem TermInfo.Follows.refl (info : TermInfo) : info.Follows info :=
  ⟨rfl, rfl, rfl, fun _ => .rfl, fun _ => .rfl, fun h => h⟩

theorem TermInfo.Linked.mono {a b : RuleSet} {id : TermId} {old info : TermInfo}
    (h : old.Linked a id) (hg : a.Grows b) (hf : old.Follows info) : info.Linked b id where
  paired ref := by rw [hf.constructor_iff, hf.extractor_iff, h.paired]
  variant ref hc := by
    obtain ⟨type, v, htype, hv, hterm, hargs, hret, hname⟩ :=
      h.variant ref ((hf.constructor_iff ref).mp hc)
    obtain ⟨type', htype', hname', hshape⟩ := hg.types htype
    refine ⟨type', v, htype', hshape.variants hv, hterm, hf.args_eq.trans hargs,
      hf.ret_eq.trans hret, ?_⟩
    rw [hf.name_eq, hname, hname']
  template index loc he := by
    obtain ⟨t, ht, hname, hparams⟩ := h.template index loc (hf.template_of he)
    exact ⟨t, hg.templates ht, hname.trans hf.name_eq.symm, by rw [hparams, hf.args_eq]⟩

namespace RuleSet

structure Linked (rs : RuleSet) : Prop where
  bool : rs.types.get? boolType = some boolInfo
  types : rs.types.Keyed
  terms : rs.terms.Keyed
  infos : ∀ {id info}, rs.terms.get? id = some info → info.Linked rs id
  variants : ∀ {id : TypeId} {type i v}, rs.types.get? id = some type →
    type.shape.variants[i]? = some v →
    ∃ info, rs.terms.get? v.term = some info ∧ info.constructor = .variant ⟨id, i⟩

theorem linked_empty : empty.Linked where
  bool := rfl
  types := by
    have hbool : Table.empty.insert? boolInfo = some empty.types := by
      simp [Table.insert?, Table.find?, Table.empty, empty]
    exact Table.keyed_empty.insert hbool
  terms := Table.keyed_empty
  infos h := by simp [empty, Table.get?, Table.empty] at h
  variants {id type i v} h hv := by
    obtain ⟨hlt, rfl⟩ := Array.getElem?_eq_some_iff.mp h
    obtain rfl : id = 0 := Nat.lt_one_iff.mp hlt
    cases hv

section Steps

variable {a b : RuleSet}

theorem Linked.variant_of_grows (h : a.Linked) (hg : a.Grows b) {id : TypeId} {type : TypeInfo}
    {i : Nat} {v : VariantInfo} (htype : a.types.get? id = some type)
    (hv : type.shape.variants[i]? = some v) :
    ∃ info, b.terms.get? v.term = some info ∧ info.constructor = .variant ⟨id, i⟩ := by
  obtain ⟨info, hinfo, hc⟩ := h.variants htype hv
  obtain ⟨info', hinfo', hgrows⟩ := hg.terms hinfo
  exact ⟨info', hinfo', (hgrows.constructor_eq (by rw [hc]; simp)).trans hc⟩

theorem Linked.insert_term (h : a.Linked) (hg : a.Grows b) (htypes : b.types = a.types)
    {term : TermInfo} (inserted : a.terms.insert? term = some b.terms)
    (hterm : term.Linked b a.terms.size) : b.Linked where
  bool := htypes ▸ h.bool
  types := htypes ▸ h.types
  terms := h.terms.insert inserted
  infos {id info} hinfo := by
    rw [Table.get?_of_insert? inserted] at hinfo
    split_ifs at hinfo with hid
    · cases hinfo
      rwa [hid]
    · exact (h.infos hinfo).mono hg (.refl info)
  variants htype hv := h.variant_of_grows hg (htypes ▸ htype) hv

theorem Linked.modify_term (h : a.Linked) (hg : a.Grows b) (htypes : b.types = a.types)
    {id : TermId} {info : TermInfo} (found : a.terms.get? id = some info)
    {f : TermInfo → TermInfo} (hterms : b.terms = a.terms.modify id f)
    (hname : ∀ t, (f t).name = t.name) (hinfo : (f info).Linked b id) : b.Linked where
  bool := htypes ▸ h.bool
  types := htypes ▸ h.types
  terms := hterms ▸ h.terms.modify id hname
  infos {j info'} hj := by
    rw [hterms, Table.get?_modify] at hj
    split_ifs at hj with hid
    · subst hid
      rw [found] at hj
      cases hj
      exact hinfo
    · exact (h.infos hj).mono hg (.refl info')
  variants htype hv := h.variant_of_grows hg (htypes ▸ htype) hv

theorem exists_enum {type : TypeId} (isEnum : (a.typeInfo type).shape.isEnum = true) :
    ∃ entry variants, a.types.get? type = some entry ∧ entry.shape = .enum variants := by
  cases hentry : a.types.get? type with
  | none =>
    rw [typeInfo, hentry] at isEnum
    cases isEnum
  | some entry =>
    rw [typeInfo_of_get? hentry] at isEnum
    cases hshape : entry.shape with
    | enum variants => exact ⟨entry, variants, rfl, hshape⟩
    | _ => simp [hshape, TypeShape.isEnum] at isEnum

theorem Linked.insert_variant (h : a.Linked) (hg : a.Grows b) {type : TypeId} {info : VariantInfo}
    {term : TermInfo} (isEnum : (a.typeInfo type).shape.isEnum = true)
    (htypes : b.types =
      a.types.modify type fun t => { t with shape := t.shape.addVariant info })
    (inserted : a.terms.insert? term = some b.terms)
    (constructor_eq : term.constructor = .variant ⟨type, (a.typeInfo type).shape.variants.size⟩)
    (extractor_eq : term.extractor = .variant ⟨type, (a.typeInfo type).shape.variants.size⟩)
    (ret_eq : term.ret = type) (args_eq : term.args = info.fields.map FieldInfo.type)
    (name_eq : term.name = a.typeName type ++ Byte.dot :: info.name)
    (term_eq : info.term = a.terms.size) : b.Linked := by
  obtain ⟨entry, variants, hentry, hshape⟩ := exists_enum isEnum
  rw [typeName] at name_eq
  rw [typeInfo_of_get? hentry] at constructor_eq extractor_eq name_eq
  simp only [hshape, TypeShape.variants] at constructor_eq extractor_eq
  have hmodified : b.types.get? type = some { entry with shape := .enum (variants.push info) } := by
    rw [htypes, Table.get?_modify, if_pos rfl, hentry, Option.map_some, hshape]
    rfl
  refine ⟨?_, htypes ▸ h.types.modify type fun _ => rfl, h.terms.insert inserted,
    fun {id info'} hinfo => ?_, fun {id t i v} ht hv => ?_⟩
  · rw [htypes, Table.get?_modify, h.bool]
    split_ifs <;> rfl
  · rw [Table.get?_of_insert? inserted] at hinfo
    split_ifs at hinfo with hid
    · obtain rfl := Option.some.inj hinfo
      refine ⟨fun ref => by rw [constructor_eq, extractor_eq]; simp, fun ref hc => ?_,
        fun index loc he => by cases extractor_eq.symm.trans he⟩
      cases constructor_eq.symm.trans hc
      exact ⟨_, info, hmodified, by simp [TypeShape.variants], term_eq.trans hid.symm, args_eq,
        ret_eq, name_eq⟩
    · exact (h.infos hinfo).mono hg (.refl info')
  · by_cases hid : id = type
    · subst hid
      rw [hmodified] at ht
      cases ht
      simp only [TypeShape.variants, Array.getElem?_push] at hv
      split_ifs at hv with hi
      · cases hv
        refine ⟨term, ?_, hi ▸ constructor_eq⟩
        rw [Table.get?_of_insert? inserted, if_pos term_eq]
      · exact h.variant_of_grows hg hentry (by rw [hshape]; exact hv)
    · rw [htypes, Table.get?_modify, if_neg (Ne.symm hid)] at ht
      exact h.variant_of_grows hg ht hv

end Steps

theorem Step.linked {a b : RuleSet} (hstep : Step a b) (h : a.Linked) : b.Linked := by
  have hg := hstep.grows
  cases hstep with
  | @type d types inserted =>
    refine ⟨Table.get?_insert?_of_some inserted h.bool, h.types.insert inserted, h.terms,
      fun hinfo => (h.infos hinfo).mono hg (.refl _),
      fun {id type i v} htype hv => ?_⟩
    dsimp only at htype
    rw [Table.get?_of_insert? inserted] at htype
    split_ifs at htype
    · -- A new type has no variants yet.
      cases htype
      cases hbody : d.body <;> simp [TypeInfo.ofDef, hbody, TypeShape.variants] at hv
    · exact h.variants htype hv
  | @variant type info term terms isEnum constructor_eq extractor_eq ret_eq args_eq name_eq term_eq
      inserted =>
    exact h.insert_variant hg isEnum rfl inserted constructor_eq extractor_eq ret_eq args_eq name_eq
      term_eq
  | decl constructor_eq extractor_eq inserted =>
    refine h.insert_term hg rfl inserted ⟨fun ref => ?_, fun ref hc => ?_, fun _ _ he => ?_⟩
    · simp only [constructor_eq, extractor_eq, reduceCtorEq]
    · cases constructor_eq.symm.trans hc
    · cases extractor_eq.symm.trans he
  | @constructor id info c found missing present noVariant =>
    refine h.modify_term hg rfl found rfl (fun _ => rfl) ((h.infos found).mono hg ?_)
    refine ⟨rfl, rfl, rfl, fun ref => ?_, fun _ => .rfl, fun he => he⟩
    simp only [missing, noVariant ref, reduceCtorEq]
  | @extractor id info e found missing present noVariant noTemplate =>
    refine h.modify_term hg rfl found rfl (fun _ => rfl) ((h.infos found).mono hg ?_)
    refine ⟨rfl, rfl, rfl, fun _ => .rfl, fun ref => ?_, fun he => absurd he (noTemplate _ _)⟩
    simp only [missing, noVariant ref, reduceCtorEq]
  | @template id info t found missing name_eq params =>
    have hinfo := h.infos found
    refine h.modify_term hg rfl found rfl (fun _ => rfl) ⟨fun ref => ?_, fun ref hc => ?_,
      fun index loc he => ?_⟩
    · simp only [hinfo.paired ref, missing, reduceCtorEq]
    · exact absurd ((hinfo.paired ref).mp hc) (by simp [missing])
    · cases he
      exact ⟨t, by simp, name_eq, params⟩
  | rule marked accepted =>
    exact ⟨h.bool, h.types, h.terms, fun hinfo => (h.infos hinfo).mono hg (.refl _), h.variants⟩

def IsTermOf (rs : RuleSet) (info : TermInfo) (ref : VariantRef) : Prop :=
  info.ret = ref.type ∧ ∃ v, (rs.typeInfo ref.type).shape.variants[ref.index]? = some v ∧
    info.args = v.fields.map FieldInfo.type

structure Coherent (rs : RuleSet) : Prop where
  bool : rs.types.get? boolType = some boolInfo
  constructors : ∀ {id info ref}, rs.terms.get? id = some info →
    info.constructor = .variant ref → rs.IsTermOf info ref
  extractors : ∀ {id info ref}, rs.terms.get? id = some info →
    info.extractor = .variant ref → rs.IsTermOf info ref

theorem Linked.isTermOf {rs : RuleSet} (h : rs.Linked) {id : TermId} {info : TermInfo}
    {ref : VariantRef} (hinfo : rs.terms.get? id = some info)
    (hc : info.constructor = .variant ref) : rs.IsTermOf info ref := by
  obtain ⟨type, v, htype, hv, -, hargs, hret, -⟩ := (h.infos hinfo).variant ref hc
  exact ⟨hret, v, by rwa [typeInfo_of_get? htype], hargs⟩

theorem Linked.coherent {rs : RuleSet} (h : rs.Linked) : rs.Coherent where
  bool := h.bool
  constructors := h.isTermOf
  extractors hinfo he := h.isTermOf hinfo (((h.infos hinfo).paired _).mpr he)

theorem afterAll_linked (batches : List (List Definition)) : (afterAll batches).Linked :=
  afterAll_induction linked_empty (fun _ _ h hstep => hstep.linked h) batches

end RuleSet

end TermRules

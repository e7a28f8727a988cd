import TermRules.Proofs.Entries

/-!
# Exchanging entries

Two entries of one round, other than two variants of one type, are independent:
whichever enters first, both are accepted and the rule sets differ in numbers
only. Runs through a list of entries inherit this for every reordering.
-/

namespace TermRules

/-- Entries of one round whose order does not matter. -/
inductive Entry.Independent : Entry → Entry → Prop
  | types (d e : TypeDef) : Independent (.type d) (.type e)
  | variants {typeName typeName' : Bytes} (v w : Variant) (h : typeName ≠ typeName') :
      Independent (.variant typeName v) (.variant typeName' w)
  | decls (d e : TermDecl) : Independent (.decl d) (.decl e)
  | externals (d e : ExternalDef) : Independent (.external d) (.external e)
  | templates (d e : Template) : Independent (.template d) (.template e)
  | marks (r r' : Rule) : Independent (.mark r) (.mark r')

theorem Entry.Independent.symm {e f : Entry} (h : e.Independent f) : f.Independent e := by
  cases h with
  | types d e => exact .types e d
  | variants v w h => exact .variants w v h.symm
  | decls d e => exact .decls e d
  | externals d e => exact .externals e d
  | templates d e => exact .templates e d
  | marks r r' => exact .marks r' r

def RuleSet.Exchanges (rs t : RuleSet) (first second : RuleSet → Attempt) : Prop :=
  ∃ s' t', second rs = .ok s' ∧ first s' = .ok t' ∧ t.Alike t'

namespace RuleSet

variable {rs s t : RuleSet} (h : rs.Bounded)
include h

theorem exchanges_types {d e : TypeDef} (hd : addTypeName d rs = .ok s)
    (he : addTypeName e s = .ok t) : rs.Exchanges t (addTypeName d) (addTypeName e) := by
  obtain ⟨types, hinsert, rfl⟩ := addTypeName_ok.mp hd
  obtain ⟨types₂, hinsert₂, rfl⟩ := addTypeName_ok.mp he
  let ρ := Renumbering.swapTypes rs.types.size h.bool
  have hρ : ρ.Fixes rs.types.size rs.terms.size rs.templates.size :=
    Renumbering.fixes_swapTypes _ h.bool _ _
  have hnew (d : TypeDef) : TypeInfo.ofDef d = (TypeInfo.ofDef d).renumber ρ := by
    have hmoved : TypeInfo.ofDef (d.relocate ρ.move) = _ := ofDef_relocate d
    rwa [hρ.move, d.relocate_id] at hmoved
  obtain ⟨types', types₂', hinsert', hinsert₂', hswap⟩ :=
    Table.renumbered_swap (R := fun t t' => t' = t.renumber ρ) hinsert hinsert₂
      (fun i info hi => ((h.types i info hi).renumber_eq hρ).symm) (hnew d) (hnew e) rfl rfl
  exact ⟨_, _, addTypeName_ok.mpr ⟨types', hinsert', rfl⟩,
    addTypeName_ok.mpr ⟨types₂', hinsert₂', rfl⟩, ρ, rfl,
    ⟨hswap, h.terms_renumbered hρ, rfl, fun _ _ => rfl, templates_renumbered _⟩⟩

end RuleSet

theorem Table.get?_withVariant_of_ne {type type₂ : TypeId} (hne : type ≠ type₂)
    (types : Table TypeInfo) (v : VariantInfo) :
    (types.withVariant type v).get? type₂ = types.get? type₂ := by
  rw [withVariant, get?_modify, if_neg hne]

theorem Table.withVariant_comm {type type₂ : TypeId} (hne : type ≠ type₂)
    (types : Table TypeInfo) (v w : VariantInfo) :
    (types.withVariant type v).withVariant type₂ w =
      (types.withVariant type₂ w).withVariant type v :=
  modify_comm types hne _ _

theorem TermInfo.renumbered_ofVariant (n : Nat) (ref : VariantRef) (typeName : Bytes) (v : Variant)
    (ids : List TypeId) : (TermInfo.ofVariant ref typeName v ids).Renumbered
      (Renumbering.swapTerms n) (.ofVariant ref typeName v ids) :=
  ⟨rfl, (List.map_id ids).symm, rfl, rfl, rfl, rfl, .variant ref, rfl⟩

theorem VariantInfo.ofVariant_swap {n : Nat} (v : Variant) (ids : List TypeId)
    {term term' : TermId} (hterm : Equiv.swap n (n + 1) term = term') :
    VariantInfo.ofVariant v ids term' =
      (VariantInfo.ofVariant v ids term).renumber (Renumbering.swapTerms n) := by
  rw [← hterm]
  exact congrArg (VariantInfo.mk v.name.name · _) (List.map_id _).symm

namespace RuleSet

variable {rs s t : RuleSet} (h : rs.Bounded)
include h

theorem exchanges_variants {type type₂ : TypeId} (hne : type ≠ type₂) {typeName typeName₂ : Bytes}
    {v w : Variant} (hv : addVariant type typeName v rs = .ok s)
    (hw : addVariant type₂ typeName₂ w s = .ok t) :
    rs.Exchanges t (addVariant type typeName v) (addVariant type₂ typeName₂ w) := by
  obtain ⟨ids, terms, hids, hinsert, rfl⟩ := addVariant_ok.mp hv
  obtain ⟨ids₂, terms₂, hids₂, hinsert₂, rfl⟩ := addVariant_ok.mp hw
  let n := rs.terms.size
  have hρ : (Renumbering.swapTerms n).Fixes rs.types.size n rs.templates.size :=
    Renumbering.fixes_swapTerms _ _ _
  -- A new variant changes neither the names of types nor the other type.
  rw [resolveTypes_congr (Table.find?_withVariant _ _ _)] at hids₂
  rw [typeInfo, Table.get?_withVariant_of_ne hne, ← typeInfo] at hinsert₂
  obtain ⟨terms', terms₂', hinsert', hinsert₂', hswap⟩ := Table.renumbered_swap hinsert hinsert₂
    (fun i info hi => (h.terms i info hi).renumbered hρ) (TermInfo.renumbered_ofVariant ..)
    (TermInfo.renumbered_ofVariant ..) rfl rfl
  have htypes := ((h.types_renumbered hρ).withVariant
    (VariantInfo.ofVariant_swap v ids (Equiv.swap_apply_left n (n + 1))) type).withVariant
    (VariantInfo.ofVariant_swap w ids₂ (Equiv.swap_apply_right n (n + 1))) type₂
  refine ⟨_, _, addVariant_ok.mpr ⟨ids₂, terms', hids₂, hinsert', rfl⟩,
    addVariant_ok.mpr ⟨ids, terms₂', ?_, ?_, rfl⟩, Renumbering.swapTerms n, rfl, ?_⟩
  · rw [resolveTypes_congr (Table.find?_withVariant _ _ _)]
    exact hids
  · rw [typeInfo, Table.get?_withVariant_of_ne hne.symm, ← typeInfo]
    exact hinsert₂'
  · refine ⟨?_, hswap, rfl, fun _ _ => rfl, templates_renumbered _⟩
    dsimp only
    rw [Table.size_of_insert? hinsert, Table.size_of_insert? hinsert',
      Table.withVariant_comm hne.symm]
    exact htypes

omit h in
theorem resolveTypes_withTerms (terms : Table TermInfo) (is : List Ident) :
    RuleSet.resolveTypes { rs with terms } is = rs.resolveTypes is :=
  resolveTypes_congr (fun _ => by rfl) is

theorem exchanges_decls {d e : TermDecl} (hd : addDecl d rs = .ok s) (he : addDecl e s = .ok t) :
    rs.Exchanges t (addDecl d) (addDecl e) := by
  obtain ⟨args, ret, terms, hargs, hret, hinsert, rfl⟩ := addDecl_ok.mp hd
  obtain ⟨args₂, ret₂, terms₂, hargs₂, hret₂, hinsert₂, rfl⟩ := addDecl_ok.mp he
  let ρ := Renumbering.swapTerms rs.terms.size
  have hρ : ρ.Fixes rs.types.size rs.terms.size rs.templates.size :=
    Renumbering.fixes_swapTerms _ _ _
  have hnew (d : TermDecl) (args : List TypeId) (ret : TypeId) :
      (TermInfo.ofDecl d args ret).Renumbered ρ (.ofDecl d args ret) :=
    ⟨rfl, (List.map_id args).symm, rfl, rfl, rfl, rfl, .missing, rfl⟩
  obtain ⟨terms', terms₂', hinsert', hinsert₂', hswap⟩ := Table.renumbered_swap hinsert hinsert₂
    (fun i info hi => (h.terms i info hi).renumbered hρ) (hnew ..) (hnew ..) rfl rfl
  rw [resolveTypes_withTerms] at hargs₂
  refine ⟨_, _, addDecl_ok.mpr ⟨args₂, ret₂, terms', hargs₂, hret₂, hinsert', rfl⟩,
    addDecl_ok.mpr ⟨args, ret, terms₂', ?_, hret, hinsert₂', rfl⟩, ρ, rfl,
    ⟨h.types_renumbered hρ, hswap, rfl, fun _ _ => rfl, templates_renumbered _⟩⟩
  rw [resolveTypes_withTerms]
  exact hargs

omit h in
theorem termInfo_modify {id id₂ : TermId} {info : TermInfo} (hinfo : rs.terms.get? id₂ = some info)
    (f : TermInfo → TermInfo) (templates : Array Template) :
    RuleSet.termInfo ⟨rs.types, rs.terms.modify id f, templates, rs.rules⟩ id₂ =
      if id = id₂ then f (rs.termInfo id₂) else rs.termInfo id₂ := by
  rw [termInfo_of_get? hinfo, termInfo, Table.get?_modify, hinfo]
  split_ifs <;> rfl

omit h in
theorem exchanges_externals {d e : ExternalDef} (hd : addExternal d rs = .ok s)
    (he : addExternal e s = .ok t) : rs.Exchanges t (addExternal d) (addExternal e) := by
  obtain ⟨id, hid, hfree, rfl⟩ := addExternal_ok.mp hd
  obtain ⟨id₂, hid₂, hfree₂, rfl⟩ := addExternal_ok.mp he
  rw [Table.find?_modify _ _ d.name_fill] at hid₂
  obtain ⟨info, hinfo, -⟩ := Table.get?_of_find? hid
  obtain ⟨info₂, hinfo₂, -⟩ := Table.get?_of_find? hid₂
  rw [termInfo_modify hinfo₂] at hfree₂
  have hback : (rs.terms.modify id₂ e.fill).find? d.term.name = some id := by
    rw [Table.find?_modify _ _ e.name_fill, hid]
  -- Two functions of one term fill different places in it, and functions of two terms
  -- change different entries: both ways the same table is reached.
  by_cases hsame : id = id₂
  · subst hsame
    rw [if_pos rfl] at hfree₂
    obtain ⟨hfirst, hsecond, heq⟩ := ExternalDef.fill_exchange hfree₂
    refine ⟨_, _, addExternal_ok.mpr ⟨id, hid₂, hfirst, rfl⟩,
      addExternal_ok.mpr ⟨id, hback, ?_, rfl⟩, ?_⟩
    · rw [termInfo_modify hinfo, if_pos rfl]
      exact hsecond hfree
    · dsimp only
      rw [termInfo_of_get? hinfo] at heq
      have hfill : (d.fill ∘ e.fill) info = (e.fill ∘ d.fill) info := heq
      rw [Table.modify_modify, Table.modify_modify, Table.modify_congr hinfo hfill]
      exact RuleSet.alike_refl _
  · rw [if_neg hsame] at hfree₂
    refine ⟨_, _, addExternal_ok.mpr ⟨id₂, hid₂, hfree₂, rfl⟩,
      addExternal_ok.mpr ⟨id, hback, ?_, rfl⟩, ?_⟩
    · rw [termInfo_modify hinfo, if_neg (Ne.symm hsame)]
      exact hfree
    · dsimp only
      rw [Table.modify_comm _ hsame]
      exact RuleSet.alike_refl _

omit h in
theorem getElem?_push_push_swap {α : Type} (as : Array α) (a b : α) (i : Nat) :
    ((as.push b).push a)[Equiv.swap as.size (as.size + 1) i]? = ((as.push a).push b)[i]? := by
  simp only [Array.getElem?_push, Array.size_push]
  by_cases hfirst : i = as.size
  · subst hfirst
    rw [Equiv.swap_apply_left, if_pos rfl, if_neg (by omega), if_pos rfl]
  · by_cases hsecond : i = as.size + 1
    · subst hsecond
      rw [Equiv.swap_apply_right, if_neg (by omega), if_pos rfl, if_pos rfl]
    · rw [Equiv.swap_apply_of_ne_of_ne hfirst hsecond, if_neg hsecond, if_neg hfirst,
        if_neg hsecond, if_neg hfirst]

theorem exchanges_templates {d e : Template} (hd : addTemplate d rs = .ok s)
    (he : addTemplate e s = .ok t) : rs.Exchanges t (addTemplate d) (addTemplate e) := by
  obtain ⟨id, hid, hmissing, hparams, rfl⟩ := addTemplate_ok.mp hd
  obtain ⟨id₂, hid₂, hmissing₂, hparams₂, rfl⟩ := addTemplate_ok.mp he
  obtain ⟨info, hinfo, -⟩ := Table.get?_of_find? hid
  let n := rs.templates.size
  have hρ : (Renumbering.swapTemplates n).Fixes rs.types.size rs.terms.size n :=
    Renumbering.fixes_swapTemplates _ _ _
  dsimp only [setExtractor] at hid₂ hmissing₂ hparams₂
  rw [Table.find?_modify _ _ (fun _ => by rfl)] at hid₂
  obtain ⟨info₂, hinfo₂, -⟩ := Table.get?_of_find? hid₂
  rw [termInfo_modify hinfo₂] at hmissing₂ hparams₂
  -- The second template finds its place free, so it is for another term.
  have hne : id ≠ id₂ := by
    intro hsame
    simp [hsame] at hmissing₂
  rw [if_neg hne] at hmissing₂ hparams₂
  refine ⟨_, _, addTemplate_ok.mpr ⟨id₂, hid₂, hmissing₂, hparams₂, rfl⟩,
    addTemplate_ok.mpr ⟨id, ?_, ?_, ?_, rfl⟩, Renumbering.swapTemplates n, rfl, ?_⟩
  · exact (Table.find?_modify _ _ (fun _ => by rfl) _).trans hid
  · rw [setExtractor, termInfo_modify hinfo, if_neg hne.symm]
    exact hmissing
  · rw [setExtractor, termInfo_modify hinfo, if_neg hne.symm]
    exact hparams
  · have hextractor {index index' : Nat} (hindex : Equiv.swap n (n + 1) index = index') (loc : Loc)
        (info info' : TermInfo) (hinfo : info.Renumbered (Renumbering.swapTemplates n) info') :
        TermInfo.Renumbered (Renumbering.swapTemplates n)
          { info with extractor := .template index loc }
          { info' with extractor := .template index' loc } :=
      { hinfo with extractor := hindex ▸ rfl }
    have hterms := ((h.terms_renumbered hρ).modify (fun _ => by rfl) (fun _ => by rfl) id
      fun a a' _ => hextractor (Equiv.swap_apply_left n (n + 1)) d.loc a a').modify
      (fun _ => by rfl) (fun _ => by rfl) id₂
      fun a a' _ => hextractor (Equiv.swap_apply_right n (n + 1)) e.loc a a'
    refine ⟨h.types_renumbered hρ, ?_, ?_, fun i hi => ?_, fun i => ?_⟩
    · dsimp only [setExtractor]
      rw [Array.size_push, Array.size_push, Table.modify_comm _ hne.symm]
      exact hterms
    · simp only [Array.size_push]
    · rw [Array.size_push, Array.size_push] at hi
      exact Equiv.swap_apply_of_ne_of_ne (by omega) (by omega)
    · exact (getElem?_push_push_swap rs.templates d e i).trans (templates_renumbered _ i)

omit h in
theorem markInternal_cases (rs : RuleSet) (r : Rule) :
    (∀ rs' : RuleSet, rs'.terms.find? = rs.terms.find? → rs'.markInternal r = rs') ∨
      ∃ id, ∀ rs' : RuleSet, rs'.terms.find? = rs.terms.find? →
        rs'.markInternal r = { rs' with terms := rs'.terms.modify id (TermInfo.mark r.loc) } := by
  cases hid : r.root?.bind rs.terms.find? with
  | none =>
    refine .inl fun rs' hfind => ?_
    rw [markInternal_eq, hfind, hid]
  | some id =>
    refine .inr ⟨id, fun rs' hfind => ?_⟩
    rw [markInternal_eq, hfind, hid]

theorem markInternal_alike (r r' : Rule) :
    ((rs.markInternal r).markInternal r').Alike ((rs.markInternal r').markInternal r) := by
  have hfind (r : Rule) : (rs.markInternal r).terms.find? = rs.terms.find? :=
    funext (find?_markInternal rs r)
  have hself (r : Rule) : (rs.markInternal r).Alike (rs.markInternal r) :=
    (rs.markInternal r).alike_refl
  rcases markInternal_cases rs r with hr | ⟨id, hr⟩
  · rw [hr rs rfl, hr _ (hfind r')]
    exact hself r'
  · rcases markInternal_cases rs r' with hr' | ⟨id', hr'⟩
    · rw [hr' rs rfl, hr' _ (hfind r)]
      exact hself r
    · rw [hr' _ (hfind r), hr _ (hfind r'), hr rs rfl, hr' rs rfl]
      have hρ : Renumbering.refl.Fixes rs.types.size rs.terms.size rs.templates.size :=
        ⟨rfl, fun _ _ => rfl, fun _ _ => rfl, fun _ _ => rfl⟩
      have hterms := h.terms_renumbered hρ
      have hmark (loc loc' : Loc) (a a' : TermInfo) (ha : a.Renumbered .refl a') :
          (a.mark loc).Renumbered .refl (a'.mark loc') := by
        rw [TermInfo.mark, TermInfo.mark, if_congr (constructor_missing_iff ha.constructor) rfl rfl]
        split_ifs
        · exact { ha with constructor := .internal loc loc' }
        · exact ha
      have hboth (l₁ l₁' l₂ l₂' : Loc) :=
        (hterms.modify (TermInfo.name_mark l₁) (TermInfo.name_mark l₁') id
          fun a a' _ => hmark l₁ l₁' a a').modify
          (TermInfo.name_mark l₂) (TermInfo.name_mark l₂') id' fun a a' _ => hmark l₂ l₂' a a'
      refine ⟨.refl, rfl, h.types_renumbered hρ, ?_, rfl, fun _ _ => rfl, templates_renumbered _⟩
      dsimp only
      -- In one term only the place differs that the first of the two rules leaves there.
      by_cases hsame : id = id'
      · subst hsame
        exact hboth r.loc r'.loc r'.loc r.loc
      · rw [Table.modify_comm _ (Ne.symm hsame)]
        exact hboth r.loc r.loc r'.loc r'.loc

end RuleSet

/-- Independent entries may enter in either order. -/
theorem Entry.exchange {e f : Entry} (hef : e.Independent f) {rs s t : RuleSet} (h : rs.Bounded)
    (hs : e.enter rs = .ok s) (ht : f.enter s = .ok t) : rs.Exchanges t e.enter f.enter := by
  cases hef with
  | types d e => exact RuleSet.exchanges_types h hs ht
  | decls d e => exact RuleSet.exchanges_decls h hs ht
  | externals d e => exact RuleSet.exchanges_externals hs ht
  | templates d e => exact RuleSet.exchanges_templates h hs ht
  | marks r r' =>
    cases hs
    cases ht
    exact ⟨_, _, rfl, rfl, RuleSet.markInternal_alike h r r'⟩
  | @variants typeName typeName' v w hne =>
    obtain ⟨type, htype, hv⟩ := enter_variant_ok.mp hs
    obtain ⟨type', htype', hw⟩ := enter_variant_ok.mp ht
    have hfind {type : TypeId} {typeName : Bytes} {v : Variant} {s : RuleSet}
        (hs : RuleSet.addVariant type typeName v rs = .ok s) (name : Bytes) :
        s.types.find? name = rs.types.find? name := by
      obtain ⟨ids, terms, -, -, rfl⟩ := RuleSet.addVariant_ok.mp hs
      exact Table.find?_withVariant rs.types _ _ name
    rw [hfind hv] at htype'
    have htypes : type ≠ type' := by
      rintro rfl
      exact hne (Table.find?_inj htype htype')
    obtain ⟨s', t', hs', ht', halike⟩ := RuleSet.exchanges_variants h htypes hv hw
    refine ⟨s', t', enter_variant_ok.mpr ⟨type', htype', hs'⟩,
      enter_variant_ok.mpr ⟨type, ?_, ht'⟩, halike⟩
    rw [hfind hs', htype]

namespace Entry

def enterAll (es : List Entry) (rs : RuleSet) : Option RuleSet :=
  es.foldlM (fun rs e => (e.enter rs).toOption) rs

theorem enterAll_cons {e : Entry} {es : List Entry} {rs t : RuleSet} :
    enterAll (e :: es) rs = some t ↔ ∃ s, e.enter rs = .ok s ∧ enterAll es s = some t := by
  rw [enterAll, List.foldlM_cons]
  cases e.enter rs with
  | error errors => simp [Except.toOption]
  | ok s => simp [Except.toOption, enterAll]

theorem enterAll_append (es fs : List Entry) (rs : RuleSet) :
    enterAll (es ++ fs) rs = (enterAll es rs).bind (enterAll fs) :=
  List.foldlM_append

theorem enterAll_rules {es : List Entry} {rs t : RuleSet} (h : enterAll es rs = some t) :
    t.rules = rs.rules := by
  induction es generalizing rs with
  | nil =>
    cases h
    rfl
  | cons e es ih =>
    obtain ⟨s, hs, ht⟩ := enterAll_cons.mp h
    rw [ih ht, enter_rules hs]

theorem enter_alike {e : Entry} {rs rs' s : RuleSet} (h : rs.Alike rs') (hs : e.enter rs = .ok s) :
    ∃ s', e.enter rs' = .ok s' ∧ s.Alike s' := by
  obtain ⟨ρ, hρ, h⟩ := h
  have hrenumber := enter_renumber hρ h e
  rw [hs] at hrenumber
  generalize e.enter rs' = x at hrenumber
  cases hrenumber with
  | ok halike => exact ⟨_, rfl, ρ, hρ, halike⟩

theorem enterAll_alike {es : List Entry} {rs rs' t : RuleSet} (h : rs.Alike rs')
    (ht : enterAll es rs = some t) : ∃ t', enterAll es rs' = some t' ∧ t.Alike t' := by
  induction es generalizing rs rs' with
  | nil =>
    cases ht
    exact ⟨rs', rfl, h⟩
  | cons e es ih =>
    obtain ⟨s, hs, ht⟩ := enterAll_cons.mp ht
    obtain ⟨s', hs', halike⟩ := enter_alike h hs
    obtain ⟨t', ht', halike'⟩ := ih halike ht
    exact ⟨t', enterAll_cons.mpr ⟨s', hs', ht'⟩, halike'⟩

inductive Reordering : List Entry → List Entry → Prop
  | nil : Reordering [] []
  | cons (e : Entry) {es fs : List Entry} (h : Reordering es fs) : Reordering (e :: es) (e :: fs)
  | swap {e f : Entry} (h : e.Independent f) (es : List Entry) :
      Reordering (e :: f :: es) (f :: e :: es)
  | trans {es fs gs : List Entry} (h : Reordering es fs) (h' : Reordering fs gs) :
      Reordering es gs

namespace Reordering

theorem refl (es : List Entry) : Reordering es es := by
  induction es with
  | nil => exact .nil
  | cons e es ih => exact .cons e ih

theorem append_left (es : List Entry) {fs gs : List Entry} (h : Reordering fs gs) :
    Reordering (es ++ fs) (es ++ gs) := by
  induction es with
  | nil => exact h
  | cons e es ih => exact .cons e ih

theorem append_right {es fs : List Entry} (h : Reordering es fs) (gs : List Entry) :
    Reordering (es ++ gs) (fs ++ gs) := by
  induction h with
  | nil => exact refl gs
  | cons e _ ih => exact .cons e ih
  | swap h es => exact .swap h (es ++ gs)
  | trans _ _ ih ih' => exact .trans ih ih'

theorem append {es es' fs fs' : List Entry} (h : Reordering es es') (h' : Reordering fs fs') :
    Reordering (es ++ fs) (es' ++ fs') :=
  .trans (h.append_right fs) (h'.append_left es')

theorem pass {e : Entry} {es : List Entry} (h : ∀ f ∈ es, e.Independent f) :
    Reordering (e :: es) (es ++ [e]) := by
  induction es with
  | nil => exact refl [e]
  | cons f es ih =>
    obtain ⟨hf, hes⟩ := List.forall_mem_cons.mp h
    exact .trans (.swap hf es) (.cons f (ih hes))

theorem exchange {es fs : List Entry} (h : ∀ e ∈ es, ∀ f ∈ fs, e.Independent f) :
    Reordering (es ++ fs) (fs ++ es) := by
  induction es with
  | nil =>
    rw [List.nil_append, List.append_nil]
    exact refl fs
  | cons e es ih =>
    obtain ⟨he, hes⟩ := List.forall_mem_cons.mp h
    have hpass := (pass he).append_right es
    rw [List.append_assoc] at hpass
    exact .trans (.cons e (ih hes)) hpass

theorem flatMap {δ : Type} (entries : δ → List Entry) {ds ds' : List δ} (hperm : ds.Perm ds')
    (h : ds.Pairwise fun d d' => ∀ e ∈ entries d, ∀ f ∈ entries d', e.Independent f) :
    Reordering (ds.flatMap entries) (ds'.flatMap entries) := by
  induction hperm with
  | nil => exact .nil
  | cons d _ ih =>
    rw [List.flatMap_cons, List.flatMap_cons]
    exact (ih (List.pairwise_cons.mp h).2).append_left _
  | swap d d' ds =>
    simp only [List.flatMap_cons, ← List.append_assoc]
    exact (exchange ((List.pairwise_cons.mp h).1 d List.mem_cons_self)).append_right _
  | trans hperm _ ih ih' =>
    -- The list in between is made of the same definitions, so its entries are independent too.
    have hsymm : ∀ {d d' : δ}, (∀ e ∈ entries d, ∀ f ∈ entries d', e.Independent f) →
        ∀ e ∈ entries d', ∀ f ∈ entries d, e.Independent f :=
      fun hd e he f hf => (hd f hf e he).symm
    exact .trans (ih h) (ih' ((hperm.pairwise_iff hsymm).mp h))

theorem map {δ : Type} {entry : δ → Entry} {ds ds' : List δ} (hperm : ds.Perm ds')
    (h : ∀ d d', (entry d).Independent (entry d')) :
    Reordering (ds.map entry) (ds'.map entry) := by
  have hblocks := flatMap (fun d => [entry d]) hperm
    (List.pairwise_of_forall fun d d' => by simp [h])
  rwa [← List.map_eq_flatMap, ← List.map_eq_flatMap] at hblocks

theorem enterAll {es fs : List Entry} (h : Reordering es fs) {rs t : RuleSet} (hrs : rs.Bounded)
    (ht : Entry.enterAll es rs = some t) : ∃ t', Entry.enterAll fs rs = some t' ∧ t.Alike t' := by
  induction h generalizing rs t with
  | nil => exact ⟨t, ht, t.alike_refl⟩
  | cons e _ ih =>
    obtain ⟨s, hs, ht⟩ := enterAll_cons.mp ht
    obtain ⟨t', ht', halike⟩ := ih (enter_bounded hs hrs) ht
    exact ⟨t', enterAll_cons.mpr ⟨s, hs, ht'⟩, halike⟩
  | swap hef es =>
    obtain ⟨s, hs, ht⟩ := enterAll_cons.mp ht
    obtain ⟨u, hu, ht⟩ := enterAll_cons.mp ht
    obtain ⟨s', u', hs', hu', halike⟩ := Entry.exchange hef hrs hs hu
    obtain ⟨t', ht', halike'⟩ := enterAll_alike halike ht
    exact ⟨t', enterAll_cons.mpr ⟨s', hs', enterAll_cons.mpr ⟨u', hu', ht'⟩⟩, halike'⟩
  | trans _ _ ih ih' =>
    obtain ⟨t', ht', halike⟩ := ih hrs ht
    obtain ⟨t'', ht'', halike'⟩ := ih' hrs ht'
    exact ⟨t'', ht'', halike.trans halike'⟩

end Reordering

end Entry

end TermRules

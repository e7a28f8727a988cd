import TermRules.Proofs.RenumberedChecks

/-!
# Numbers in use

Every number that a rule set stores is the number of an entry. A renumbering
that moves only numbers not yet in use therefore changes no entry, and two new
entries may enter in either order at the price of exchanging their numbers.
-/

namespace TermRules

structure VariantInfo.Below (types terms : Nat) (v : VariantInfo) : Prop where
  fields : ∀ f ∈ v.fields, f.type < types
  term : v.term < terms

def TypeInfo.Below (types terms : Nat) (t : TypeInfo) : Prop :=
  ∀ v ∈ t.shape.variants, v.Below types terms

def Constructor.Below (types : Nat) : Constructor → Prop
  | .variant ref => ref.type < types
  | _ => True

def Extractor.Below (types templates : Nat) : Extractor → Prop
  | .variant ref => ref.type < types
  | .template index _ => index < templates
  | _ => True

structure TermInfo.Below (types templates : Nat) (t : TermInfo) : Prop where
  args : ∀ type ∈ t.args, type < types
  ret : t.ret < types
  constructor : t.constructor.Below types
  extractor : t.extractor.Below types templates

structure RuleSet.Bounded (rs : RuleSet) : Prop where
  bool : 0 < rs.types.size
  types : ∀ i info, rs.types.get? i = some info → info.Below rs.types.size rs.terms.size
  terms : ∀ i info, rs.terms.get? i = some info → info.Below rs.types.size rs.templates.size

section Mono

variable {types types' terms terms' templates templates' : Nat} (htypes : types ≤ types')
include htypes

theorem VariantInfo.Below.mono {v : VariantInfo} (h : v.Below types terms)
    (hterms : terms ≤ terms') : v.Below types' terms' where
  fields f hf := Nat.lt_of_lt_of_le (h.fields f hf) htypes
  term := Nat.lt_of_lt_of_le h.term hterms

theorem TypeInfo.Below.mono {t : TypeInfo} (h : t.Below types terms) (hterms : terms ≤ terms') :
    t.Below types' terms' :=
  fun v hv => (h v hv).mono htypes hterms

theorem Constructor.Below.mono {c : Constructor} (h : c.Below types) : c.Below types' := by
  cases c with
  | variant ref => exact Nat.lt_of_lt_of_le h htypes
  | _ => trivial

theorem Extractor.Below.mono {e : Extractor} (h : e.Below types templates)
    (htemplates : templates ≤ templates') : e.Below types' templates' := by
  cases e with
  | variant ref => exact Nat.lt_of_lt_of_le h htypes
  | template index loc => exact Nat.lt_of_lt_of_le h htemplates
  | _ => trivial

theorem TermInfo.Below.mono {t : TermInfo} (h : t.Below types templates)
    (htemplates : templates ≤ templates') : t.Below types' templates' where
  args type ht := Nat.lt_of_lt_of_le (h.args type ht) htypes
  ret := Nat.lt_of_lt_of_le h.ret htypes
  constructor := h.constructor.mono htypes
  extractor := h.extractor.mono htypes htemplates

end Mono

structure Renumbering.Fixes (ρ : Renumbering) (types terms templates : Nat) : Prop where
  move : ρ.move = id
  type : ∀ i < types, ρ.type i = i
  term : ∀ i < terms, ρ.term i = i
  template : ∀ i < templates, ρ.template i = i

section Fixed

variable {ρ : Renumbering} {types terms templates : Nat} (hρ : ρ.Fixes types terms templates)
include hρ

theorem VariantInfo.Below.renumber_eq {v : VariantInfo} (h : v.Below types terms) :
    v.renumber ρ = v := by
  have hfields : v.fields.map (FieldInfo.renumber ρ) = v.fields := by
    refine (List.map_congr_left fun f hf => ?_).trans (List.map_id _)
    rw [FieldInfo.renumber, hρ.type f.type (h.fields f hf)]
    rfl
  rw [VariantInfo.renumber, hfields, hρ.term v.term h.term]

theorem TypeInfo.Below.renumber_eq {t : TypeInfo} (h : t.Below types terms) :
    t.renumber ρ = t := by
  obtain ⟨name, shape, isExternal, loc⟩ := t
  rw [TypeInfo.renumber, hρ.move]
  cases shape with
  | enum variants =>
    have hvariants : variants.map (VariantInfo.renumber ρ) = variants :=
      (Array.map_congr_left fun v hv => (h v hv).renumber_eq hρ).trans (Array.map_id _)
    rw [TypeShape.renumber, hvariants]
    rfl
  | _ => rfl

theorem Constructor.Below.renumbered {c : Constructor} (h : c.Below types) : c.Renumbered ρ c := by
  cases c with
  | missing => exact .missing
  | internal loc => exact .internal loc loc
  | external function loc =>
    have hext : Constructor.Renumbered ρ (.external function loc) _ := .external function loc
    rwa [hρ.move] at hext
  | variant ref =>
    have hvar : Constructor.Renumbered ρ (.variant ref) _ := .variant ref
    rwa [VariantRef.renumber, hρ.type ref.type h] at hvar

theorem Extractor.Below.renumber_eq {e : Extractor} (h : e.Below types templates) :
    e.renumber ρ = e := by
  cases e with
  | missing => rfl
  | external function infallible loc => rw [Extractor.renumber, hρ.move, id]
  | template index loc => rw [Extractor.renumber, hρ.template index h, hρ.move, id]
  | variant ref => rw [Extractor.renumber, VariantRef.renumber, hρ.type ref.type h]

theorem TermInfo.Below.renumbered {t : TermInfo} (h : t.Below types templates) :
    t.Renumbered ρ t where
  name := rfl
  args := ((List.map_congr_left fun type ht => hρ.type type (h.args type ht)).trans
    (List.map_id _)).symm
  ret := (hρ.type t.ret h.ret).symm
  isPure := rfl
  isPartial := rfl
  loc := by rw [hρ.move, id]
  constructor := h.constructor.renumbered hρ
  extractor := (h.extractor.renumber_eq hρ).symm

end Fixed

namespace Table

variable {α : Type} [Named α] {R : α → α → Prop} {t : Table α}

theorem renumbered_refl (h : ∀ i a, t.get? i = some a → R a a) :
    t.Renumbered (Equiv.refl Nat) R t where
  size := rfl
  fresh _ _ := rfl
  get i := by
    rw [Equiv.refl_apply]
    cases ha : t.get? i with
    | none => exact .none
    | some a => exact .some (h i a ha)
  find name := by rw [Equiv.coe_refl, Option.map_id_fun, id]

theorem renumbered_swap {a b a' b' : α} {u v : Table α} (hu : t.insert? a = some u)
    (hv : u.insert? b = some v) (hold : ∀ i x, t.get? i = some x → R x x) (ha : R a a')
    (hb : R b b') (haname : (Named.name a' : Bytes) = Named.name a)
    (hbname : (Named.name b' : Bytes) = Named.name b) :
    ∃ u' v', t.insert? b' = some u' ∧ u'.insert? a' = some v' ∧
      v.Renumbered (Equiv.swap t.size (t.size + 1)) R v' := by
  have hsize := size_of_insert? hu
  have hafree := find?_eq_none_of_insert? hu
  have hbfree := find?_eq_none_of_insert? hv
  rw [find?_of_insert? hu] at hbfree
  have hne : (Named.name a : Bytes) ≠ Named.name b := by
    intro he
    rw [if_pos he] at hbfree
    cases hbfree
  rw [if_neg hne] at hbfree
  obtain ⟨u', hu'⟩ : ∃ u', t.insert? b' = some u' := exists_insert? (by rwa [hbname])
  obtain ⟨v', hv'⟩ : ∃ v', u'.insert? a' = some v' := exists_insert? (by
    rwa [find?_of_insert? hu', haname, hbname, if_neg hne.symm])
  have hsize' := size_of_insert? hu'
  refine ⟨u', v', hu', hv', ?_, fun i hi => ?_, fun i => ?_, fun name => ?_⟩
  · rw [size_of_insert? hv, size_of_insert? hv', hsize, hsize']
  · rw [size_of_insert? hv, hsize] at hi
    exact Equiv.swap_apply_of_ne_of_ne (by omega) (by omega)
  · rw [get?_of_insert? hv, get?_of_insert? hv', get?_of_insert? hu, get?_of_insert? hu', hsize,
      hsize']
    by_cases hfirst : i = t.size
    · subst hfirst
      rw [Equiv.swap_apply_left, if_neg (by omega), if_pos rfl, if_pos rfl]
      exact .some ha
    · by_cases hsecond : i = t.size + 1
      · subst hsecond
        rw [Equiv.swap_apply_right, if_pos rfl, if_neg (by omega), if_pos rfl]
        exact .some hb
      · rw [Equiv.swap_apply_of_ne_of_ne hfirst hsecond, if_neg hsecond, if_neg hfirst,
          if_neg hsecond, if_neg hfirst]
        cases hx : t.get? i with
        | none => exact .none
        | some x => exact .some (hold i x hx)
  · rw [find?_of_insert? hv, find?_of_insert? hv', find?_of_insert? hu, find?_of_insert? hu', hsize,
      hsize', haname, hbname]
    by_cases hfirst : Named.name a = name
    · subst hfirst
      rw [if_pos rfl, if_neg hne.symm, if_pos rfl, Option.map_some, Equiv.swap_apply_left]
    · by_cases hsecond : Named.name b = name
      · subst hsecond
        rw [if_neg hne, if_pos rfl, if_pos rfl, Option.map_some, Equiv.swap_apply_right]
      · rw [if_neg hfirst, if_neg hsecond, if_neg hsecond, if_neg hfirst]
        cases hx : t.find? name with
        | none => rfl
        | some i =>
          have hi := find?_lt_size hx
          rw [Option.map_some, Equiv.swap_apply_of_ne_of_ne (by omega) (by omega)]

end Table

mutual

theorem CheckedPattern.renumber_refl : ∀ p : CheckedPattern, p.renumber .refl = p
  | .wildcard _ | .bind _ _ | .equal _ _ | .int _ _ | .bool _ _ => rfl
  | .bindAs s var sub => congrArg (bindAs s var) sub.renumber_refl
  | .variant s term args => congrArg (variant s term) (renumberAll_refl args)
  | .extractor s term args => congrArg (extractor s term) (renumberAll_refl args)
  | .all s parts => congrArg (all s) (renumberAll_refl parts)

theorem CheckedPattern.renumberAll_refl : ∀ ps : List CheckedPattern, renumberAll .refl ps = ps
  | [] => rfl
  | p :: ps => congrArg₂ List.cons p.renumber_refl (renumberAll_refl ps)

end

mutual

theorem CheckedExpr.renumber_refl : ∀ e : CheckedExpr, e.renumber .refl = e
  | .var _ _ | .int _ _ | .bool _ _ => rfl
  | .call s term args => congrArg (call s term) (renumberAll_refl args)
  | .letIn s bindings body =>
    congrArg₂ (letIn s) (renumberIn_refl bindings) body.renumber_refl

theorem CheckedExpr.renumberAll_refl : ∀ es : List CheckedExpr, renumberAll .refl es = es
  | [] => rfl
  | e :: es => congrArg₂ List.cons e.renumber_refl (renumberAll_refl es)

theorem CheckedExpr.renumberIn_refl :
    ∀ bs : List (CheckedBinding CheckedExpr), renumberIn .refl bs = bs
  | [] => rfl
  | ⟨v, value⟩ :: bs =>
    congrArg₂ List.cons (congrArg (CheckedBinding.mk v) value.renumber_refl) (renumberIn_refl bs)

end

theorem VariantInfo.renumber_refl (v : VariantInfo) : v.renumber .refl = v := by
  have hfield : FieldInfo.renumber .refl = id := rfl
  rw [renumber, hfield, List.map_id]
  rfl

theorem TypeInfo.renumber_refl (t : TypeInfo) : t.renumber .refl = t := by
  obtain ⟨name, shape, isExternal, loc⟩ := t
  cases shape with
  | enum variants =>
    have hvariant : VariantInfo.renumber .refl = id := funext VariantInfo.renumber_refl
    rw [renumber, TypeShape.renumber, hvariant, Array.map_id]
    rfl
  | _ => rfl

theorem TermInfo.renumbered_refl (t : TermInfo) : t.Renumbered .refl t where
  name := rfl
  args := (List.map_id _).symm
  ret := rfl
  isPure := rfl
  isPartial := rfl
  loc := rfl
  constructor := by
    cases t.constructor with
    | missing => exact .missing
    | internal loc => exact .internal loc loc
    | external function loc => exact .external function loc
    | variant ref => exact .variant ref
  extractor := by cases t.extractor <;> rfl

theorem CheckedRule.renumber_refl (r : CheckedRule) : r.renumber .refl = r := by
  have hguard (g : CheckedGuard) : g.renumber .refl = g :=
    congrArg₂ CheckedGuard.mk g.pattern.renumber_refl g.value.renumber_refl
  obtain ⟨root, name, priority, order, args, guards, result, vars, loc⟩ := r
  rw [renumber, result.renumber_refl,
    (List.map_congr_left fun p _ => p.renumber_refl).trans (List.map_id args),
    (List.map_congr_left fun g _ => hguard g).trans (List.map_id guards),
    (Array.map_congr_left fun (v : VarInfo) _ => (rfl : v.renumber .refl = v)).trans
      (Array.map_id vars)]
  rfl

section Trans

variable (ρ σ : Renumbering)

theorem VariantInfo.renumber_trans (v : VariantInfo) :
    v.renumber (ρ.trans σ) = (v.renumber ρ).renumber σ := by
  rw [renumber, renumber, renumber, List.map_map]
  rfl

theorem TypeInfo.renumber_trans (t : TypeInfo) :
    t.renumber (ρ.trans σ) = (t.renumber ρ).renumber σ := by
  obtain ⟨name, shape, isExternal, loc⟩ := t
  cases shape with
  | enum variants =>
    rw [renumber, renumber, renumber, TypeShape.renumber, TypeShape.renumber, TypeShape.renumber,
      Array.map_map, Array.map_congr_left fun v _ => VariantInfo.renumber_trans ρ σ v]
    rfl
  | _ => rfl

variable {ρ σ}

theorem Constructor.Renumbered.trans {a b c : Constructor} (h : a.Renumbered ρ b)
    (h' : b.Renumbered σ c) : a.Renumbered (ρ.trans σ) c := by
  cases h with
  | missing =>
    cases h'
    exact .missing
  | internal loc =>
    cases h'
    exact .internal _ _
  | external function loc =>
    cases h'
    exact .external function loc
  | variant ref =>
    cases h'
    exact .variant ref

theorem TermInfo.Renumbered.trans {a b c : TermInfo} (h : a.Renumbered ρ b)
    (h' : b.Renumbered σ c) : a.Renumbered (ρ.trans σ) c where
  name := h'.name.trans h.name
  args := by
    rw [h'.args, h.args, List.map_map]
    rfl
  ret := by
    rw [h'.ret, h.ret]
    rfl
  isPure := h'.isPure.trans h.isPure
  isPartial := h'.isPartial.trans h.isPartial
  loc := by
    rw [h'.loc, h.loc]
    rfl
  constructor := h.constructor.trans h'.constructor
  extractor := by
    rw [h'.extractor, h.extractor]
    cases a.extractor <;> rfl

theorem Table.Renumbered.trans {α : Type} [Named α] {π π' : Equiv.Perm Nat}
    {R R' S : α → α → Prop} {t t' t'' : Table α} (h : t.Renumbered π R t')
    (h' : t'.Renumbered π' R' t'') (hS : ∀ a b c, R a b → R' b c → S a c) :
    t.Renumbered (π.trans π') S t'' where
  size := h'.size.trans h.size
  fresh i hi := by rw [Equiv.trans_apply, h.fresh i hi, h'.fresh i (h.size ▸ hi)]
  get i := by
    have hi := h.get i
    have hi' := h'.get (π i)
    rw [Equiv.trans_apply]
    generalize t.get? i = x, t'.get? (π i) = y, t''.get? (π' (π i)) = z at hi hi'
    cases hi with
    | none =>
      cases hi'
      exact .none
    | some hab =>
      cases hi' with
      | some hbc => exact .some (hS _ _ _ hab hbc)
  find name := by
    rw [h'.find, h.find, Option.map_map]
    rfl

mutual

theorem Pattern.relocate_comp (m m' : Loc → Loc) : ∀ p : Pattern,
    (p.relocate m).relocate m' = p.relocate (m' ∘ m)
  | .wildcard _ | .var _ _ | .int _ _ | .bool _ _ => rfl
  | .bind _ _ sub => by rw [relocate, relocate, relocate, sub.relocate_comp m m']; rfl
  | .term _ _ args => by rw [relocate, relocate, relocate, relocateAll_comp m m' args]; rfl
  | .all _ parts => by rw [relocate, relocate, relocate, relocateAll_comp m m' parts]; rfl

theorem Pattern.relocateAll_comp (m m' : Loc → Loc) : ∀ ps : List Pattern,
    relocateAll m' (relocateAll m ps) = relocateAll (m' ∘ m) ps
  | [] => rfl
  | p :: ps => by rw [relocateAll, relocateAll, relocateAll, p.relocate_comp m m',
      relocateAll_comp m m' ps]

end

theorem Template.relocate_comp (m m' : Loc → Loc) (t : Template) :
    (t.relocate m).relocate m' = t.relocate (m' ∘ m) := by
  rw [relocate, relocate, relocate, Pattern.relocate_comp, List.map_map]
  rfl

theorem RuleSet.Renumbered.trans {rs rs' rs'' : RuleSet} (h : rs.Renumbered ρ rs')
    (h' : rs'.Renumbered σ rs'') : rs.Renumbered (ρ.trans σ) rs'' where
  types := h.types.trans h'.types fun a b c hab hbc => by
    rw [hbc, hab, TypeInfo.renumber_trans]
  terms := h.terms.trans h'.terms fun _ _ _ hab hbc => hab.trans hbc
  templateCount := h'.templateCount.trans h.templateCount
  freshTemplate i hi := by
    have hi' := h'.freshTemplate i (h.templateCount ▸ hi)
    change σ.template (ρ.template i) = i
    rw [h.freshTemplate i hi, hi']
  templates i := by
    change rs''.templates[σ.template (ρ.template i)]? = _
    rw [h'.templates, h.templates, Option.map_map]
    congr 1
    funext t
    exact t.relocate_comp ρ.move σ.move

end Trans

/-- The same up to numbers, and up to the rules that internal constructors remember. -/
def RuleSet.Alike (rs rs' : RuleSet) : Prop := ∃ ρ : Renumbering, ρ.move = id ∧ rs.Renumbered ρ rs'

theorem RuleSet.Alike.trans {a b c : RuleSet} (h : a.Alike b) (h' : b.Alike c) : a.Alike c := by
  obtain ⟨ρ, hρ, h⟩ := h
  obtain ⟨σ, hσ, h'⟩ := h'
  refine ⟨ρ.trans σ, ?_, h.trans h'⟩
  change σ.move ∘ ρ.move = id
  rw [hρ, hσ]
  rfl

namespace RuleSet

section Bounded

variable {rs : RuleSet} (h : rs.Bounded)
include h

theorem Bounded.types_renumbered {ρ : Renumbering}
    (hρ : ρ.Fixes rs.types.size rs.terms.size rs.templates.size) :
    rs.types.Renumbered (Equiv.refl Nat) (fun t t' => t' = t.renumber ρ) rs.types :=
  Table.renumbered_refl fun i info hi => ((h.types i info hi).renumber_eq hρ).symm

theorem Bounded.terms_renumbered {ρ : Renumbering}
    (hρ : ρ.Fixes rs.types.size rs.terms.size rs.templates.size) :
    rs.terms.Renumbered (Equiv.refl Nat) (TermInfo.Renumbered ρ) rs.terms :=
  Table.renumbered_refl fun i info hi => (h.terms i info hi).renumbered hρ

end Bounded

theorem templates_renumbered (templates : Array Template) (i : Nat) :
    templates[i]? = (templates[i]?).map (Template.relocate id) := by
  rw [show Template.relocate id = id from funext Template.relocate_id, Option.map_id_fun, id]

theorem renumbered_refl (rs : RuleSet) : rs.Renumbered .refl rs where
  types := Table.renumbered_refl fun _ info _ => info.renumber_refl.symm
  terms := Table.renumbered_refl fun _ info _ => info.renumbered_refl
  templateCount := rfl
  freshTemplate _ _ := rfl
  templates := templates_renumbered _

theorem alike_refl (rs : RuleSet) : rs.Alike rs := ⟨.refl, rfl, rs.renumbered_refl⟩

theorem checkRule_withRules (rs : RuleSet) (rules : Array CheckedRule) (r : Rule) (order : Nat) :
    Check.rule { rs with rules } r order = Check.rule rs r order := by
  have hrefl := rs.renumbered_refl
  have hrules : rs.Renumbered .refl { rs with rules } :=
    ⟨hrefl.types, hrefl.terms, hrefl.templateCount, hrefl.freshTemplate, hrefl.templates⟩
  have hcheck := Check.rule_renumber hrules r order
  rw [show r.relocate Renumbering.refl.move = r from r.relocate_id] at hcheck
  rw [hcheck]
  rcases Check.rule rs r order with es | c
  · exact congrArg Except.error (List.map_id es)
  · exact congrArg Except.ok c.renumber_refl

end RuleSet

namespace Renumbering

def swapTypes (n : Nat) (hn : 0 < n) : Renumbering where
  __ := refl
  type := Equiv.swap n (n + 1)
  type_bool := Equiv.swap_apply_of_ne_of_ne (Nat.ne_of_lt hn) (Nat.succ_ne_zero n).symm

def swapTerms (n : Nat) : Renumbering := { refl with term := Equiv.swap n (n + 1) }

def swapTemplates (n : Nat) : Renumbering := { refl with template := Equiv.swap n (n + 1) }

theorem swap_of_lt {n i : Nat} (h : i < n) : Equiv.swap n (n + 1) i = i :=
  Equiv.swap_apply_of_ne_of_ne (by omega) (by omega)

theorem fixes_swapTypes (n : Nat) (hn : 0 < n) (terms templates : Nat) :
    (swapTypes n hn).Fixes n terms templates :=
  ⟨rfl, fun _ => swap_of_lt, fun _ _ => rfl, fun _ _ => rfl⟩

theorem fixes_swapTerms (n types templates : Nat) : (swapTerms n).Fixes types n templates :=
  ⟨rfl, fun _ _ => rfl, fun _ => swap_of_lt, fun _ _ => rfl⟩

theorem fixes_swapTemplates (n types terms : Nat) : (swapTemplates n).Fixes types terms n :=
  ⟨rfl, fun _ _ => rfl, fun _ _ => rfl, fun _ => swap_of_lt⟩

end Renumbering

end TermRules

import TermRules.Proofs.Steps

/-!
# Growth of rule sets

No step takes anything back: types and terms keep their numbers and what was
declared of them, an enum keeps its variants in place, a term keeps the way it
is built or matched once it has one, and templates and rules keep their places.
-/

namespace TermRules

theorem getElem?_push_of_some {α : Type} {as : Array α} {a : α} {i : Nat} (b : α)
    (h : as[i]? = some a) : (as.push b)[i]? = some a := by
  obtain ⟨hlt, -⟩ := Array.getElem?_eq_some_iff.mp h
  rw [Array.getElem?_push, if_neg (Nat.ne_of_lt hlt), h]

/-- Only enums grow, and only at the end. -/
inductive TypeShape.Grows : TypeShape → TypeShape → Prop
  | same (a : TypeShape) : Grows a a
  | enum {vs ws : Array VariantInfo}
      (kept : ∀ (i : Nat) (v : VariantInfo), vs[i]? = some v → ws[i]? = some v) :
      Grows (.enum vs) (.enum ws)

namespace TypeShape

theorem Grows.trans {a b c : TypeShape} (hab : a.Grows b) (hbc : b.Grows c) : a.Grows c := by
  cases hab with
  | same => exact hbc
  | enum hw =>
    cases hbc with
    | same => exact .enum hw
    | enum hu => exact .enum fun i v h => hu i v (hw i v h)

theorem grows_addVariant (a : TypeShape) (v : VariantInfo) : a.Grows (a.addVariant v) := by
  cases a with
  | enum vs =>
    exact .enum fun i w h => getElem?_push_of_some v h
  | builtin => exact .same _
  | primitive => exact .same _

theorem Grows.isPrimitive_eq {a b : TypeShape} (h : a.Grows b) :
    b.isPrimitive = a.isPrimitive := by
  cases h <;> rfl

theorem Grows.isEnum_eq {a b : TypeShape} (h : a.Grows b) : b.isEnum = a.isEnum := by
  cases h <;> rfl

theorem Grows.variants {a b : TypeShape} (h : a.Grows b) {i : Nat} {v : VariantInfo}
    (hv : a.variants[i]? = some v) : b.variants[i]? = some v := by
  cases h with
  | same => exact hv
  | enum hw => exact hw i v hv

end TypeShape

structure TermInfo.Grows (a b : TermInfo) : Prop where
  name_eq : b.name = a.name
  args_eq : b.args = a.args
  ret_eq : b.ret = a.ret
  isPure_eq : b.isPure = a.isPure
  isPartial_eq : b.isPartial = a.isPartial
  loc_eq : b.loc = a.loc
  constructor_eq : a.constructor ≠ .missing → b.constructor = a.constructor
  extractor_eq : a.extractor ≠ .missing → b.extractor = a.extractor

namespace TermInfo

theorem Grows.refl (a : TermInfo) : a.Grows a :=
  ⟨rfl, rfl, rfl, rfl, rfl, rfl, fun _ => rfl, fun _ => rfl⟩

theorem Grows.trans {a b c : TermInfo} (hab : a.Grows b) (hbc : b.Grows c) : a.Grows c where
  name_eq := hbc.name_eq.trans hab.name_eq
  args_eq := hbc.args_eq.trans hab.args_eq
  ret_eq := hbc.ret_eq.trans hab.ret_eq
  isPure_eq := hbc.isPure_eq.trans hab.isPure_eq
  isPartial_eq := hbc.isPartial_eq.trans hab.isPartial_eq
  loc_eq := hbc.loc_eq.trans hab.loc_eq
  constructor_eq h :=
    (hbc.constructor_eq (by rwa [hab.constructor_eq h])).trans (hab.constructor_eq h)
  extractor_eq h := (hbc.extractor_eq (by rwa [hab.extractor_eq h])).trans (hab.extractor_eq h)

theorem grows_constructor {a : TermInfo} (h : a.constructor = .missing) (c : Constructor) :
    a.Grows { a with constructor := c } :=
  ⟨rfl, rfl, rfl, rfl, rfl, rfl, fun hc => absurd h hc, fun _ => rfl⟩

theorem grows_extractor {a : TermInfo} (h : a.extractor = .missing) (e : Extractor) :
    a.Grows { a with extractor := e } :=
  ⟨rfl, rfl, rfl, rfl, rfl, rfl, fun _ => rfl, fun he => absurd h he⟩

end TermInfo

namespace RuleSet

structure Grows (a b : RuleSet) : Prop where
  types : ∀ {id info}, a.types.get? id = some info →
    ∃ info', b.types.get? id = some info' ∧ info'.name = info.name ∧
      info.shape.Grows info'.shape
  terms : ∀ {id info}, a.terms.get? id = some info →
    ∃ info', b.terms.get? id = some info' ∧ info.Grows info'
  templates : ∀ {i : Nat} {t}, a.templates[i]? = some t → b.templates[i]? = some t
  rules : ∀ {i : Nat} {r}, a.rules[i]? = some r → b.rules[i]? = some r

theorem Grows.refl (a : RuleSet) : a.Grows a where
  types h := ⟨_, h, rfl, .same _⟩
  terms h := ⟨_, h, .refl _⟩
  templates h := h
  rules h := h

theorem Grows.trans {a b c : RuleSet} (hab : a.Grows b) (hbc : b.Grows c) : a.Grows c where
  types h := by
    obtain ⟨info', h', hn', hs'⟩ := hab.types h
    obtain ⟨info'', h'', hn'', hs''⟩ := hbc.types h'
    exact ⟨info'', h'', hn''.trans hn', hs'.trans hs''⟩
  terms h := by
    obtain ⟨info', h', hg'⟩ := hab.terms h
    obtain ⟨info'', h'', hg''⟩ := hbc.terms h'
    exact ⟨info'', h'', hg'.trans hg''⟩
  templates h := hbc.templates (hab.templates h)
  rules h := hbc.rules (hab.rules h)

theorem grows_push_template (rs : RuleSet) (t : Template) :
    rs.Grows { rs with templates := rs.templates.push t } where
  types h := ⟨_, h, rfl, .same _⟩
  terms h := ⟨_, h, .refl _⟩
  templates := getElem?_push_of_some t
  rules h := h

theorem grows_push_rule (rs : RuleSet) (r : CheckedRule) :
    rs.Grows { rs with rules := rs.rules.push r } where
  types h := ⟨_, h, rfl, .same _⟩
  terms h := ⟨_, h, .refl _⟩
  templates h := h
  rules := getElem?_push_of_some r

theorem grows_insert_term {rs : RuleSet} {term : TermInfo} {terms : Table TermInfo}
    (h : rs.terms.insert? term = some terms) : rs.Grows { rs with terms } where
  types h' := ⟨_, h', rfl, .same _⟩
  terms h' := ⟨_, Table.get?_insert?_of_some h h', .refl _⟩
  templates h' := h'
  rules h' := h'

theorem grows_modify_type (rs : RuleSet) (id : TypeId) (v : VariantInfo) :
    rs.Grows { rs with
      types := rs.types.modify id fun t => { t with shape := t.shape.addVariant v } } where
  types {j info} h := by
    simp only [Table.get?_modify, h]
    split_ifs
    · exact ⟨_, rfl, rfl, TypeShape.grows_addVariant _ _⟩
    · exact ⟨_, rfl, rfl, .same _⟩
  terms h := ⟨_, h, .refl _⟩
  templates h := h
  rules h := h

theorem grows_modify_term {rs : RuleSet} {id : TermId} {info : TermInfo} {f : TermInfo → TermInfo}
    (found : rs.terms.get? id = some info) (hf : info.Grows (f info)) :
    rs.Grows { rs with terms := rs.terms.modify id f } where
  types h := ⟨_, h, rfl, .same _⟩
  terms {j info'} h := by
    simp only [Table.get?_modify, h]
    split_ifs with hj
    · subst hj
      rw [found] at h
      cases h
      exact ⟨_, rfl, hf⟩
    · exact ⟨_, rfl, .refl _⟩
  templates h := h
  rules h := h

theorem Step.grows {a b : RuleSet} (h : Step a b) : a.Grows b := by
  cases h with
  | type d inserted =>
    exact ⟨fun h => ⟨_, Table.get?_insert?_of_some inserted h, rfl, .same _⟩,
      fun h => ⟨_, h, .refl _⟩, fun h => h, fun h => h⟩
  | variant _ _ _ _ _ _ _ inserted =>
    exact (grows_modify_type a _ _).trans (grows_insert_term inserted)
  | decl _ _ inserted => exact grows_insert_term inserted
  | constructor found missing =>
    exact grows_modify_term found (TermInfo.grows_constructor missing _)
  | extractor found missing => exact grows_modify_term found (TermInfo.grows_extractor missing _)
  | template t found missing =>
    exact (grows_modify_term found (TermInfo.grows_extractor missing _)).trans
      (grows_push_template _ t)
  | rule => exact grows_push_rule a _

theorem Steps.grows {a b : RuleSet} (h : Steps a b) : a.Grows b := by
  induction h with
  | refl => exact .refl a
  | tail _ hstep ih => exact ih.trans hstep.grows

theorem Grows.shape {a b : RuleSet} (h : a.Grows b) {id : TypeId}
    (hid : a.typeInfo id ≠ default) : (a.typeInfo id).shape.Grows (b.typeInfo id).shape := by
  cases hi : a.types.get? id with
  | none =>
    rw [typeInfo, hi] at hid
    exact absurd rfl hid
  | some info =>
    obtain ⟨info', hi', -, hs⟩ := h.types hi
    rwa [typeInfo_of_get? hi, typeInfo_of_get? hi']

def IsEnum (rs : RuleSet) (id : TypeId) (name : Bytes) : Prop :=
  ∃ info, rs.types.get? id = some info ∧ info.shape.isEnum = true ∧ info.name = name

theorem Grows.isEnum {a b : RuleSet} (h : a.Grows b) {id : TypeId} {name : Bytes}
    (he : a.IsEnum id name) : b.IsEnum id name := by
  obtain ⟨info, found, isEnum, hname⟩ := he
  obtain ⟨info', found', hname', hshape⟩ := h.types found
  exact ⟨info', found', hshape.isEnum_eq.trans isEnum, hname'.trans hname⟩

theorem Grows.isPrimitive {a b : RuleSet} (h : a.Grows b) {id : TypeId}
    (hp : (a.typeInfo id).shape.isPrimitive = true) :
    (b.typeInfo id).shape.isPrimitive = true := by
  have hid : a.typeInfo id ≠ default := by
    intro heq
    rw [heq] at hp
    cases hp
  rw [(h.shape hid).isPrimitive_eq, hp]

end RuleSet

end TermRules

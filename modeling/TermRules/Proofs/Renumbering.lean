import Mathlib.Logic.Equiv.Basic
import TermRules.Proofs.Relocation
import TermRules.Proofs.Steps

/-!
# Renumbering

A renumbering permutes the numbers of types, terms and templates and moves the
places of rule files. Two rule sets are the same up to a renumbering when their
entries correspond; only the place that an internal constructor remembers may
differ, since it is the place of the first rule of its term.
-/

namespace TermRules

theorem lookup_map_snd {κ α β : Type} [BEq κ] (f : α → β) (l : List (κ × α)) (k : κ) :
    (l.map (Prod.map id f)).lookup k = (l.lookup k).map f := by
  induction l with
  | nil => rfl
  | cons p l ih =>
    rw [List.map_cons, List.lookup_cons, List.lookup_cons, ih]
    cases hk : k == p.1 <;> simp [hk]

structure Renumbering where
  type : Equiv.Perm TypeId
  term : Equiv.Perm TermId
  template : Equiv.Perm Nat
  move : Loc → Loc
  type_bool : type boolType = boolType
  move_unknown : move .unknown = .unknown

namespace Renumbering

def moving (move : Loc → Loc) (h : move .unknown = .unknown) : Renumbering :=
  ⟨.refl _, .refl _, .refl _, move, rfl, h⟩

def refl : Renumbering := moving id rfl

def trans (ρ σ : Renumbering) : Renumbering where
  type := ρ.type.trans σ.type
  term := ρ.term.trans σ.term
  template := ρ.template.trans σ.template
  move := σ.move ∘ ρ.move
  type_bool := by rw [Equiv.trans_apply, ρ.type_bool, σ.type_bool]
  move_unknown := by rw [Function.comp_apply, ρ.move_unknown, σ.move_unknown]

end Renumbering

variable (ρ : Renumbering)

def FieldInfo.renumber (f : FieldInfo) : FieldInfo := { f with type := ρ.type f.type }

def VariantInfo.renumber (v : VariantInfo) : VariantInfo :=
  { v with fields := v.fields.map (FieldInfo.renumber ρ), term := ρ.term v.term }

def TypeShape.renumber : TypeShape → TypeShape
  | .builtin spelling => .builtin spelling
  | .primitive spelling => .primitive spelling
  | .enum variants => .enum (variants.map (VariantInfo.renumber ρ))

def TypeInfo.renumber (t : TypeInfo) : TypeInfo :=
  { t with shape := t.shape.renumber ρ, loc := ρ.move t.loc }

def VariantRef.renumber (ref : VariantRef) : VariantRef := { ref with type := ρ.type ref.type }

def Extractor.renumber : Extractor → Extractor
  | .missing => .missing
  | .external function infallible loc => .external function infallible (ρ.move loc)
  | .template index loc => .template (ρ.template index) (ρ.move loc)
  | .variant ref => .variant (ref.renumber ρ)

theorem variants_renumber (shape : TypeShape) :
    (shape.renumber ρ).variants = shape.variants.map (VariantInfo.renumber ρ) := by
  cases shape <;> simp [TypeShape.renumber, TypeShape.variants]

/-- The constructors correspond; an internal one may remember another rule. -/
inductive Constructor.Renumbered : Constructor → Constructor → Prop
  | missing : Renumbered .missing .missing
  | internal (loc loc' : Loc) : Renumbered (.internal loc) (.internal loc')
  | external (function : Bytes) (loc : Loc) :
      Renumbered (.external function loc) (.external function (ρ.move loc))
  | variant (ref : VariantRef) : Renumbered (.variant ref) (.variant (ref.renumber ρ))

structure TermInfo.Renumbered (t t' : TermInfo) : Prop where
  name : t'.name = t.name
  args : t'.args = t.args.map ρ.type
  ret : t'.ret = ρ.type t.ret
  isPure : t'.isPure = t.isPure
  isPartial : t'.isPartial = t.isPartial
  loc : t'.loc = ρ.move t.loc
  constructor : t.constructor.Renumbered ρ t'.constructor
  extractor : t'.extractor = t.extractor.renumber ρ

def Site.renumber (s : Site) : Site := ⟨ρ.type s.type, ρ.move s.loc⟩

mutual

def CheckedPattern.renumber : CheckedPattern → CheckedPattern
  | .wildcard s => .wildcard (s.renumber ρ)
  | .bind s var => .bind (s.renumber ρ) var
  | .bindAs s var sub => .bindAs (s.renumber ρ) var sub.renumber
  | .equal s var => .equal (s.renumber ρ) var
  | .int s value => .int (s.renumber ρ) value
  | .bool s value => .bool (s.renumber ρ) value
  | .variant s term args => .variant (s.renumber ρ) (ρ.term term) (renumberAll args)
  | .extractor s term args => .extractor (s.renumber ρ) (ρ.term term) (renumberAll args)
  | .all s parts => .all (s.renumber ρ) (renumberAll parts)

def CheckedPattern.renumberAll : List CheckedPattern → List CheckedPattern
  | [] => []
  | p :: ps => p.renumber :: renumberAll ps

end

mutual

def CheckedExpr.renumber : CheckedExpr → CheckedExpr
  | .var s v => .var (s.renumber ρ) v
  | .int s value => .int (s.renumber ρ) value
  | .bool s value => .bool (s.renumber ρ) value
  | .call s term args => .call (s.renumber ρ) (ρ.term term) (renumberAll args)
  | .letIn s bindings body => .letIn (s.renumber ρ) (renumberIn bindings) body.renumber

def CheckedExpr.renumberAll : List CheckedExpr → List CheckedExpr
  | [] => []
  | e :: es => e.renumber :: renumberAll es

def CheckedExpr.renumberIn :
    List (CheckedBinding CheckedExpr) → List (CheckedBinding CheckedExpr)
  | [] => []
  | ⟨v, value⟩ :: bs => ⟨v, value.renumber⟩ :: renumberIn bs

end

def CheckedGuard.renumber (g : CheckedGuard) : CheckedGuard :=
  ⟨g.pattern.renumber ρ, g.value.renumber ρ⟩

def VarInfo.renumber (v : VarInfo) : VarInfo := { v with type := ρ.type v.type }

def CheckedRule.renumber (r : CheckedRule) : CheckedRule where
  root := ρ.term r.root
  name := r.name
  priority := r.priority
  order := r.order
  args := r.args.map (CheckedPattern.renumber ρ)
  guards := r.guards.map (CheckedGuard.renumber ρ)
  result := r.result.renumber ρ
  vars := r.vars.map (VarInfo.renumber ρ)
  loc := ρ.move r.loc

def CheckedRule.unplaced (r : CheckedRule) : CheckedRule := { r with order := 0 }

theorem CheckedPattern.renumberAll_eq_map (ps : List CheckedPattern) :
    renumberAll ρ ps = ps.map (renumber ρ) := by
  induction ps with
  | nil => rfl
  | cons p ps ih => rw [renumberAll, ih, List.map_cons]

theorem CheckedExpr.renumberAll_eq_map (es : List CheckedExpr) :
    renumberAll ρ es = es.map (renumber ρ) := by
  induction es with
  | nil => rfl
  | cons e es ih => rw [renumberAll, ih, List.map_cons]

theorem CheckedExpr.type_renumber (e : CheckedExpr) : (e.renumber ρ).type = ρ.type e.type := by
  cases e <;> rfl

/-- Entries with corresponding numbers are related and have the same name, and numbers that are
not in use yet stay. -/
structure Table.Renumbered {α : Type} [Named α] (π : Equiv.Perm Nat) (R : α → α → Prop)
    (t t' : Table α) : Prop where
  size : t'.size = t.size
  fresh : ∀ i, t.size ≤ i → π i = i
  get : ∀ i, Option.Rel R (t.get? i) (t'.get? (π i))
  find : ∀ name, t'.find? name = (t.find? name).map π

namespace Table

variable {α : Type} [Named α] {π : Equiv.Perm Nat} {R : α → α → Prop} {t t' : Table α}

theorem Renumbered.insert_none (h : t.Renumbered π R t') {a : α} (hnone : t.insert? a = none)
    (a' : α) (hname : (Named.name a' : Bytes) = Named.name a) : t'.insert? a' = none := by
  rw [insert?, hname, h.find, Option.isSome_map]
  simpa [insert?] using hnone

theorem Renumbered.insert_some (h : t.Renumbered π R t') {a : α} {u : Table α}
    (hsome : t.insert? a = some u) (a' : α) (hR : R a a')
    (hname : (Named.name a' : Bytes) = Named.name a) :
    ∃ u', t'.insert? a' = some u' ∧ u.Renumbered π R u' := by
  obtain ⟨u', hinsert⟩ : ∃ u', t'.insert? a' = some u' := exists_insert? (by
    rw [hname, h.find, find?_eq_none_of_insert? hsome, Option.map_none])
  have hnext : π t.size = t.size := h.fresh t.size (Nat.le_refl _)
  refine ⟨_, hinsert, ?_, ?_, ?_, ?_⟩
  · rw [size_of_insert? hinsert, size_of_insert? hsome, h.size]
  · intro i hi
    rw [size_of_insert? hsome] at hi
    exact h.fresh i (by omega)
  · intro i
    rw [get?_of_insert? hinsert, get?_of_insert? hsome, h.size]
    have hiff : π i = t.size ↔ i = t.size := by rw [← π.apply_eq_iff_eq (x := i), hnext]
    rw [if_congr hiff rfl rfl]
    split_ifs
    · exact .some hR
    · exact h.get i
  · intro name
    rw [find?_of_insert? hinsert, find?_of_insert? hsome, hname, h.size, h.find]
    split_ifs
    · rw [Option.map_some, hnext]
    · rfl

theorem Renumbered.modify (h : t.Renumbered π R t') {f f' : α → α}
    (hf : ∀ a, (Named.name (f a) : Bytes) = Named.name a)
    (hf' : ∀ a, (Named.name (f' a) : Bytes) = Named.name a) (id : Nat)
    (hR : ∀ a a', t.get? id = some a → R a a' → R (f a) (f' a')) :
    (t.modify id f).Renumbered π R (t'.modify (π id) f') where
  size := by rw [size_modify, size_modify, h.size]
  fresh i hi := h.fresh i (by rwa [size_modify] at hi)
  get i := by
    rw [get?_modify, get?_modify, if_congr π.apply_eq_iff_eq rfl rfl]
    split_ifs with hi
    · subst hi
      have hget := h.get id
      generalize hx : t.get? id = x, t'.get? (π id) = x' at hget
      cases hget with
      | none => exact .none
      | some hget => exact .some (hR _ _ hx hget)
    · exact h.get i
  find name := by rw [find?_modify t' _ hf', find?_modify t _ hf, h.find]

end Table

structure RuleSet.Renumbered (rs rs' : RuleSet) : Prop where
  types : rs.types.Renumbered ρ.type (fun t t' => t' = t.renumber ρ) rs'.types
  terms : rs.terms.Renumbered ρ.term (TermInfo.Renumbered ρ) rs'.terms
  templateCount : rs'.templates.size = rs.templates.size
  freshTemplate : ∀ i, rs.templates.size ≤ i → ρ.template i = i
  templates : ∀ i : Nat,
    rs'.templates[ρ.template i]? = (rs.templates[i]?).map (Template.relocate ρ.move)

namespace RuleSet

section Reading

variable {ρ} {rs rs' : RuleSet} (h : rs.Renumbered ρ rs')
include h

theorem Renumbered.typeInfo (i : TypeId) :
    rs'.typeInfo (ρ.type i) = (rs.typeInfo i).renumber ρ := by
  rw [RuleSet.typeInfo, RuleSet.typeInfo]
  have hi := h.types.get i
  generalize rs.types.get? i = info, rs'.types.get? (ρ.type i) = info' at hi
  cases hi with
  | some hi => exact hi
  | none =>
    change (default : TypeInfo) = TypeInfo.renumber ρ default
    have hloc : ρ.move (default : TypeInfo).loc = (default : TypeInfo).loc := ρ.move_unknown
    rw [TypeInfo.renumber, hloc]
    rfl

theorem Renumbered.termInfo (i : TermId) :
    TermInfo.Renumbered ρ (rs.termInfo i) (rs'.termInfo (ρ.term i)) := by
  rw [RuleSet.termInfo, RuleSet.termInfo]
  have hi := h.terms.get i
  generalize rs.terms.get? i = info, rs'.terms.get? (ρ.term i) = info' at hi
  cases hi with
  | some hi => exact hi
  | none =>
    have hloc : (default : Loc) = ρ.move default := ρ.move_unknown.symm
    exact ⟨rfl, rfl, ρ.type_bool.symm, rfl, rfl, hloc, .missing, rfl⟩

theorem Renumbered.typeName (i : TypeId) : rs'.typeName (ρ.type i) = rs.typeName i := by
  rw [RuleSet.typeName, h.typeInfo]
  rfl

theorem Renumbered.template (i : Nat) :
    (rs'.templates[ρ.template i]?).getD default =
      ((rs.templates[i]?).getD default).relocate ρ.move := by
  rw [h.templates]
  cases rs.templates[i]? with
  | some t => rfl
  | none =>
    have hloc : ρ.move default = default := ρ.move_unknown
    change (⟨⟨default, default⟩, [], .wildcard default, default⟩ : Template) =
      ⟨⟨default, ρ.move default⟩, [], .wildcard (ρ.move default), ρ.move default⟩
    rw [hloc]

end Reading

end RuleSet

end TermRules

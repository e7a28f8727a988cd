import Mathlib.Data.List.Forall2
import TermRules.Proofs.Exchanges

/-!
# Accepted entries

Every refusal has an error, so an analysis finds none exactly when each of its
steps succeeds. The types and variants of the definitions are then entered one
after the other, and no type has two variants of one name.
-/

namespace TermRules

def Explained {α : Type} (x : Except (List SemanticError) α) : Prop := x ≠ .error []

theorem explained_error {α : Type} {es : List SemanticError} :
    Explained (.error es : Except (List SemanticError) α) ↔ es ≠ [] := by
  simp [Explained]

theorem explained_bothOrErrors {α β : Type} {x : Except (List SemanticError) α}
    {y : Except (List SemanticError) β} (hx : Explained x) (hy : Explained y) :
    Explained (bothOrErrors x y) := by
  cases x with
  | ok a =>
    cases y with
    | ok b => simp [Explained, bothOrErrors]
    | error es => simpa [Explained, bothOrErrors] using hy
  | error es =>
    cases y with
    | ok b => simpa [Explained, bothOrErrors] using hx
    | error fs => simp_all [Explained, bothOrErrors]

theorem explained_map {α β : Type} {x : Except (List SemanticError) α} (hx : Explained x)
    (f : α → β) : Explained (x.map f) := by
  cases x with
  | ok a => simp [Explained, Except.map]
  | error es => simpa [Explained, Except.map] using hx

namespace RuleSet

variable (rs : RuleSet)

theorem explained_resolveType (i : Ident) : Explained (rs.resolveType i) := by
  rw [resolveType]
  cases rs.types.find? i.name <;> simp [Explained]

theorem explained_resolveTypes (is : List Ident) : Explained (rs.resolveTypes is) := by
  induction is with
  | nil => simp [Explained, resolveTypes]
  | cons i is ih => exact explained_map (explained_bothOrErrors (rs.explained_resolveType i) ih) _

theorem explained_addVariant (type : TypeId) (typeName : Bytes) (v : Variant) :
    Explained (addVariant type typeName v rs) := by
  have htypes := rs.explained_resolveTypes (v.fields.map Field.type)
  rw [addVariant_eq]
  cases hids : rs.resolveTypes (v.fields.map Field.type) with
  | error es =>
    rw [hids] at htypes
    exact explained_error.mpr (explained_error.mp htypes)
  | ok ids =>
    dsimp only
    split <;> simp [Explained]

theorem explained_addDecl (d : TermDecl) : Explained (addDecl d rs) := by
  have htypes := explained_bothOrErrors (rs.explained_resolveTypes d.args)
    (rs.explained_resolveType d.ret)
  rw [addDecl_eq]
  rcases hids : bothOrErrors (rs.resolveTypes d.args) (rs.resolveType d.ret) with es | ⟨args, ret⟩
  · rw [hids] at htypes
    exact explained_error.mpr (explained_error.mp htypes)
  · dsimp only
    split <;> simp [Explained]

theorem explained_addExternal (d : ExternalDef) : Explained (addExternal d rs) := by
  rw [addExternal]
  cases rs.terms.find? d.term.name with
  | none => simp [Explained]
  | some id => cases d.kind <;> dsimp only <;> split_ifs <;> simp [Explained]

theorem explained_addTemplate (d : Template) : Explained (addTemplate d rs) := by
  rw [addTemplate]
  cases rs.terms.find? d.term.name with
  | none => simp [Explained]
  | some id => dsimp only; split_ifs <;> simp [Explained]

end RuleSet

theorem Entry.explained_enter (e : Entry) (rs : RuleSet) : Explained (e.enter rs) := by
  cases e with
  | type d =>
    rw [enter, RuleSet.addTypeName]
    split <;> simp [Explained]
  | variant typeName v =>
    rw [enter]
    split
    · exact rs.explained_addVariant _ typeName v
    · simp [Explained]
  | decl d => exact rs.explained_addDecl d
  | external d => exact rs.explained_addExternal d
  | template d => exact rs.explained_addTemplate d
  | mark r => simp [Explained, enter]

theorem Check.explained_rule (rs : RuleSet) (r : Rule) (order : Nat) :
    Explained (Check.rule rs r order) := by
  rw [rule]
  split
  · simp [Explained]
  · dsimp only
    split
    · simp [Explained]
    · split <;> simp [Explained]

namespace Analysis

def accepted (a : Analysis) : Option RuleSet := if a.errors = [] then some a.ruleSet else none

theorem accepted_eq_some {a : Analysis} {rs : RuleSet} :
    a.accepted = some rs ↔ a.errors = [] ∧ a.ruleSet = rs := by
  rw [accepted]
  split_ifs with h <;> simp [h]

theorem accepted_refuse (a : Analysis) {es : List SemanticError} (h : es ≠ []) :
    (a.refuse es).accepted = none := by
  simp [accepted, refuse, h]

theorem accepted_attempt {a : Analysis} {step : RuleSet → Attempt}
    (h : Explained (step a.ruleSet)) :
    (a.attempt step).accepted = a.accepted.bind fun rs => (step rs).toOption := by
  rw [attempt]
  cases hstep : step a.ruleSet with
  | ok rs =>
    rw [accepted, accepted]
    split_ifs with herrors
    · simp [hstep, Except.toOption]
    · rfl
  | error es =>
    rw [hstep, explained_error] at h
    dsimp only
    rw [accepted_refuse a h, accepted]
    split_ifs
    · simp [hstep, Except.toOption]
    · rfl

theorem accepted_attempt_enter (a : Analysis) (e : Entry) :
    (a.attempt e.enter).accepted = a.accepted.bind (Entry.enterAll [e]) := by
  rw [accepted_attempt (e.explained_enter a.ruleSet)]
  congr 1
  funext rs
  rw [Entry.enterAll, List.foldlM_cons]
  cases (e.enter rs).toOption <;> rfl

theorem bind_enterAll_nil (x : Option RuleSet) : x.bind (Entry.enterAll []) = x :=
  Option.bind_fun_some x

theorem bind_enterAll_append (x : Option RuleSet) (es fs : List Entry) :
    (x.bind (Entry.enterAll es)).bind (Entry.enterAll fs) = x.bind (Entry.enterAll (es ++ fs)) := by
  rw [Option.bind_assoc]
  congr 1
  funext rs
  exact (Entry.enterAll_append es fs rs).symm

theorem accepted_foldl_attempt {δ : Type} (entry : δ → Entry) (a : Analysis) (ds : List δ) :
    (ds.foldl (fun a d => a.attempt (entry d).enter) a).accepted =
      a.accepted.bind (Entry.enterAll (ds.map entry)) := by
  induction ds generalizing a with
  | nil => exact (bind_enterAll_nil _).symm
  | cons d ds ih =>
    rw [List.foldl_cons, ih, accepted_attempt_enter, bind_enterAll_append]
    rfl

theorem attempt_congr {a : Analysis} {step step' : RuleSet → Attempt}
    (h : step a.ruleSet = step' a.ruleSet) : a.attempt step = a.attempt step' := by
  rw [attempt, attempt, h]

end Analysis

namespace RuleSet

theorem addTypeNames_cons (a : Analysis) (d : TypeDef) (ds : List TypeDef) :
    (addTypeNames a (d :: ds)).1 = (addTypeNames (a.attempt (Entry.type d).enter) ds).1 := by
  rw [addTypeNames, Analysis.attempt, Entry.enter, addTypeName]
  cases a.ruleSet.types.insert? (TypeInfo.ofDef d) <;> rfl

theorem addTypeNames_eq_foldl (a : Analysis) (ds : List TypeDef) :
    (addTypeNames a ds).1 = ds.foldl (fun a d => a.attempt (Entry.type d).enter) a := by
  induction ds generalizing a with
  | nil => rfl
  | cons d ds ih => rw [addTypeNames_cons, ih, List.foldl_cons]

theorem accepted_addTypeNames (a : Analysis) (ds : List TypeDef) :
    (addTypeNames a ds).1.accepted = a.accepted.bind (Entry.enterAll (ds.map .type)) := by
  rw [addTypeNames_eq_foldl, Analysis.accepted_foldl_attempt]

theorem find?_addTypeNames {a : Analysis} {name : Bytes} {id : TypeId}
    (h : a.ruleSet.types.find? name = some id) (ds : List TypeDef) :
    (addTypeNames a ds).1.ruleSet.types.find? name = some id := by
  induction ds generalizing a with
  | nil => exact h
  | cons d ds ih =>
    rw [addTypeNames]
    cases hinsert : a.ruleSet.types.insert? (TypeInfo.ofDef d) with
    | none => exact ih (a := a.refuse _) h
    | some types =>
      refine ih (a := ⟨{ a.ruleSet with types }, a.errors⟩) ?_
      have hfree := Table.find?_eq_none_of_insert? hinsert
      rw [Table.find?_of_insert? hinsert, if_neg, h]
      rintro rfl
      rw [hfree] at h
      cases h

theorem addTypeNames_added {a : Analysis} {ds : List TypeDef}
    (h : (addTypeNames a ds).1.errors = []) :
    List.Forall₂
      (fun p d => p.2 = d ∧ (addTypeNames a ds).1.ruleSet.types.find? d.name.name = some p.1)
      (addTypeNames a ds).2 ds := by
  induction ds generalizing a with
  | nil => exact .nil
  | cons d ds ih =>
    rw [addTypeNames] at h ⊢
    cases hinsert : a.ruleSet.types.insert? (TypeInfo.ofDef d) with
    | none =>
      rw [hinsert] at h
      have haccepted :=
        accepted_addTypeNames (a.refuse [⟨d.name.loc, .duplicateType d.name.name⟩]) ds
      rw [Analysis.accepted_refuse _ (List.cons_ne_nil _ _), Analysis.accepted,
        if_pos h] at haccepted
      cases haccepted
    | some types =>
      rw [hinsert] at h
      refine .cons ⟨rfl, find?_addTypeNames ?_ ds⟩ (ih h)
      rw [Table.find?_of_insert? hinsert]
      exact if_pos rfl

theorem find?_attempt_variant (a : Analysis) (typeName : Bytes) (v : Variant) (name : Bytes) :
    (a.attempt (Entry.variant typeName v).enter).ruleSet.types.find? name =
      a.ruleSet.types.find? name := by
  rw [Analysis.attempt]
  cases h : (Entry.variant typeName v).enter a.ruleSet with
  | error es => rfl
  | ok s =>
    obtain ⟨type, -, hvariant⟩ := Entry.enter_variant_ok.mp h
    obtain ⟨ids, terms, -, -, rfl⟩ := addVariant_ok.mp hvariant
    exact Table.find?_withVariant _ _ _ name

theorem addVariants_cons {type : TypeId} {typeName : Bytes} {a : Analysis}
    (h : a.ruleSet.types.find? typeName = some type) {seen : List Bytes} {v : Variant}
    (hv : v.name.name ∉ seen) (vs : List Variant) :
    addVariants type typeName seen a (v :: vs) =
      addVariants type typeName (v.name.name :: seen)
        (a.attempt (Entry.variant typeName v).enter) vs := by
  rw [addVariants, if_neg hv, Analysis.attempt_congr]
  rw [Entry.enter, h]

theorem find?_addVariants {type : TypeId} {typeName : Bytes} {a : Analysis}
    (h : a.ruleSet.types.find? typeName = some type) (seen : List Bytes) (vs : List Variant)
    (name : Bytes) :
    (addVariants type typeName seen a vs).ruleSet.types.find? name =
      a.ruleSet.types.find? name := by
  induction vs generalizing seen a with
  | nil => rfl
  | cons v vs ih =>
    by_cases hv : v.name.name ∈ seen
    · rw [addVariants, if_pos hv]
      exact ih (a := a.refuse _) h seen
    · rw [addVariants_cons h hv, ih, find?_attempt_variant]
      rw [find?_attempt_variant, h]

theorem accepted_addVariants {type : TypeId} {typeName : Bytes} {a : Analysis}
    (h : a.ruleSet.types.find? typeName = some type) (seen : List Bytes) (vs : List Variant)
    (s : RuleSet) :
    (addVariants type typeName seen a vs).accepted = some s ↔
      (vs.map (·.name.name)).Nodup ∧ (vs.map (·.name.name)).Disjoint seen ∧
        a.accepted.bind (Entry.enterAll (vs.map (.variant typeName))) = some s := by
  induction vs generalizing seen a with
  | nil =>
    change a.accepted = some s ↔ _
    simp [Analysis.bind_enterAll_nil]
  | cons v vs ih =>
    by_cases hv : v.name.name ∈ seen
    · rw [addVariants, if_pos hv, ih (a := a.refuse _) h,
        Analysis.accepted_refuse a (List.cons_ne_nil _ _)]
      simp [hv]
    · rw [addVariants_cons h hv, ih (by rw [find?_attempt_variant, h]),
        Analysis.accepted_attempt_enter, Analysis.bind_enterAll_append, List.map_cons,
        List.map_cons, List.singleton_append]
      simp only [List.nodup_cons, List.disjoint_cons_left, List.disjoint_cons_right, hv,
        not_false_eq_true, true_and]
      tauto

end RuleSet

def TypeDef.variants (d : TypeDef) : List Variant :=
  match d.body with
  | .primitive _ => []
  | .enum vs => vs

def TypeDef.variantEntries (d : TypeDef) : List Entry := d.variants.map (.variant d.name.name)

namespace RuleSet

theorem addBody_eq (a : Analysis) (id : TypeId) (d : TypeDef) :
    addBody a (id, d) = addVariants id d.name.name [] a d.variants := by
  rw [addBody, TypeDef.variants]
  cases d.body <;> rfl

theorem accepted_foldl_addBody {a : Analysis} {added : List (TypeId × TypeDef)}
    {ds : List TypeDef}
    (h : List.Forall₂ (fun p d => p.2 = d ∧ a.ruleSet.types.find? d.name.name = some p.1) added ds)
    (s : RuleSet) :
    (added.foldl addBody a).accepted = some s ↔
      (∀ d ∈ ds, (d.variants.map (·.name.name)).Nodup) ∧
        a.accepted.bind (Entry.enterAll (ds.flatMap TypeDef.variantEntries)) = some s := by
  induction ds generalizing a added with
  | nil =>
    cases h
    simp [Analysis.bind_enterAll_nil]
  | cons d ds ih =>
    cases h with
    | @cons p _ added _ hp hadded =>
      obtain ⟨id, d'⟩ := p
      obtain ⟨rfl, hid⟩ := hp
      rw [List.foldl_cons, addBody_eq, ih, List.forall_mem_cons, List.flatMap_cons,
        ← Analysis.bind_enterAll_append, Option.bind_eq_some_iff, Option.bind_eq_some_iff]
      · simp only [accepted_addVariants hid, TypeDef.variantEntries, List.disjoint_nil_right,
          true_and, and_assoc, exists_and_left]
        tauto
      · exact hadded.imp fun p d hp => by rwa [find?_addVariants hid]

theorem accepted_foldl_addBody_none {a : Analysis} (h : a.accepted = none)
    (added : List (TypeId × TypeDef)) : (added.foldl addBody a).accepted = none := by
  have hvariants (type : TypeId) (typeName : Bytes) (seen : List Bytes) (vs : List Variant)
      {a : Analysis} (h : a.accepted = none) :
      (addVariants type typeName seen a vs).accepted = none := by
    induction vs generalizing seen a with
    | nil => exact h
    | cons v vs ih =>
      rw [addVariants]
      split_ifs
      · exact ih seen (a.accepted_refuse (List.cons_ne_nil _ _))
      · refine ih _ ?_
        rw [Analysis.accepted_attempt (explained_addVariant _ type typeName v), h]
        rfl
  induction added generalizing a with
  | nil => exact h
  | cons p added ih =>
    obtain ⟨id, d⟩ := p
    rw [List.foldl_cons, addBody_eq]
    exact ih (hvariants id d.name.name [] d.variants h)

theorem accepted_addTypes (a : Analysis) (ds : List TypeDef) (s : RuleSet) :
    (addTypes a ds).accepted = some s ↔
      (∀ d ∈ ds, (d.variants.map (·.name.name)).Nodup) ∧
        a.accepted.bind
          (Entry.enterAll (ds.map .type ++ ds.flatMap TypeDef.variantEntries)) = some s := by
  rw [addTypes, ← Analysis.bind_enterAll_append, ← accepted_addTypeNames]
  dsimp only
  -- After an error the list of types may have gaps, but then nothing is accepted anyway.
  by_cases herrors : (addTypeNames a ds).1.errors = []
  · exact accepted_foldl_addBody (addTypeNames_added herrors) s
  · have hnone : (addTypeNames a ds).1.accepted = none := by
      rw [Analysis.accepted, if_neg herrors]
    rw [accepted_foldl_addBody_none hnone, hnone]
    simp

end RuleSet

end TermRules

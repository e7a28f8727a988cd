import TermRules.Proofs.CheckedPlaces
import TermRules.Proofs.Expansions

/-!
# Places of definitions

The places of a definition are those that its parts keep, and each of them is the
place of a token that the definition was read from. Putting arguments into a
template makes no new places. Whatever an analysis refuses is refused at a place
of the definitions, and the rules that it accepts have no other places.
-/

namespace TermRules

namespace RuleSet

open Check (RefusedIn Templated)

section Entries

variable (rs : RuleSet) {L : List Loc}

theorem refusedIn_bothOrErrors {α β : Type} {x : Except (List SemanticError) α}
    {y : Except (List SemanticError) β} (hx : RefusedIn L (fun _ => True) x)
    (hy : RefusedIn L (fun _ => True) y) : RefusedIn L (fun _ => True) (bothOrErrors x y) := by
  cases x with
  | ok a =>
    cases y with
    | ok b => trivial
    | error gs => exact hy
  | error fs =>
    cases y with
    | ok b => exact hx
    | error gs => exact List.forall_mem_append.mpr ⟨hx, hy⟩

theorem refusedIn_resolveType {i : Ident} (h : i.loc ∈ L) :
    RefusedIn L (fun _ => True) (rs.resolveType i) := by
  rw [resolveType]
  cases rs.types.find? i.name with
  | none => exact List.forall_mem_singleton.mpr h
  | some id => trivial

theorem refusedIn_resolveTypes (is : List Ident) (h : is.map Ident.loc ⊆ L) :
    RefusedIn L (fun _ => True) (rs.resolveTypes is) := by
  induction is with
  | nil => trivial
  | cons i is ih =>
    rw [List.map_cons, List.cons_subset] at h
    have hboth := refusedIn_bothOrErrors (rs.refusedIn_resolveType h.1) (ih h.2)
    rw [resolveTypes]
    cases hx : bothOrErrors (rs.resolveType i) (rs.resolveTypes is) with
    | ok p => trivial
    | error es =>
      rw [hx] at hboth
      exact hboth

theorem refusedIn_addVariant (type : TypeId) (typeName : Bytes) {v : Variant} (h : v.places ⊆ L) :
    RefusedIn L (fun _ => True) (addVariant type typeName v rs) := by
  rw [Variant.places, List.cons_subset] at h
  have hfields : (v.fields.map Field.type).map Ident.loc ⊆ L := by
    intro l hl
    obtain ⟨i, hi, rfl⟩ := List.mem_map.mp hl
    obtain ⟨f, hf, rfl⟩ := List.mem_map.mp hi
    exact h.2 (List.mem_flatMap.mpr ⟨f, hf, List.mem_cons_of_mem _ List.mem_cons_self⟩)
  have htypes := rs.refusedIn_resolveTypes _ hfields
  rw [addVariant_eq]
  cases hx : rs.resolveTypes (v.fields.map Field.type) with
  | error es =>
    rw [hx] at htypes
    exact htypes
  | ok ids =>
    dsimp only
    split
    · exact List.forall_mem_singleton.mpr h.1
    · trivial

theorem refusedIn_addDecl {d : TermDecl} (h : d.places ⊆ L) :
    RefusedIn L (fun _ => True) (addDecl d rs) := by
  rw [TermDecl.places, List.cons_subset, List.cons_subset, List.cons_subset] at h
  obtain ⟨-, hterm, hret, hargs⟩ := h
  have htypes := refusedIn_bothOrErrors (rs.refusedIn_resolveTypes d.args hargs)
    (rs.refusedIn_resolveType hret)
  rw [addDecl_eq]
  rcases hx : bothOrErrors (rs.resolveTypes d.args) (rs.resolveType d.ret) with es | ⟨args, ret⟩
  · rw [hx] at htypes
    exact htypes
  · dsimp only
    split
    · trivial
    · exact List.forall_mem_singleton.mpr hterm

theorem refusedIn_addExternal {d : ExternalDef} (h : d.places ⊆ L) :
    RefusedIn L (fun _ => True) (addExternal d rs) := by
  rw [ExternalDef.places, List.cons_subset, List.cons_subset] at h
  rw [addExternal]
  cases rs.terms.find? d.term.name with
  | none => exact List.forall_mem_singleton.mpr h.2.1
  | some id =>
    cases d.kind with
    | constructor =>
      dsimp only
      split_ifs
      · trivial
      · exact List.forall_mem_singleton.mpr h.1
    | extractor infallible =>
      dsimp only
      split_ifs
      · trivial
      · exact List.forall_mem_singleton.mpr h.1

theorem refusedIn_addTemplate {d : Template} (h : d.places ⊆ L) :
    RefusedIn L (fun _ => True) (addTemplate d rs) := by
  rw [Template.places, List.cons_subset, List.cons_subset] at h
  rw [addTemplate]
  cases rs.terms.find? d.term.name with
  | none => exact List.forall_mem_singleton.mpr h.2.1
  | some id =>
    dsimp only
    split_ifs
    · exact List.forall_mem_singleton.mpr h.1
    · exact List.forall_mem_singleton.mpr h.1
    · trivial

end Entries

end RuleSet

def Definition.allPlaces (defs : List Definition) : List Loc := defs.flatMap Definition.places

namespace Job

open Check (RefusedIn Templated)

variable {defs : List Definition}

theorem places_subset_of_mem {α : Type} {part : Definition → Option α} {places : α → List Loc}
    (hpart : ∀ d a, part d = some a → d.places = places a) {a : α}
    (h : a ∈ defs.filterMap part) : places a ⊆ Definition.allPlaces defs := by
  obtain ⟨d, hd, ha⟩ := List.mem_filterMap.mp h
  intro l hl
  exact List.mem_flatMap.mpr ⟨d, hd, by rwa [hpart d a ha]⟩

theorem places_type {d : TypeDef} (h : d ∈ defs.filterMap Definition.type?) :
    d.places ⊆ Definition.allPlaces defs :=
  places_subset_of_mem (fun d a ha => by cases d <;> cases ha; rfl) h

theorem places_decl {d : TermDecl} (h : d ∈ defs.filterMap Definition.decl?) :
    d.places ⊆ Definition.allPlaces defs :=
  places_subset_of_mem (fun d a ha => by cases d <;> cases ha; rfl) h

theorem places_external {d : ExternalDef} (h : d ∈ defs.filterMap Definition.external?) :
    d.places ⊆ Definition.allPlaces defs :=
  places_subset_of_mem (fun d a ha => by cases d <;> cases ha; rfl) h

theorem places_template {t : Template} (h : t ∈ defs.filterMap Definition.template?) :
    t.places ⊆ Definition.allPlaces defs :=
  places_subset_of_mem (fun d a ha => by cases d <;> cases ha; rfl) h

theorem places_rule {r : Rule} (h : r ∈ defs.filterMap Definition.rule?) :
    r.places ⊆ Definition.allPlaces defs :=
  places_subset_of_mem (fun d a ha => by cases d <;> cases ha; rfl) h

theorem places_variant {d : TypeDef} {v : Variant} (h : v ∈ d.variants) : v.places ⊆ d.places := by
  intro l hl
  rw [TypeDef.variants] at h
  rw [TypeDef.places]
  cases hbody : d.body with
  | primitive spelling =>
    rw [hbody] at h
    cases h
  | enum variants =>
    rw [hbody] at h
    refine List.mem_cons_of_mem _ (List.mem_cons_of_mem _ ?_)
    exact List.mem_flatMap.mpr ⟨v, h, hl⟩

theorem refusedIn_attempt {rs : RuleSet} (hrs : Templated rs (defs.filterMap Definition.template?))
    {t : Job} (ht : t.AskedBy defs) :
    RefusedIn (Definition.allPlaces defs) (fun _ => True) (t.attempt rs) := by
  cases ht with
  | @type d mem =>
    change RefusedIn _ _ (RuleSet.addTypeName d rs)
    have hname := places_type mem (List.mem_cons_of_mem d.loc List.mem_cons_self)
    rw [RuleSet.addTypeName]
    split
    · trivial
    · exact List.forall_mem_singleton.mpr hname
  | @variant d v mem hv =>
    have hplaces := List.Subset.trans (places_variant hv) (places_type mem)
    rw [Job.attempt, Entry.enter]
    cases rs.types.find? d.name.name with
    | none => exact List.forall_mem_singleton.mpr (hplaces List.mem_cons_self)
    | some id => exact rs.refusedIn_addVariant id d.name.name hplaces
  | secondVariant mem hv =>
    exact List.forall_mem_singleton.mpr (places_type mem (places_variant hv List.mem_cons_self))
  | decl mem => exact rs.refusedIn_addDecl (places_decl mem)
  | external mem => exact rs.refusedIn_addExternal (places_external mem)
  | template mem => exact rs.refusedIn_addTemplate (places_template mem)
  | mark mem => trivial
  | @rule r mem order =>
    have hrule := Check.refusedIn_rule hrs (fun t => places_template) (places_rule mem) order
    change RefusedIn _ _ (RuleSet.addRule r order rs)
    rw [RuleSet.addRule]
    cases hcheck : Check.rule rs r order with
    | ok c => trivial
    | error es =>
      rw [hcheck] at hrule
      exact hrule
  | secondRule mem name =>
    refine List.forall_mem_singleton.mpr (places_rule mem ?_)
    simp [Rule.places, name]

theorem places_attempt {rs s : RuleSet} (hrs : Templated rs (defs.filterMap Definition.template?))
    (hrules : ∀ r ∈ rs.rules, r.places ⊆ Definition.allPlaces defs) {t : Job}
    (ht : t.AskedBy defs) (hs : t.attempt rs = .ok s) :
    ∀ r ∈ s.rules, r.places ⊆ Definition.allPlaces defs := by
  cases t with
  | enter e => rwa [Entry.enter_rules hs]
  | refuse error => cases hs
  | check r order =>
    cases ht with
    | rule mem =>
      have hrule := Check.refusedIn_rule hrs (fun t => places_template) (places_rule mem) order
      obtain ⟨c, hc, rfl⟩ := RuleSet.addRule_ok.mp hs
      rw [hc] at hrule
      intro r' hr'
      rcases Array.mem_push.mp hr' with hr' | rfl
      · exact hrules r' hr'
      · exact hrule

end Job

theorem RuleSet.analyze_places (defs : List Definition) :
    (∀ e ∈ (empty.analyze defs).2, e.loc ∈ Definition.allPlaces defs) ∧
      ∀ r ∈ (empty.analyze defs).1.rules, r.places ⊆ Definition.allPlaces defs := by
  have hstart : Check.Templated empty (defs.filterMap Definition.template?) := by
    intro id info index place hget
    cases hget
  constructor
  · rw [analyze, Analysis.run_eq_perform]
    refine Analysis.perform_errors_induction
      (P := fun rs => Check.Templated rs (defs.filterMap Definition.template?)) hstart
      (by simp) (fun t ht rs s hrs hs => hrs.attempt (Job.askedBy_of_mem ht) hs) ?_
    intro t ht rs es hrs hes
    have hrefused := Job.refusedIn_attempt hrs (Job.askedBy_of_mem ht)
    rwa [hes] at hrefused
  · refine (analyze_induction (P := fun rs =>
      Check.Templated rs (defs.filterMap Definition.template?) ∧
        ∀ r ∈ rs.rules, r.places ⊆ Definition.allPlaces defs) ⟨hstart, by simp [empty]⟩ defs ?_).2
    rintro t ht rs s ⟨hrs, hrules⟩ hs
    have hasked := Job.askedBy_of_mem ht
    exact ⟨hrs.attempt hasked hs, Job.places_attempt hrs hrules hasked hs⟩

end TermRules

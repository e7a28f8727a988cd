import Mathlib.Data.List.Nodup
import TermRules.Proofs.Acceptance
import TermRules.Proofs.Checking
import TermRules.Proofs.RenumberedCode

/-!
# The order of definitions

Accepted definitions are accepted in every order. The types, terms and checked
rules stay the same up to numbers and places, and the functions stay the same
text as long as rules that compete at one priority keep their order.
-/

namespace TermRules

def Check.unplaced (rs : RuleSet) (r : Rule) : Option CheckedRule := (rule rs r 0).toOption

namespace Check

variable {rs : RuleSet}

theorem rule_placed (rs : RuleSet) (r : Rule) (order : Nat) :
    rule rs r order = (rule rs r 0).map fun c => { c with order } := by
  rw [rule, rule]
  rcases ruleRoot rs r.pattern with e | ⟨root, patterns⟩
  · rfl
  · dsimp only
    rcases rootArgs rs patterns (rs.termInfo root).args .empty with ⟨_ | ⟨e, errors⟩, args, scope⟩
    · dsimp only
      rcases (ruleBody rs r (rs.termInfo root).ret).run scope with ⟨⟨guards, result⟩, t⟩ | ⟨e, t⟩
      · rfl
      · rfl
    · rfl

theorem rule_eq_ok {r : Rule} {order : Nat} {c : CheckedRule} :
    rule rs r order = .ok c ↔ ∃ c₀, unplaced rs r = some c₀ ∧ { c₀ with order } = c := by
  rw [rule_placed, unplaced]
  cases rule rs r 0 <;> simp [Except.map, Except.toOption]

theorem order_of_unplaced {r : Rule} {c : CheckedRule} (h : unplaced rs r = some c) :
    c.unplaced = c := by
  have hrule : rule rs r 0 = .ok c := by
    rw [unplaced] at h
    cases hc : rule rs r 0 with
    | error es => simp [hc, Except.toOption] at h
    | ok c' =>
      rw [hc] at h
      exact congrArg Except.ok (Option.some.inj h)
  have hplaced := rule_placed rs r 0
  rw [hrule] at hplaced
  exact (Except.ok.inj hplaced).symm

theorem Passes.unplaced {rules : List Rule} {order : Nat} {cs : List CheckedRule}
    (h : Passes rs (rules.zipIdx order) cs) :
    (∀ r ∈ rules, (Check.unplaced rs r).isSome) ∧
      cs.map CheckedRule.unplaced = rules.filterMap (Check.unplaced rs) := by
  induction rules generalizing order cs with
  | nil =>
    cases h
    simp
  | cons r rules ih =>
    obtain ⟨c, cs', hc, hcs, rfl⟩ := passes_cons.mp h
    obtain ⟨c₀, hc₀, rfl⟩ := rule_eq_ok.mp hc
    obtain ⟨hall, hmap⟩ := ih hcs
    refine ⟨List.forall_mem_cons.mpr ⟨by simp [hc₀], hall⟩, ?_⟩
    rw [List.map_cons, hmap, List.filterMap_cons, hc₀]
    exact congrArg (· :: _) (order_of_unplaced hc₀)

theorem exists_passes {rules : List Rule} (h : ∀ r ∈ rules, (unplaced rs r).isSome) (order : Nat) :
    ∃ cs, Passes rs (rules.zipIdx order) cs := by
  induction rules generalizing order with
  | nil => exact ⟨[], .nil⟩
  | cons r rules ih =>
    obtain ⟨hr, hrules⟩ := List.forall_mem_cons.mp h
    obtain ⟨c₀, hc₀⟩ := Option.isSome_iff_exists.mp hr
    obtain ⟨cs, hcs⟩ := ih hrules (order + 1)
    exact ⟨{ c₀ with order } :: cs, .cons (rule_eq_ok.mpr ⟨c₀, hc₀, rfl⟩) hcs⟩

theorem Passes.pairwise {rules : List Rule} {order : Nat} {cs : List CheckedRule}
    (h : Passes rs (rules.zipIdx order) cs) :
    (∀ c ∈ cs, order ≤ c.order) ∧ cs.Pairwise fun a b => a.order ≤ b.order := by
  induction rules generalizing order cs with
  | nil =>
    cases h
    simp
  | cons r rules ih =>
    obtain ⟨c, cs', hc, hcs, rfl⟩ := passes_cons.mp h
    obtain ⟨c₀, -, rfl⟩ := rule_eq_ok.mp hc
    obtain ⟨hle, hpairwise⟩ := ih hcs
    have hrest : ∀ c ∈ cs', order ≤ c.order := fun c hc => Nat.le_of_succ_le (hle c hc)
    exact ⟨List.forall_mem_cons.mpr ⟨Nat.le_refl _, hrest⟩,
      List.pairwise_cons.mpr ⟨hrest, hpairwise⟩⟩

theorem unplaced_renumber {ρ : Renumbering} (hρ : ρ.move = id) {rs' : RuleSet}
    (h : rs.Renumbered ρ rs') (r : Rule) :
    unplaced rs' r = (unplaced rs r).map (CheckedRule.renumber ρ) := by
  have hcheck := rule_renumber h r 0
  rw [hρ, r.relocate_id] at hcheck
  rw [unplaced, unplaced, hcheck]
  cases rule rs r 0 <;> rfl

theorem unplaced_root {r : Rule} {c : CheckedRule} (h : unplaced rs r = some c) :
    r.root?.bind rs.terms.find? = some c.root ∧ c.priority = r.priority := by
  have hrule : rule rs r 0 = .ok c := rule_eq_ok.mpr ⟨c, h, order_of_unplaced h⟩
  obtain ⟨root, patterns, args, s, gs, t, result, s', hroot, -, -, -, rfl⟩ := rule_ok.mp hrule
  obtain ⟨loc, name, -, hpattern, hfind, -⟩ := ruleRoot_ok hroot
  rw [Rule.root?, hpattern]
  exact ⟨hfind, rfl⟩

end Check

namespace Entry

theorem typeNames_nodup {ds : List TypeDef} {rs s : RuleSet}
    (h : enterAll (ds.map .type) rs = some s) :
    (ds.map (·.name.name)).Nodup ∧ ∀ d ∈ ds, rs.types.find? d.name.name = none := by
  induction ds generalizing rs with
  | nil => simp
  | cons d ds ih =>
    obtain ⟨u, hu, hs⟩ := enterAll_cons.mp h
    obtain ⟨types, hinsert, rfl⟩ := RuleSet.addTypeName_ok.mp hu
    obtain ⟨hnodup, hfree⟩ := ih hs
    have hother (e : TypeDef) (he : e ∈ ds) :
        d.name.name ≠ e.name.name ∧ rs.types.find? e.name.name = none := by
      have hfind := hfree e he
      dsimp only at hfind
      rw [Table.find?_of_insert? hinsert] at hfind
      split_ifs at hfind with hname
      exact ⟨hname, hfind⟩
    refine ⟨List.nodup_cons.mpr ⟨fun hmem => ?_, hnodup⟩, List.forall_mem_cons.mpr
      ⟨Table.find?_eq_none_of_insert? hinsert, fun e he => (hother e he).2⟩⟩
    obtain ⟨e, he, hname⟩ := List.mem_map.mp hmem
    exact (hother e he).1 hname.symm

theorem reordering_ofDefinitions {defs defs' : List Definition} (hperm : defs.Perm defs')
    {rs s : RuleSet} (h : enterAll (ofDefinitions defs) rs = some s) :
    Reordering (ofDefinitions defs) (ofDefinitions defs') := by
  have htypes := hperm.filterMap Definition.type?
  have hnames : ((defs.filterMap Definition.type?).map (·.name.name)).Nodup := by
    simp only [ofDefinitions, List.append_assoc, enterAll_append] at h
    obtain ⟨u, hu, -⟩ := Option.bind_eq_some_iff.mp h
    exact (typeNames_nodup hu).1
  have hvariants : (defs.filterMap Definition.type?).Pairwise fun d d' =>
      ∀ e ∈ d.variantEntries, ∀ f ∈ d'.variantEntries, e.Independent f := by
    refine (List.pairwise_map.mp hnames).imp fun hne e he f hf => ?_
    obtain ⟨v, -, rfl⟩ := List.mem_map.mp he
    obtain ⟨w, -, rfl⟩ := List.mem_map.mp hf
    exact .variants v w hne
  exact (((((Reordering.map htypes .types).append
    (.flatMap TypeDef.variantEntries htypes hvariants)).append
    (.map (hperm.filterMap Definition.decl?) .decls)).append
    (.map (hperm.filterMap Definition.external?) .externals)).append
    (.map (hperm.filterMap Definition.template?) .templates)).append
    (.map (hperm.filterMap Definition.rule?) .marks)

end Entry

theorem Accepted.perm {defs defs' : List Definition} (hperm : defs.Perm defs') {rs : RuleSet}
    {cs : List CheckedRule} (h : Accepted defs rs cs) :
    ∃ ρ : Renumbering, ρ.move = id ∧ ∃ rs' cs', rs.Renumbered ρ rs' ∧ Accepted defs' rs' cs' ∧
      cs'.map CheckedRule.unplaced =
        ((defs'.filterMap Definition.rule?).filterMap (Check.unplaced rs)).map
          (CheckedRule.renumber ρ) := by
  have hrules := hperm.filterMap Definition.rule?
  obtain ⟨rs', hentered, ρ, hρ, hrenumbered⟩ :=
    (Entry.reordering_ofDefinitions hperm h.entered).enterAll RuleSet.bounded_empty h.entered
  have hunplaced := Check.unplaced_renumber hρ hrenumbered
  obtain ⟨cs', hcs'⟩ : ∃ cs', Check.Passes rs' (defs'.filterMap Definition.rule?).zipIdx cs' := by
    refine Check.exists_passes (fun r hr => ?_) 0
    rw [hunplaced, Option.isSome_map]
    exact h.checked.unplaced.1 r (hrules.mem_iff.mpr hr)
  refine ⟨ρ, hρ, rs', cs', hrenumbered, ⟨fun d hd => ?_, ?_, hentered, hcs'⟩, ?_⟩
  · exact h.variantNames d ((hperm.filterMap Definition.type?).mem_iff.mpr hd)
  · exact (hrules.filterMap _).nodup_iff.mp h.ruleNames
  · rw [hcs'.unplaced.2, List.map_filterMap]
    exact List.filterMap_congr fun r _ => hunplaced r

/-- Rules for one term at one priority follow each other in the same order. -/
def SameTies (rules rules' : List Rule) : Prop :=
  ∀ (root : Bytes) (priority : Int64),
    rules'.filter (fun r => r.root? = some root ∧ r.priority = priority) =
      rules.filter fun r => r.root? = some root ∧ r.priority = priority

theorem SameTies.filter_found {rules rules' : List Rule} (h : SameTies rules rules') (rs : RuleSet)
    (term : TermId) (priority : Int64) :
    rules'.filter (fun r => r.root?.bind rs.terms.find? = some term ∧ r.priority = priority) =
      rules.filter fun r => r.root?.bind rs.terms.find? = some term ∧ r.priority = priority := by
  by_cases hterm : ∃ name, rs.terms.find? name = some term
  · obtain ⟨name, hname⟩ := hterm
    have hroot (r : Rule) : r.root?.bind rs.terms.find? = some term ↔ r.root? = some name := by
      constructor
      · intro hr
        obtain ⟨name', hr, hname'⟩ := Option.bind_eq_some_iff.mp hr
        rw [hr, Table.find?_inj hname hname']
      · intro hr
        rw [hr, Option.bind_some, hname]
    simp only [hroot]
    exact h name priority
  · have hnone (r : Rule) : ¬r.root?.bind rs.terms.find? = some term := by
      intro hr
      obtain ⟨name, -, hname⟩ := Option.bind_eq_some_iff.mp hr
      exact hterm ⟨name, hname⟩
    simp only [hnone, false_and, decide_false, List.filter_false]

theorem Check.filter_unplaced (rs : RuleSet) (rules : List Rule) (term : TermId)
    (priority : Int64) :
    (rules.filterMap (unplaced rs)).filter (fun c => c.root = term ∧ c.priority = priority) =
      (rules.filter fun r => r.root?.bind rs.terms.find? = some term ∧
        r.priority = priority).filterMap (unplaced rs) := by
  rw [List.filter_filterMap, List.filterMap_filter]
  refine List.filterMap_congr fun r _ => ?_
  cases hc : unplaced rs r with
  | none => simp
  | some c =>
    obtain ⟨hroot, hpriority⟩ := unplaced_root hc
    rw [hroot, ← hpriority]
    simp [Option.filter_some]

theorem filter_sorted {rules : List CheckedRule} (h : rules.Pairwise fun a b => a.order ≤ b.order)
    {f : CheckedRule → CheckedRule} (hf : ∀ r, (f r).priority = r.priority) (term : TermId)
    (priority : Int64) :
    ((sortStably CheckedRule.precedes (rules.filter (·.root = term))).map f).filter
        (·.priority = priority) =
      (rules.filter fun r => r.root = term ∧ r.priority = priority).map f := by
  have hpriority : (fun r : CheckedRule => decide (r.priority = priority)) ∘ f =
      fun r => decide (r.priority = priority) :=
    funext fun r => by rw [Function.comp_apply, hf]
  rw [List.filter_map, hpriority, filter_sortStably (h.filter _), List.filter_filter]
  simp only [← Bool.decide_and, and_comm]

theorem Accepted.rulesFor {defs defs' : List Definition} {rs rs' : RuleSet}
    {cs cs' : List CheckedRule} {ρ : Renumbering} (h : Accepted defs rs cs)
    (h' : Accepted defs' rs' cs')
    (hcs' : cs'.map CheckedRule.unplaced =
      ((defs'.filterMap Definition.rule?).filterMap (Check.unplaced rs)).map
        (CheckedRule.renumber ρ))
    (hties : SameTies (defs.filterMap Definition.rule?) (defs'.filterMap Definition.rule?))
    (term : TermId) :
    (RuleSet.rulesFor { rs' with rules := cs'.toArray } (ρ.term term)).map CheckedRule.unplaced =
      (RuleSet.rulesFor { rs with rules := cs.toArray } term).map
        fun r => (r.renumber ρ).unplaced := by
  let renumbered (r : CheckedRule) := (r.renumber ρ).unplaced
  have hsorted (f : CheckedRule → CheckedRule) (hf : ∀ r, (f r).priority = r.priority)
      (rules : List CheckedRule) :
      ((sortStably CheckedRule.precedes rules).map f).Pairwise
        fun a b => b.priority ≤ a.priority := by
    simpa only [List.pairwise_map, hf] using pairwise_sortStably rules
  rw [RuleSet.rulesFor_eq, RuleSet.rulesFor_eq]
  -- Both lists are sorted by priority, so it is enough to compare them at each priority.
  refine eq_of_sorted_of_filter CheckedRule.priority
    (hsorted CheckedRule.unplaced (fun _ => rfl) _) (hsorted renumbered (fun _ => rfl) _)
    fun priority => ?_
  refine (filter_sorted h'.checked.pairwise.2 (f := CheckedRule.unplaced) (fun _ => rfl) _ _).trans
    (.trans ?_ (filter_sorted h.checked.pairwise.2 (f := renumbered) (fun _ => rfl) _ _).symm)
  have hroot (r : CheckedRule) : (r.renumber ρ).root = ρ.term term ↔ r.root = term :=
    ρ.term.apply_eq_iff_eq
  calc (cs'.filter fun r => r.root = ρ.term term ∧ r.priority = priority).map CheckedRule.unplaced
      = (cs'.map CheckedRule.unplaced).filter
          fun r => r.root = ρ.term term ∧ r.priority = priority := by
        rw [List.filter_map]
        rfl
    _ = (((defs'.filterMap Definition.rule?).filterMap (Check.unplaced rs)).filter
          fun r => r.root = term ∧ r.priority = priority).map (CheckedRule.renumber ρ) := by
        rw [hcs', List.filter_map]
        congr 1
        exact List.filter_congr fun r _ => decide_eq_decide.mpr (and_congr_left fun _ => hroot r)
    _ = (((defs.filterMap Definition.rule?).filterMap (Check.unplaced rs)).filter
          fun r => r.root = term ∧ r.priority = priority).map (CheckedRule.renumber ρ) := by
        rw [Check.filter_unplaced, Check.filter_unplaced, hties.filter_found]
    _ = ((cs.map CheckedRule.unplaced).filter
          fun r => r.root = term ∧ r.priority = priority).map (CheckedRule.renumber ρ) := by
        rw [h.checked.unplaced.2]
    _ = (cs.filter fun r => r.root = term ∧ r.priority = priority).map renumbered := by
        rw [List.filter_map, List.map_map]
        rfl

theorem filterMap_getElem?_range {α : Type} (as : List α) :
    (List.range as.length).filterMap (fun i => as[i]?) = as := by
  induction as with
  | nil => rfl
  | cons a as ih =>
    rw [List.length_cons, List.range_succ_eq_map, List.filterMap_cons, List.filterMap_map]
    exact congrArg (a :: ·) ih

section Tables

variable {α : Type} [Named α] {π : Equiv.Perm Nat} {R : α → α → Prop} {t t' : Table α}

omit [Named α] in
theorem Table.entries_eq_filterMap (t : Table α) :
    t.entries.toList = (List.range t.size).filterMap t.get? := by
  rw [Table.size, ← Array.length_toList]
  exact (filterMap_getElem?_range t.entries.toList).symm.trans
    (List.filterMap_congr fun i _ => Array.getElem?_toList)

theorem Table.Renumbered.range_perm (h : t.Renumbered π R t') :
    ((List.range t.size).map π).Perm (List.range t'.size) := by
  refine (List.perm_ext_iff_of_nodup (.map π.injective List.nodup_range) List.nodup_range).mpr
    fun i => ?_
  rw [List.mem_map, List.mem_range, h.size]
  constructor
  · rintro ⟨j, hj, rfl⟩
    rw [List.mem_range] at hj
    by_contra hi
    have hfixed := π.injective (h.fresh (π j) (by omega))
    omega
  · intro hi
    refine ⟨π.symm i, List.mem_range.mpr ?_, π.apply_symm_apply i⟩
    by_contra hj
    have hfixed := h.fresh (π.symm i) (by omega)
    rw [π.apply_symm_apply] at hfixed
    omega

theorem Table.Renumbered.map_perm (h : t.Renumbered π R t') {β : Type} {f f' : α → β}
    (hf : ∀ a a', R a a' → f' a' = f a) :
    (t'.entries.toList.map f').Perm (t.entries.toList.map f) := by
  rw [Table.entries_eq_filterMap, Table.entries_eq_filterMap, List.map_filterMap,
    List.map_filterMap]
  refine (h.range_perm.symm.filterMap _).trans ?_
  rw [List.filterMap_map]
  refine .of_eq (List.filterMap_congr fun i _ => ?_)
  have hi := h.get i
  rw [Function.comp_apply]
  generalize t.get? i = x, t'.get? (π i) = x' at hi
  cases hi with
  | none => rfl
  | some hi => exact congrArg some (hf _ _ hi)

end Tables

namespace Zig.Setting

variable {ρ : Renumbering} {rs rs' : RuleSet} (h : rs.Renumbered ρ rs') (options : Options)
include h

theorem typeDeclTexts_perm :
    (rs'.types.entries.toList.map (Setting.mk rs' options).typeDeclText).Perm
      (rs.types.entries.toList.map (Setting.mk rs options).typeDeclText) :=
  h.types.map_perm fun info info' hinfo => by rw [hinfo, typeDeclText_renumber h]

theorem contextEntries_perm :
    (Setting.mk rs' options).contextEntries.Perm (Setting.mk rs options).contextEntries := by
  rw [contextEntries, contextEntries, List.flatMap_def, List.flatMap_def]
  exact (h.terms.map_perm fun term term' hterm => by
    rw [buildEntry?_renumber h options hterm, matchEntry?_renumber h options hterm]).flatten

theorem internalTerms_perm :
    (Setting.mk rs' options).internalTerms.Perm
      ((Setting.mk rs options).internalTerms.map ρ.term) := by
  rw [internalTerms, internalTerms]
  refine (h.terms.range_perm.symm.filter _).trans ?_
  rw [List.filter_map]
  refine .of_eq (congrArg (List.map ρ.term) (List.filter_congr fun id _ => ?_))
  have hconstructor := (h.termInfo id).constructor
  rw [Function.comp_apply]
  dsimp only
  generalize (rs.termInfo id).constructor = c, (rs'.termInfo (ρ.term id)).constructor = c'
    at hconstructor
  cases hconstructor <;> rfl

end Zig.Setting

theorem RuleSet.Renumbered.withRules {ρ : Renumbering} {rs rs' : RuleSet}
    (h : rs.Renumbered ρ rs') (rules rules' : Array CheckedRule) :
    RuleSet.Renumbered ρ { rs with rules } { rs' with rules := rules' } :=
  ⟨h.types, h.terms, h.templateCount, h.freshTemplate, h.templates⟩

open Zig in
/-- The order of definitions does not matter: accepted definitions are accepted in every order,
and the types, terms and checked rules are the same up to numbers and places. The generated types
and the context are the same up to their order, and so is each function if rules for one term at
one priority keep theirs. -/
theorem RuleSet.analyze_perm {defs defs' : List Definition} (hperm : defs.Perm defs')
    (haccepted : (empty.analyze defs).2 = []) :
    let rs := (empty.analyze defs).1
    let rs' := (empty.analyze defs').1
    (empty.analyze defs').2 = [] ∧
    ∃ ρ : Renumbering, ρ.move = id ∧ rs.Renumbered ρ rs' ∧
      (rs'.rules.toList.map CheckedRule.unplaced).Perm
        (rs.rules.toList.map fun r => (r.renumber ρ).unplaced) ∧
      ∀ options,
        let s : Setting := ⟨rs, options⟩
        let s' : Setting := ⟨rs', options⟩
        (rs'.types.entries.toList.map s'.typeDeclText).Perm
          (rs.types.entries.toList.map s.typeDeclText) ∧
        s'.contextEntries.Perm s.contextEntries ∧
        s'.internalTerms.Perm (s.internalTerms.map ρ.term) ∧
        (SameTies (defs.filterMap Definition.rule?) (defs'.filterMap Definition.rule?) →
          ∀ term, s'.functionText (.ofTerm rs' (ρ.term term)) =
            s.functionText (.ofTerm rs term)) := by
  obtain ⟨rs, cs, h, hrs⟩ := (analyze_accepted defs (empty.analyze defs).1).mp
    (Prod.ext rfl haccepted)
  obtain ⟨ρ, hρ, rs', cs', hrenumbered, h', hcs'⟩ := h.perm hperm
  have hanalyze' := (analyze_accepted defs' _).mpr ⟨rs', cs', h', rfl⟩
  rw [← hrs, congrArg Prod.fst hanalyze', congrArg Prod.snd hanalyze']
  have hall := hrenumbered.withRules cs.toArray cs'.toArray
  refine ⟨rfl, ρ, hρ, hall, ?_, fun options => ⟨Setting.typeDeclTexts_perm hall options,
    Setting.contextEntries_perm hall options, Setting.internalTerms_perm hall options,
    fun hties term => ?_⟩⟩
  · have hrules := hperm.filterMap Definition.rule?
    refine (List.Perm.of_eq hcs').trans (((hrules.symm.filterMap _).map _).trans (.of_eq ?_))
    rw [← h.checked.unplaced.2, List.map_map]
    rfl
  · rw [ofTerm_renumber ρ hall term (h.rulesFor h' hcs' hties term),
      Setting.functionText_renumber hall]

def Definition.twoTerms : List Definition :=
  letSample ++ [.decl ⟨⟨[103], .unknown⟩, [⟨[117], .unknown⟩], ⟨[117], .unknown⟩, true, false,
    .unknown⟩]

open Zig in
/-- In the reverse order the two terms exchange their numbers, and `f` keeps its text. -/
theorem RuleSet.analyze_perm_twoTerms :
    let defs := Definition.twoTerms
    let rs := (empty.analyze defs).1
    let rs' := (empty.analyze defs.reverse).1
    defs.Perm defs.reverse ∧ (empty.analyze defs).2 = [] ∧
      SameTies (defs.filterMap Definition.rule?) (defs.reverse.filterMap Definition.rule?) ∧
      (empty.analyze defs.reverse).2 = [] ∧
      rs.terms.find? [102] = some 0 ∧ rs'.terms.find? [102] = some 1 ∧
      (Setting.mk rs' .standard).functionText (.ofTerm rs' 1) =
        (Setting.mk rs .standard).functionText (.ofTerm rs 0) := by
  intro defs rs rs'
  have hperm : defs.Perm defs.reverse := (List.reverse_perm defs).symm
  have haccepted : (empty.analyze defs).2 = [] := by decide +kernel
  have hties : SameTies (defs.filterMap Definition.rule?)
      (defs.reverse.filterMap Definition.rule?) := fun _ _ => rfl
  obtain ⟨haccepted', ρ, -, hrenumbered, -, htexts⟩ := analyze_perm hperm haccepted
  have hbefore : rs.terms.find? [102] = some 0 := by decide +kernel
  have hafter : rs'.terms.find? [102] = some 1 := by decide +kernel
  have hnumber : ρ.term 0 = 1 := by
    have hfind := hrenumbered.terms.find [102]
    rw [hbefore, hafter, Option.map_some] at hfind
    exact (Option.some.inj hfind).symm
  have htext := (htexts .standard).2.2.2 hties 0
  rw [hnumber] at htext
  exact ⟨hperm, haccepted, hties, haccepted', hbefore, hafter, htext⟩

end TermRules

import Mathlib.Data.List.Sort
import TermRules.Proofs.Environments
import TermRules.Proofs.RuleOrder

/-!
# Rules in the order of their priorities

Whether a rule is accepted can be told from the definitions before it: its name
must be new, and its check must succeed. Places are counted off for all rules
with new names, right or wrong, hence they grow with the positions of the
definitions. A term has its accepted rules by falling priority, and rules of one
priority in the order in which they are written.
-/

namespace TermRules

section Sorting

variable {α : Type} (le : α → α → Bool)

theorem insertBefore_eq_orderedInsert (a : α) (as : List α) :
    insertBefore le a as = as.orderedInsert (le · ·) a := by
  induction as with
  | nil => rfl
  | cons b bs ih => rw [insertBefore, List.orderedInsert, ih]

theorem sortStably_eq_insertionSort (as : List α) :
    sortStably le as = as.insertionSort (le · ·) := by
  induction as with
  | nil => rfl
  | cons a as ih =>
    rw [List.insertionSort_cons, ← ih, ← insertBefore_eq_orderedInsert]
    rfl

theorem perm_sortStably (as : List α) : (sortStably le as).Perm as := by
  rw [sortStably_eq_insertionSort]
  exact List.perm_insertionSort _ as

end Sorting

namespace CheckedRule

theorem precedes_iff {r s : CheckedRule} :
    r.precedes s = true ↔
      s.priority < r.priority ∨ r.priority = s.priority ∧ r.order ≤ s.order := by
  simp [precedes]

theorem precedes_total (r s : CheckedRule) : r.precedes s = true ∨ s.precedes r = true := by
  rw [precedes_iff, precedes_iff]
  rcases Int64.lt_or_le s.priority r.priority with h | h
  · exact .inl (.inl h)
  · rcases Int64.lt_or_eq_of_le h with h | h
    · exact .inr (.inl h)
    · rcases Nat.le_total r.order s.order with ho | ho
      · exact .inl (.inr ⟨h, ho⟩)
      · exact .inr (.inr ⟨h.symm, ho⟩)

theorem precedes_trans {r s t : CheckedRule} (hrs : r.precedes s = true)
    (hst : s.precedes t = true) : r.precedes t = true := by
  rw [precedes_iff] at hrs hst ⊢
  rcases hrs with hrs | ⟨hrs, hrs'⟩ <;> rcases hst with hst | ⟨hst, hst'⟩
  · exact .inl (Int64.lt_trans hst hrs)
  · exact .inl (hst ▸ hrs)
  · exact .inl (hrs ▸ hst)
  · exact .inr ⟨hrs.trans hst, Nat.le_trans hrs' hst'⟩

theorem pairwise_precedes {α : Type} (rule : α → CheckedRule) (as : List α) :
    (sortStably (fun a b => (rule a).precedes (rule b)) as).Pairwise
      fun a b => (rule a).precedes (rule b) = true := by
  let le (a b : α) : Prop := (rule a).precedes (rule b) = true
  have total : Std.Total le := ⟨fun a b => precedes_total (rule a) (rule b)⟩
  have trans : IsTrans α le := ⟨fun _ _ _ => precedes_trans⟩
  rw [sortStably_eq_insertionSort]
  exact List.pairwise_insertionSort le as

end CheckedRule

namespace Definition

def ruleName? (d : Definition) : Option Bytes := d.rule?.bind fun r => r.name.map Ident.name

def ruleNames (defs : List Definition) : List Bytes := defs.filterMap ruleName?

/-- The rule at a position, unless an earlier rule has its name. -/
def ruleToCheck? (defs : List Definition) (i : Nat) : Option Rule :=
  (defs[i]?.bind rule?).filter fun r => r.name.all fun n => !(ruleNames (defs.take i)).contains n.name

/-- How many rules before the position take a place in the order. -/
def placesBefore (defs : List Definition) (i : Nat) : Nat :=
  (List.range i).countP fun j => (ruleToCheck? defs j).isSome

theorem placesBefore_succ (defs : List Definition) (i : Nat) :
    placesBefore defs (i + 1) =
      placesBefore defs i + if (ruleToCheck? defs i).isSome then 1 else 0 := by
  rw [placesBefore, List.range_succ, List.countP_append, List.countP_singleton]
  rfl

theorem placesBefore_mono (defs : List Definition) {i j : Nat} (h : i ≤ j) :
    placesBefore defs i ≤ placesBefore defs j :=
  monotone_nat_of_le_succ (fun k => by rw [placesBefore_succ]; exact Nat.le_add_right _ _) h

theorem placesBefore_lt {defs : List Definition} {i j : Nat} (hij : i < j)
    (hi : (ruleToCheck? defs i).isSome) : placesBefore defs i < placesBefore defs j := by
  have hsucc := placesBefore_succ defs i
  rw [if_pos hi] at hsucc
  calc placesBefore defs i < placesBefore defs (i + 1) := by omega
    _ ≤ placesBefore defs j := placesBefore_mono defs hij

theorem ruleNames_concat (pre : List Definition) (d : Definition) :
    ruleNames (pre ++ [d]) = ruleNames pre ++ d.ruleName?.toList := by
  rw [ruleNames, List.filterMap_append]
  cases h : d.ruleName? <;> simp [ruleNames, h]

section Split

variable {pre : List Definition} {d : Definition} {r : Rule} (post : List Definition)

theorem ruleToCheck?_append (pre : List Definition) (d : Definition) :
    ruleToCheck? (pre ++ d :: post) pre.length =
      d.rule?.filter fun r => r.name.all fun n => !(ruleNames pre).contains n.name := by
  rw [ruleToCheck?, List.take_left]
  simp

theorem ruleToCheck?_of_other (hd : d.rule? = none) :
    ruleToCheck? (pre ++ d :: post) pre.length = none := by
  rw [ruleToCheck?_append, hd]
  rfl

theorem ruleToCheck?_of_taken (hd : d.rule? = some r) {n : Ident} (hn : r.name = some n)
    (htaken : n.name ∈ ruleNames pre) : ruleToCheck? (pre ++ d :: post) pre.length = none := by
  rw [ruleToCheck?_append, hd, Option.filter_some_eq_none, hn]
  simpa using htaken

theorem ruleToCheck?_of_free (hd : d.rule? = some r)
    (hfree : ∀ n, r.name = some n → n.name ∉ ruleNames pre) :
    ruleToCheck? (pre ++ d :: post) pre.length = some r := by
  rw [ruleToCheck?_append, hd, Option.filter_eq_some_iff, Option.all_eq_true]
  exact ⟨rfl, fun n hn => by simpa using hfree n hn⟩

end Split

end Definition

namespace RuleSet

open Definition

/-- What the rule at the position is checked to, if it is checked and passes. -/
def acceptedAt? (rs : RuleSet) (defs : List Definition) (i : Nat) : Option CheckedRule :=
  (ruleToCheck? defs i).bind fun r => (Check.rule rs r (placesBefore defs i)).toOption

theorem acceptedAt?_withRules (rs : RuleSet) (rules : Array CheckedRule)
    (defs : List Definition) (i : Nat) :
    acceptedAt? { rs with rules } defs i = acceptedAt? rs defs i := by
  simp only [acceptedAt?, checkRule_withRules]

theorem acceptedAt?_eq_some {rs : RuleSet} {defs : List Definition} {i : Nat} {c : CheckedRule} :
    rs.acceptedAt? defs i = some c ↔
      ∃ r, ruleToCheck? defs i = some r ∧ Check.rule rs r (placesBefore defs i) = .ok c := by
  simp only [acceptedAt?, Option.bind_eq_some_iff, Except.toOption]
  constructor
  · rintro ⟨r, hr, hc⟩
    refine ⟨r, hr, ?_⟩
    split at hc <;> simp_all
  · rintro ⟨r, hr, hc⟩
    exact ⟨r, hr, by rw [hc]⟩

theorem acceptedAt?_eq_none {rs : RuleSet} {defs : List Definition} {i : Nat}
    (h : ruleToCheck? defs i = none) : rs.acceptedAt? defs i = none := by
  rw [acceptedAt?, h]
  rfl

theorem lt_length_of_acceptedAt? {rs : RuleSet} {defs : List Definition} {i : Nat}
    {c : CheckedRule} (h : rs.acceptedAt? defs i = some c) : i < defs.length := by
  obtain ⟨r, hr, -⟩ := acceptedAt?_eq_some.mp h
  rw [ruleToCheck?, Option.filter_eq_some_iff] at hr
  obtain ⟨d, hd, -⟩ := Option.bind_eq_some_iff.mp hr.1
  exact (List.getElem?_eq_some_iff.mp hd).1

theorem order_of_acceptedAt? {rs : RuleSet} {defs : List Definition} {i : Nat} {c : CheckedRule}
    (h : rs.acceptedAt? defs i = some c) : c.order = placesBefore defs i := by
  obtain ⟨r, -, hc⟩ := acceptedAt?_eq_some.mp h
  obtain ⟨c₀, -, rfl⟩ := Check.rule_eq_ok.mp hc
  rfl

theorem order_lt_of_acceptedAt? {rs : RuleSet} {defs : List Definition} {i j : Nat}
    {c d : CheckedRule} (hc : rs.acceptedAt? defs i = some c)
    (hd : rs.acceptedAt? defs j = some d) (hij : i < j) : c.order < d.order := by
  obtain ⟨r, hr, -⟩ := acceptedAt?_eq_some.mp hc
  rw [order_of_acceptedAt? hc, order_of_acceptedAt? hd]
  exact placesBefore_lt hij (by rw [hr]; rfl)

theorem attempt_addRule (a : Analysis) (r : Rule) (order : Nat) :
    ∃ rules, (a.attempt (addRule r order)).ruleSet = { a.ruleSet with rules } ∧
      rules.toList = a.ruleSet.rules.toList ++ (Check.rule a.ruleSet r order).toOption.toList := by
  rw [Analysis.attempt, addRule]
  cases Check.rule a.ruleSet r order with
  | error es => exact ⟨a.ruleSet.rules, rfl, (List.append_nil _).symm⟩
  | ok c => exact ⟨a.ruleSet.rules.push c, rfl, Array.toList_push⟩

theorem rules_addRules {pre post : List Definition} {names : List Bytes} {order : Nat}
    {a : Analysis} (hnames : ∀ n, n ∈ names ↔ n ∈ ruleNames pre)
    (horder : order = placesBefore (pre ++ post) pre.length) :
    (addRules names order a (post.filterMap rule?)).ruleSet.rules.toList =
      a.ruleSet.rules.toList ++
        (List.range' pre.length post.length).filterMap (a.ruleSet.acceptedAt? (pre ++ post)) := by
  induction post generalizing pre names order a with
  | nil => exact (List.append_nil _).symm
  | cons d post ih =>
    have hsplit : pre ++ d :: post = (pre ++ [d]) ++ post := List.append_cons pre d post
    have hlength : (pre ++ [d]).length = pre.length + 1 := List.length_append
    have hplaces := placesBefore_succ (pre ++ d :: post) pre.length
    rw [← horder] at hplaces
    rw [List.length_cons, List.range'_succ, ← hlength]
    cases hd : d.rule? with
    | none =>
      have hnot : ruleToCheck? (pre ++ d :: post) pre.length = none :=
        ruleToCheck?_of_other post hd
      rw [List.filterMap_cons_none hd, List.filterMap_cons_none (acceptedAt?_eq_none hnot), hsplit]
      apply ih
      · intro n
        rw [hnames, ruleNames_concat, ruleName?, hd]
        exact iff_of_eq (congrArg (n ∈ ·) (List.append_nil _).symm)
      · rw [hlength, ← hsplit, hplaces, hnot]
        rfl
    | some r =>
      rw [List.filterMap_cons_some hd]
      rcases addRules_cons names order a r (post.filterMap rule?) with
        ⟨n, hn, htaken, hrefused⟩ | ⟨hfree, hattempted⟩
      · -- A name that is taken is the name of an earlier rule, hence no new name.
        rw [hnames] at htaken
        have hnot := ruleToCheck?_of_taken post hd hn htaken
        rw [hrefused, List.filterMap_cons_none (acceptedAt?_eq_none hnot), hsplit]
        apply ih (a := a.refuse _)
        · intro n'
          rw [hnames, ruleNames_concat, ruleName?, hd, Option.bind_some, hn]
          simp only [Option.map_some, Option.toList_some, List.mem_append, List.mem_singleton]
          exact ⟨.inl, fun h => h.elim id fun h => h ▸ htaken⟩
        · rw [hlength, ← hsplit, hplaces, hnot]
          rfl
      · simp only [hnames] at hfree
        have hnew := ruleToCheck?_of_free post hd hfree
        have haccepted : a.ruleSet.acceptedAt? (pre ++ d :: post) pre.length =
            (Check.rule a.ruleSet r order).toOption := by
          rw [acceptedAt?, hnew, horder]
          rfl
        obtain ⟨rules, hrules, hlist⟩ := attempt_addRule a r order
        rw [hattempted, hsplit, ih]
        · rw [hrules, funext (acceptedAt?_withRules a.ruleSet rules _), hlist, List.append_assoc,
            ← hsplit, List.filterMap_cons, haccepted]
          cases (Check.rule a.ruleSet r order).toOption <;> rfl
        · intro n
          rw [List.mem_append, hnames, ruleNames_concat, ruleName?, hd, List.mem_append]
          exact or_comm
        · rw [hlength, ← hsplit, hplaces, hnew]
          rfl

theorem rules_perform_ofDefinitions (taken : List Bytes) (a : Analysis) (defs : List Definition) :
    (a.perform (Job.types defs ++ Job.variants taken defs ++ Job.decls defs ++
      Job.externals defs ++ Job.templates defs ++ Job.marks defs)).ruleSet.rules =
      a.ruleSet.rules := by
  refine Analysis.perform_induction (P := fun rs => rs.rules = a.ruleSet.rules) rfl ?_
  intro t ht rs rs' hrs hattempt
  cases t with
  | enter e => exact (Entry.enter_rules hattempt).trans hrs
  | refuse error => cases hattempt
  | check r order =>
    have hvariants : Job.check r order ∉ Job.variants taken defs := by
      intro hmem
      obtain ⟨d, -, -, hmem⟩ := Job.mem_ofBodies hmem
      obtain ⟨v, -, h | h⟩ := Job.mem_ofVariants hmem <;> cases h
    simp [hvariants, Job.types, Job.decls, Job.externals, Job.templates, Job.marks] at ht

def accepted (rs : RuleSet) (defs : List Definition) : List (Nat × CheckedRule) :=
  (List.range defs.length).filterMap fun i => (rs.acceptedAt? defs i).map (i, ·)

theorem mem_accepted {rs : RuleSet} {defs : List Definition} {i : Nat} {c : CheckedRule} :
    (i, c) ∈ rs.accepted defs ↔ rs.acceptedAt? defs i = some c := by
  simp only [accepted, List.mem_filterMap, List.mem_range, Option.map_eq_some_iff,
    Prod.mk.injEq]
  constructor
  · rintro ⟨j, -, c', hc', rfl, rfl⟩
    exact hc'
  · exact fun h => ⟨i, lt_length_of_acceptedAt? h, c, h, rfl, rfl⟩

theorem pairwise_accepted (rs : RuleSet) (defs : List Definition) :
    (rs.accepted defs).Pairwise fun a b => a.1 < b.1 ∧ a.2.order < b.2.order := by
  refine List.Pairwise.filterMap _ ?_ List.pairwise_lt_range
  intro i j hij a ha b hb
  obtain ⟨c, hc, rfl⟩ := Option.map_eq_some_iff.mp ha
  obtain ⟨d, hd, rfl⟩ := Option.map_eq_some_iff.mp hb
  exact ⟨hij, order_lt_of_acceptedAt? hc hd hij⟩

theorem map_snd_accepted (rs : RuleSet) (defs : List Definition) :
    (rs.accepted defs).map Prod.snd =
      (List.range defs.length).filterMap (rs.acceptedAt? defs) := by
  simp [accepted, List.map_filterMap]

theorem rules_analyze (defs : List Definition) :
    let rs := (empty.analyze defs).1
    rs.rules.toList = (List.range defs.length).filterMap (rs.acceptedAt? defs) := by
  let entries := Job.types defs ++ Job.variants empty.typeNames defs ++ Job.decls defs ++
    Job.externals defs ++ Job.templates defs ++ Job.marks defs
  let a : Analysis := Analysis.perform ⟨empty, []⟩ entries
  have hrun : (empty.analyze defs).1 = (a.perform (Job.rules defs)).ruleSet := by
    rw [analyze, Analysis.run_eq_perform, Job.ofDefinitions, Analysis.perform_append]
  have hstart : a.ruleSet.rules = #[] := rules_perform_ofDefinitions _ _ defs
  have hrules : (a.perform (Job.rules defs)).ruleSet.rules.toList =
      (List.range defs.length).filterMap (a.ruleSet.acceptedAt? defs) := by
    have hround : (addRules [] 0 a (defs.filterMap rule?)).ruleSet.rules.toList =
        a.ruleSet.rules.toList ++
          (List.range' 0 defs.length).filterMap (a.ruleSet.acceptedAt? ([] ++ defs)) :=
      rules_addRules (fun _ => Iff.rfl) rfl
    rw [hstart] at hround
    rw [Job.rules, ← addRules_eq_perform, List.range_eq_range']
    exact hround
  obtain ⟨rules, hsame⟩ := perform_ofRules [] 0 a (defs.filterMap rule?)
  change (a.perform (Job.rules defs)).ruleSet = _ at hsame
  dsimp only
  rw [hrun, hrules, hsame, funext (acceptedAt?_withRules a.ruleSet rules defs)]

def acceptedFor (rs : RuleSet) (defs : List Definition) (t : TermId) : List (Nat × CheckedRule) :=
  sortStably (fun a b => a.2.precedes b.2) ((rs.accepted defs).filter (·.2.root = t))

theorem mem_acceptedFor {rs : RuleSet} {defs : List Definition} {t : TermId} {i : Nat}
    {c : CheckedRule} :
    (i, c) ∈ rs.acceptedFor defs t ↔ rs.acceptedAt? defs i = some c ∧ c.root = t := by
  rw [acceptedFor, mem_sortStably, List.mem_filter, mem_accepted, decide_eq_true_eq]

theorem pairwise_order_acceptedFor (rs : RuleSet) (defs : List Definition) (t : TermId) :
    (rs.acceptedFor defs t).Pairwise fun a b => a.2.order ≠ b.2.order := by
  have hne : ((rs.accepted defs).filter (·.2.root = t)).Pairwise
      fun a b => a.2.order ≠ b.2.order :=
    ((rs.pairwise_accepted defs).filter _).imp fun h => Nat.ne_of_lt h.2
  exact hne.perm (perm_sortStably _ _).symm fun h => Ne.symm h

theorem pairwise_acceptedFor (rs : RuleSet) (defs : List Definition) (t : TermId) :
    (rs.acceptedFor defs t).Pairwise fun a b =>
      b.2.priority < a.2.priority ∨ a.2.priority = b.2.priority ∧ a.1 < b.1 := by
  have hsorted : (rs.acceptedFor defs t).Pairwise fun a b => a.2.precedes b.2 = true :=
    CheckedRule.pairwise_precedes Prod.snd _
  refine (hsorted.and (rs.pairwise_order_acceptedFor defs t)).imp_of_mem ?_
  rintro ⟨i, c⟩ ⟨j, d⟩ hc hd ⟨hprecedes, hne⟩
  replace hc := (mem_acceptedFor.mp hc).1
  replace hd := (mem_acceptedFor.mp hd).1
  refine (CheckedRule.precedes_iff.mp hprecedes).imp_right ?_
  rintro ⟨hpriority, horder⟩
  refine ⟨hpriority, ?_⟩
  -- Were the second one written first, it would also have the smaller place.
  rcases Nat.lt_trichotomy i j with hij | rfl | hij
  · exact hij
  · cases hc.symm.trans hd
    exact absurd rfl hne
  · exact absurd (order_lt_of_acceptedAt? hd hc hij) (Nat.not_lt.mpr horder)

theorem rulesFor_analyze_eq (defs : List Definition) (t : TermId) :
    let rs := (empty.analyze defs).1
    rs.rulesFor t = (rs.acceptedFor defs t).map Prod.snd := by
  intro rs
  rw [rulesFor_eq, rules_analyze, ← map_snd_accepted, List.filter_map, acceptedFor,
    ← sortStably_map fun _ _ => rfl]
  rfl

/-- The rules are those accepted. Each term has the accepted rules written for it, each of them
once, by falling priority and, at one priority, in the order in which they are written. Each
accepted rule belongs to one term, which rules build. -/
theorem rulesFor_analyze (defs : List Definition) :
    let rs := (empty.analyze defs).1
    rs.rules.toList = (List.range defs.length).filterMap (rs.acceptedAt? defs) ∧
      (∀ t, ∃ listed : List (Nat × CheckedRule),
        rs.rulesFor t = listed.map Prod.snd ∧
          (∀ i c, (i, c) ∈ listed ↔ rs.acceptedAt? defs i = some c ∧ c.root = t) ∧
          listed.Pairwise (fun a b => b.2.priority < a.2.priority ∨
            a.2.priority = b.2.priority ∧ a.1 < b.1) ∧
          (rs.rulesFor t).Nodup) ∧
      ∀ i c, rs.acceptedAt? defs i = some c →
        (∃ info loc, rs.terms.get? c.root = some info ∧ info.constructor = .internal loc) ∧
          ∀ t, c ∈ rs.rulesFor t ↔ t = c.root := by
  intro rs
  have hlisted (t : TermId) : rs.rulesFor t = (rs.acceptedFor defs t).map Prod.snd :=
    rulesFor_analyze_eq defs t
  refine ⟨rules_analyze defs, ?_, ?_⟩
  · intro t
    refine ⟨rs.acceptedFor defs t, hlisted t, fun i c => mem_acceptedFor,
      rs.pairwise_acceptedFor defs t, ?_⟩
    rw [hlisted, List.nodup_iff_pairwise_ne, List.pairwise_map]
    exact (rs.pairwise_order_acceptedFor defs t).imp fun h he => h (congrArg _ he)
  · intro i c hc
    have hmem (t : TermId) (ht : t = c.root) : c ∈ rs.rulesFor t := by
      rw [hlisted]
      exact List.mem_map_of_mem (f := Prod.snd) (mem_acceptedFor.mpr ⟨hc, ht.symm⟩)
    have hroot (t : TermId) (h : c ∈ rs.rulesFor t) : c ∈ rs.rules ∧ c.root = t :=
      mem_of_mem_rulesFor h
    have hrule := (hroot c.root (hmem c.root rfl)).1
    obtain ⟨-, -, ⟨info, hinfo, -, -, loc, hinternal⟩, -⟩ := rules_wellFormed [defs] c hrule
    exact ⟨⟨info, loc, hinfo, hinternal⟩, fun t => ⟨fun h => (hroot t h).2.symm, hmem t⟩⟩

end RuleSet

end TermRules

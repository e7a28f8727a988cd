import Mathlib.Tactic.Common
import TermRules.RuleSet

/-!
# The order of rules

The rules of a term are tried in the order of their priorities, and rules of one
priority in the order of their places. Lists sorted by priority are equal when
they agree on each priority.
-/

namespace TermRules

theorem mem_insertBefore {α : Type} {le : α → α → Bool} {a b : α} {bs : List α} :
    b ∈ insertBefore le a bs ↔ b = a ∨ b ∈ bs := by
  induction bs with
  | nil => simp [insertBefore]
  | cons c cs ih =>
    rw [insertBefore]
    split_ifs
    · exact List.mem_cons
    · rw [List.mem_cons, ih, List.mem_cons]
      exact or_left_comm

theorem mem_sortStably {α : Type} {le : α → α → Bool} {a : α} {as : List α} :
    a ∈ sortStably le as ↔ a ∈ as := by
  induction as with
  | nil => rfl
  | cons b bs ih =>
    rw [sortStably, List.foldr_cons, mem_insertBefore, ← sortStably, ih, List.mem_cons]

theorem insertBefore_map {α β : Type} {f : α → β} {le : α → α → Bool} {le' : β → β → Bool}
    (h : ∀ a b, le' (f a) (f b) = le a b) (a : α) (as : List α) :
    insertBefore le' (f a) (as.map f) = (insertBefore le a as).map f := by
  induction as with
  | nil => rfl
  | cons b bs ih =>
    rw [List.map_cons, insertBefore, insertBefore, h, ih]
    split_ifs <;> rfl

theorem sortStably_map {α β : Type} {f : α → β} {le : α → α → Bool} {le' : β → β → Bool}
    (h : ∀ a b, le' (f a) (f b) = le a b) (as : List α) :
    sortStably le' (as.map f) = (sortStably le as).map f := by
  induction as with
  | nil => rfl
  | cons a as ih =>
    change insertBefore le' (f a) (sortStably le' (as.map f)) =
      (insertBefore le a (sortStably le as)).map f
    rw [ih, insertBefore_map h]

theorem RuleSet.mem_of_mem_rulesFor {rs : RuleSet} {term : TermId} {r : CheckedRule}
    (h : r ∈ rs.rulesFor term) : r ∈ rs.rules ∧ r.root = term := by
  obtain ⟨⟨r', i⟩, hmem, rfl⟩ := List.mem_map.mp h
  rw [numberedRulesFor, mem_sortStably, List.mem_filter] at hmem
  obtain ⟨hzip, hroot⟩ := hmem
  obtain ⟨-, -, hget⟩ := List.mem_zipIdx hzip
  refine ⟨?_, of_decide_eq_true hroot⟩
  rw [hget]
  simp

theorem RuleSet.rulesFor_eq (rs : RuleSet) (term : TermId) :
    rs.rulesFor term =
      sortStably CheckedRule.precedes (rs.rules.toList.filter (·.root = term)) := by
  rw [rulesFor, numberedRulesFor, ← sortStably_map (f := Prod.fst) fun _ _ => rfl]
  have hfilter := List.filter_map (f := Prod.fst) (p := fun r : CheckedRule => r.root = term)
    (l := rs.rules.toList.zipIdx)
  rw [List.zipIdx_map_fst] at hfilter
  rw [hfilter]
  rfl

theorem CheckedRule.priority_of_precedes {r s : CheckedRule} (h : r.precedes s = true) :
    s.priority ≤ r.priority := by
  simp only [precedes, Bool.or_eq_true, Bool.and_eq_true, decide_eq_true_eq, beq_iff_eq] at h
  rcases h with h | ⟨h, -⟩
  · exact Int64.le_of_lt h
  · rw [h]
    exact Int64.le_refl _

theorem CheckedRule.priority_of_not_precedes {r s : CheckedRule} (h : ¬r.precedes s = true) :
    r.priority ≤ s.priority ∧ (r.order ≤ s.order → r.priority ≠ s.priority) := by
  simp only [precedes, Bool.or_eq_true, Bool.and_eq_true, decide_eq_true_eq, beq_iff_eq, not_or,
    not_and] at h
  exact ⟨Int64.not_lt.mp h.1, fun horder hpriority => h.2 hpriority horder⟩

theorem pairwise_insertBefore (r : CheckedRule) {rs : List CheckedRule}
    (h : rs.Pairwise fun a b => b.priority ≤ a.priority) :
    (insertBefore CheckedRule.precedes r rs).Pairwise fun a b => b.priority ≤ a.priority := by
  induction rs with
  | nil => simp [insertBefore]
  | cons s rs ih =>
    obtain ⟨hs, hrs⟩ := List.pairwise_cons.mp h
    rw [insertBefore]
    split_ifs with hprecedes
    · have hsr := CheckedRule.priority_of_precedes hprecedes
      refine List.pairwise_cons.mpr ⟨fun b hb => ?_, h⟩
      rcases List.mem_cons.mp hb with rfl | hb
      · exact hsr
      · exact Int64.le_trans (hs b hb) hsr
    · refine List.pairwise_cons.mpr ⟨fun b hb => ?_, ih hrs⟩
      rcases mem_insertBefore.mp hb with rfl | hb
      · exact (CheckedRule.priority_of_not_precedes hprecedes).1
      · exact hs b hb

theorem pairwise_sortStably (rs : List CheckedRule) :
    (sortStably CheckedRule.precedes rs).Pairwise fun a b => b.priority ≤ a.priority := by
  induction rs with
  | nil => exact .nil
  | cons r rs ih => exact pairwise_insertBefore r ih

theorem filter_insertBefore {r : CheckedRule} {rs : List CheckedRule}
    (h : ∀ s ∈ rs, r.order ≤ s.order) (priority : Int64) :
    (insertBefore CheckedRule.precedes r rs).filter (·.priority = priority) =
      (r :: rs).filter (·.priority = priority) := by
  induction rs with
  | nil => rfl
  | cons s rs ih =>
    obtain ⟨hs, hrs⟩ := List.forall_mem_cons.mp h
    rw [insertBefore]
    split_ifs with hprecedes
    · rfl
    · have hne := (CheckedRule.priority_of_not_precedes hprecedes).2 hs
      have hih := ih hrs
      simp only [List.filter_cons] at hih ⊢
      by_cases hr : r.priority = priority
      · have hsr : ¬s.priority = priority := fun he => hne (hr.trans he.symm)
        simpa [hr, hsr] using hih
      · simpa [hr] using congrArg (fun l => if s.priority = priority then s :: l else l) hih

theorem filter_sortStably {rs : List CheckedRule} (h : rs.Pairwise fun a b => a.order ≤ b.order)
    (priority : Int64) :
    (sortStably CheckedRule.precedes rs).filter (·.priority = priority) =
      rs.filter (·.priority = priority) := by
  induction rs with
  | nil => rfl
  | cons r rs ih =>
    obtain ⟨hr, hrs⟩ := List.pairwise_cons.mp h
    change (insertBefore CheckedRule.precedes r (sortStably CheckedRule.precedes rs)).filter _ = _
    rw [filter_insertBefore fun s hs => hr s (mem_sortStably.mp hs), List.filter_cons, ih hrs,
      List.filter_cons]

theorem mem_iff_of_filter {α : Type} {key : α → Int64} {as bs : List α}
    (h : ∀ k, as.filter (key · = k) = bs.filter (key · = k)) (a : α) : a ∈ as ↔ a ∈ bs := by
  have hk := congrArg (a ∈ ·) (h (key a))
  simpa using hk

theorem eq_of_sorted_of_filter {α : Type} (key : α → Int64) {as bs : List α}
    (ha : as.Pairwise fun a b => key b ≤ key a) (hb : bs.Pairwise fun a b => key b ≤ key a)
    (h : ∀ k, as.filter (key · = k) = bs.filter (key · = k)) : as = bs := by
  have hmem := mem_iff_of_filter h
  induction as generalizing bs with
  | nil =>
    cases bs with
    | nil => rfl
    | cons b bs => exact absurd ((hmem b).mpr List.mem_cons_self) List.not_mem_nil
  | cons a as ih =>
    cases bs with
    | nil => exact absurd ((hmem a).mp List.mem_cons_self) List.not_mem_nil
    | cons b bs =>
      obtain ⟨hfirst, has⟩ := List.pairwise_cons.mp ha
      obtain ⟨hfirst', hbs⟩ := List.pairwise_cons.mp hb
      have hba : key b ≤ key a := by
        rcases List.mem_cons.mp ((hmem b).mpr List.mem_cons_self) with rfl | hb
        · exact Int64.le_refl _
        · exact hfirst b hb
      have hab : key a ≤ key b := by
        rcases List.mem_cons.mp ((hmem a).mp List.mem_cons_self) with rfl | ha
        · exact Int64.le_refl _
        · exact hfirst' a ha
      have hkey := Int64.le_antisymm hab hba
      obtain ⟨rfl, -⟩ : a = b ∧ _ := by
        have hk := h (key a)
        rw [List.filter_cons_of_pos (by simp), List.filter_cons_of_pos (by simp [hkey])] at hk
        exact List.cons.inj hk
      have hrest (k : Int64) : as.filter (key · = k) = bs.filter (key · = k) := by
        have hk := h k
        by_cases hak : key a = k
        · rw [List.filter_cons_of_pos (by simp [hak]),
            List.filter_cons_of_pos (by simp [hak])] at hk
          exact (List.cons.inj hk).2
        · rwa [List.filter_cons_of_neg (by simp [hak]),
            List.filter_cons_of_neg (by simp [hak])] at hk
      rw [ih has hbs hrest (mem_iff_of_filter hrest)]

end TermRules

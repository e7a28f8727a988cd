import TermRules.Proofs.Positions
import TermRules.Proofs.PriorityOrder
import TermRules.Proofs.PriorityWords

/-!
# Written priorities

The number in front of a rule is a sign and a 64-bit magnitude, and its value is
a priority if a signed word holds it. The way there leads through unsigned words
that wrap, but no value that fits is changed by it. A number that does not fit
is the one error of its item. The rules of a term come by falling value of the
numbers written for them.
-/

namespace TermRules

namespace Parse

def definitionBehind (loc : Loc) (keyword : Ident) : Parse Definition :=
  if keyword.name = ascii "type" then Definition.type <$> typeDef loc
  else if keyword.name = ascii "decl" then Definition.decl <$> termDecl loc
  else if keyword.name = ascii "extern" then Definition.external <$> externalDef loc
  else if keyword.name = ascii "extractor" then Definition.template <$> template loc
  else if keyword.name = ascii "rule" then Definition.rule <$> rule loc
  else failAt keyword.loc (.unknownDefinition keyword.name)

theorem run_definition (l k : Loc) (keyword : Bytes) (ts : List Token) (endLoc : Loc) (d : Int) :
    definition.run ⟨⟨.lparen, l⟩ :: ⟨.symbol keyword, k⟩ :: ts, endLoc, d⟩ =
      (definitionBehind l ⟨keyword, k⟩).run ⟨ts, endLoc, d + 1⟩ :=
  rfl

theorem definitionBehind_of_other (keyword : Ident) (h : keyword.name ≠ ascii "rule") (loc : Loc) :
    SparesPriorities (definitionBehind loc keyword) ∧
      ∀ c d c', (definitionBehind loc keyword).run c = .ok d c' → d.rule? = none := by
  have hmap {α : Type} {f : α → Definition} (hf : ∀ a, (f a).rule? = none) (p : Parse α) :
      ∀ c d c', (f <$> p).run c = .ok d c' → d.rule? = none := by
    intro c d c' hrun
    obtain ⟨a, -, rfl⟩ := run_map_eq_ok.mp hrun
    exact hf a
  rw [definitionBehind, if_neg h]
  split_ifs
  · exact ⟨(spares_typeDef loc).map _, hmap (fun _ => rfl) _⟩
  · exact ⟨(spares_termDecl loc).map _, hmap (fun _ => rfl) _⟩
  · exact ⟨(spares_externalDef loc).map _, hmap (fun _ => rfl) _⟩
  · exact ⟨(spares_template loc).map _, hmap (fun _ => rfl) _⟩
  · exact ⟨spares_failAt SyntaxFault.noConfusion _, fun c d c' hrun => by cases hrun⟩

def numberOf : List Token → Option (IntLiteral × Loc)
  | ⟨.lparen, _⟩ :: ⟨.symbol keyword, _⟩ :: ts =>
      if keyword = ascii "rule" then numberInFront (behindName ts) else none
  | _ => none

def Item.number? (i : Item) : Option (IntLiteral × Loc) := numberOf i.tokens

def Item.writtenPriority (i : Item) : Int := (i.number?.map fun n => n.1.value).getD 0

/-- An item is refused over its priority if no word holds it, at the place of the number, and
otherwise a rule has the priority that is written. -/
structure Item.KeepsPriority (i : Item) (o : Outcome) : Prop where
  refused : ∀ place, o = .error ⟨place, .priorityOutOfRange⟩ ↔
    ∃ n, i.number? = some (n, place) ∧ ¬n.FitsWord
  kept : ∀ r, o = .ok (.rule r) → r.priority.toInt = i.writtenPriority

section Items

variable {i : Item}

theorem keepsPriority_error {e : SyntaxError} (h : e.fault ≠ .priorityOutOfRange)
    (hfits : ∀ n place, i.number? = some (n, place) → n.FitsWord) :
    i.KeepsPriority (.error e) where
  refused place := by
    constructor
    · intro he
      cases he
      exact absurd rfl h
    · rintro ⟨n, hn, hnot⟩
      exact absurd (hfits n place hn) hnot
  kept r hr := by cases hr

theorem keepsPriority_ok {d : Definition}
    (hfits : ∀ n place, i.number? = some (n, place) → n.FitsWord)
    (hkept : ∀ r, d.rule? = some r → r.priority.toInt = i.writtenPriority) :
    i.KeepsPriority (.ok d) where
  refused place := by
    constructor
    · intro he
      cases he
    · rintro ⟨n, hn, hnot⟩
      exact absurd (hfits n place hn) hnot
  kept r hr := by
    cases hr
    exact hkept r rfl

def answerOf : EStateM.Result SyntaxError Cursor Definition → Outcome
  | .ok d _ => .ok d
  | .error e _ => .error e

theorem outcome_eq_answerOf (endLoc : Loc) {t : Token} {ts : List Token} (hi : i.tokens = t :: ts)
    (ht : t.lexeme = .lparen) :
    i.outcome endLoc = answerOf (definition.run ⟨t :: ts, endLoc, 0⟩) := by
  rw [Item.outcome, hi, Cursor.ofTokens, item_lparen (kind_eq_lparen ht _ _ _)]
  cases definition.run ⟨t :: ts, endLoc, 0⟩ <;> rfl

theorem keepsPriority_spares {p : Parse Definition} (hnumber : i.number? = none)
    (hspares : SparesPriorities p) (hother : ∀ c d c', p.run c = .ok d c' → d.rule? = none)
    (c : Cursor) : i.KeepsPriority (answerOf (p.run c)) := by
  have hfits : ∀ n place, i.number? = some (n, place) → n.FitsWord := by
    intro n place hn
    rw [hnumber] at hn
    cases hn
  cases hrun : p.run c with
  | error e c' => exact keepsPriority_error (hspares c e c' hrun) hfits
  | ok d c' =>
    refine keepsPriority_ok hfits fun r hr => ?_
    rw [hother c d c' hrun] at hr
    cases hr

theorem keepsPriority_ruleBehind {loc : Loc} {name : Option Ident} {w : Int64}
    (hfits : ∀ n place, i.number? = some (n, place) → n.FitsWord)
    (hw : w.toInt = i.writtenPriority) (c : Cursor) :
    i.KeepsPriority (answerOf ((Definition.rule <$> ruleBehind loc name w).run c)) := by
  rw [map_eq_pure_bind, EStateM.run_bind]
  cases hrun : (ruleBehind loc name w).run c with
  | error e c' => exact keepsPriority_error (spares_ruleBehind loc name w c e c' hrun) hfits
  | ok r c' =>
    refine keepsPriority_ok hfits fun r' hr' => ?_
    cases hr'
    rw [priority_of_ruleBehind hrun, hw]

theorem keepsPriority_rule {l k : Loc} {ts : List Token}
    (hi : i.tokens = ⟨.lparen, l⟩ :: ⟨.symbol (ascii "rule"), k⟩ :: ts) (endLoc : Loc) (d : Int) :
    i.KeepsPriority (answerOf ((Definition.rule <$> rule l).run ⟨ts, endLoc, d⟩)) := by
  have hnumber : i.number? = numberInFront (behindName ts) := by
    rw [Item.number?, hi, numberOf]
    exact if_pos rfl
  cases hfront : numberInFront (behindName ts) with
  | none =>
    rw [hfront] at hnumber
    rw [run_map_congr _ (run_rule_none endLoc d l hfront)]
    refine keepsPriority_ruleBehind (fun n place hn => ?_) ?_ _
    · rw [hnumber] at hn
      cases hn
    · rw [Item.writtenPriority, hnumber]
      rfl
  | some p =>
    obtain ⟨n, place⟩ := p
    rw [hfront] at hnumber
    obtain ⟨rest, hrest⟩ := numberInFront_eq_some hfront
    have hrun := run_rule_number endLoc d l hrest
    cases hw : n.toInt64? with
    | some w =>
      have hvalue : w.toInt = n.value := IntLiteral.toInt64?_eq_some_iff.mp hw
      rw [hw] at hrun
      rw [run_map_congr _ hrun]
      refine keepsPriority_ruleBehind (fun n' place' hn => ?_) ?_ _
      · rw [hnumber] at hn
        cases hn
        exact IntLiteral.fitsWord_of_toInt64? hw
      · rw [Item.writtenPriority, hnumber]
        exact hvalue
    | none =>
      rw [hw] at hrun
      rw [map_eq_pure_bind, EStateM.run_bind, hrun]
      have hnot : ¬n.FitsWord := IntLiteral.toInt64?_eq_none_iff.mp hw
      refine ⟨fun place' => ⟨fun he => ?_, ?_⟩, fun r hr => by cases hr⟩
      · cases he
        exact ⟨n, hnumber, hnot⟩
      · rintro ⟨n', hn', -⟩
        rw [hnumber] at hn'
        cases hn'
        rfl

theorem Item.keepsPriority (i : Item) (endLoc : Loc) : i.KeepsPriority (i.outcome endLoc) := by
  have herror {what : String} {found : TokenKind} {loc : Loc} (hnumber : i.number? = none) :
      i.KeepsPriority (.error ⟨loc, .expected what found⟩) :=
    keepsPriority_error SyntaxFault.noConfusion fun n place hn => by rw [hnumber] at hn; cases hn
  rcases hi : i.tokens with _ | ⟨t, ts⟩
  · rw [Item.outcome, hi]
    exact herror (by rw [Item.number?, hi]; rfl)
  by_cases ht : t.lexeme = .lparen
  · obtain ⟨_, l⟩ := t
    subst ht
    rw [outcome_eq_answerOf endLoc hi rfl]
    rcases ts with _ | ⟨⟨u, k⟩, ts⟩
    · exact herror (by rw [Item.number?, hi]; rfl)
    cases u with
    | symbol keyword =>
      rw [run_definition]
      by_cases hkeyword : keyword = ascii "rule"
      · subst hkeyword
        exact keepsPriority_rule hi endLoc _
      · have hnumber : i.number? = none := by
          rw [Item.number?, hi]
          exact if_neg hkeyword
        obtain ⟨hspares, hother⟩ := definitionBehind_of_other ⟨keyword, k⟩ hkeyword l
        exact keepsPriority_spares hnumber hspares hother _
    | _ => exact herror (by rw [Item.number?, hi]; rfl)
  · rw [Item.outcome, hi, Cursor.ofTokens, item_stray ht]
    refine herror ?_
    rw [Item.number?, hi]
    obtain ⟨l, loc⟩ := t
    cases l with
    | lparen => exact absurd rfl ht
    | _ => rfl

end Items

end Parse

namespace Parse

def itemsOf (f : UInt32 × Bytes) : List Item := cut (Scan.ofSource f.1 f.2).tokens

def outcomesOf (f : UInt32 × Bytes) : List Outcome :=
  (itemsOf f).map (Item.outcome (Scan.ofSource f.1 f.2).endLoc)

theorem definitions_eq_outcomesOf (f : UInt32 × Bytes) :
    (parseFile f.1 f.2).definitions = (outcomesOf f).filterMap Except.toOption := by
  rw [outcomesOf, itemsOf, ← outcomes_eq]
  exact definitionsOf_eq _

theorem errors_eq_outcomesOf (f : UInt32 × Bytes) :
    (parseFile f.1 f.2).failures.map SyntaxFailure.error =
      (outcomesOf f).filterMap Outcome.error? := by
  rw [outcomesOf, itemsOf, ← outcomes_eq]
  exact errors_failuresOf _

end Parse

namespace CheckedRule

def MadeFrom (c : CheckedRule) (r : Rule) : Prop := ∃ rs order, Check.rule rs r order = .ok c

theorem MadeFrom.priority {c : CheckedRule} {r : Rule} (h : c.MadeFrom r) :
    c.priority = r.priority := by
  obtain ⟨rs, order, hc⟩ := h
  obtain ⟨-, -, -, -, -, -, -, -, -, -, -, -, rfl⟩ := Check.rule_ok.mp hc
  rfl

def WrittenAs (c : CheckedRule) (i : Parse.Item) : Prop :=
  ∃ endLoc r, i.outcome endLoc = .ok (.rule r) ∧ c.MadeFrom r

theorem WrittenAs.priority {c : CheckedRule} {i : Parse.Item} (h : c.WrittenAs i) :
    c.priority.toInt = i.writtenPriority := by
  obtain ⟨endLoc, r, hi, hc⟩ := h
  rw [hc.priority]
  exact (i.keepsPriority endLoc).kept r hi

end CheckedRule

namespace RuleSet

theorem exists_rule_of_mem_analyze (rs : RuleSet) (defs : List Definition) :
    ∀ c ∈ (rs.analyze defs).1.rules, c ∈ rs.rules ∨ ∃ r, .rule r ∈ defs ∧ c.MadeFrom r := by
  refine analyze_induction
    (P := fun s => ∀ c ∈ s.rules, c ∈ rs.rules ∨ ∃ r, .rule r ∈ defs ∧ c.MadeFrom r)
    (fun c hc => .inl hc) defs fun t ht s s' hs hattempt c hc => ?_
  cases t with
  | enter e =>
    rw [Entry.enter_rules hattempt] at hc
    exact hs c hc
  | refuse error => cases hattempt
  | check r order =>
    obtain ⟨c', hc', rfl⟩ := addRule_ok.mp hattempt
    rcases Array.mem_push.mp hc with hc | rfl
    · exact hs c hc
    · cases Job.askedBy_of_mem ht with
      | rule mem =>
        obtain ⟨d, hd, hr⟩ := List.mem_filterMap.mp mem
        cases d with
        | rule r' =>
          cases hr
          exact .inr ⟨_, hd, s, order, hc'⟩
        | _ => cases hr

theorem exists_rule_of_mem_afterAll (batches : List (List Definition)) :
    ∀ c ∈ (afterAll batches).rules, ∃ defs ∈ batches, ∃ r, .rule r ∈ defs ∧ c.MadeFrom r := by
  induction batches using List.reverseRecOn with
  | nil => exact fun c hc => absurd hc (Array.not_mem_empty c)
  | append_singleton batches defs ih =>
    intro c hc
    rw [afterAll, List.foldl_append] at hc
    rcases exists_rule_of_mem_analyze _ defs c hc with hc | ⟨r, hr, hmade⟩
    · obtain ⟨defs', hdefs', hr⟩ := ih c hc
      exact ⟨defs', List.mem_append_left _ hdefs', hr⟩
    · exact ⟨defs, List.mem_append_right _ (List.mem_singleton_self defs), r, hr, hmade⟩

def afterFiles (batches : List (List (UInt32 × Bytes))) : RuleSet :=
  afterAll (batches.map fun files => files.flatMap fun f => (parseFile f.1 f.2).definitions)

theorem exists_item_of_mem_afterFiles (batches : List (List (UInt32 × Bytes))) :
    ∀ c ∈ (afterFiles batches).rules,
      ∃ files ∈ batches, ∃ f ∈ files, ∃ i ∈ Parse.itemsOf f, c.WrittenAs i := by
  intro c hc
  obtain ⟨defs, hdefs, r, hr, hmade⟩ := exists_rule_of_mem_afterAll _ c hc
  obtain ⟨files, hfiles, rfl⟩ := List.mem_map.mp hdefs
  obtain ⟨f, hf, hr⟩ := List.mem_flatMap.mp hr
  obtain ⟨i, hi, houtcome⟩ := Parse.exists_item_of_mem_definitions hr
  exact ⟨files, hfiles, f, hf, i, hi, _, r, houtcome, hmade⟩

theorem mem_rulesFor_iff {rs : RuleSet} {t : TermId} {c : CheckedRule} :
    c ∈ rs.rulesFor t ↔ c ∈ rs.rules ∧ c.root = t := by
  rw [rulesFor_eq, mem_sortStably, List.mem_filter, Array.mem_toList_iff, decide_eq_true_eq]

theorem rulesFor_lt_of_written {rs : RuleSet} {t : TermId} {c d : CheckedRule} {i j : Parse.Item}
    (hc : c.WrittenAs i) (hd : d.WrittenAs j) (h : j.writtenPriority < i.writtenPriority)
    {k l : Nat} (hk : (rs.rulesFor t)[k]? = some c) (hl : (rs.rulesFor t)[l]? = some d) :
    k < l := by
  have hlt : d.priority < c.priority := by
    rw [Int64.lt_iff_toInt_lt, hc.priority, hd.priority]
    exact h
  obtain ⟨hk', rfl⟩ := List.getElem?_eq_some_iff.mp hk
  obtain ⟨hl', rfl⟩ := List.getElem?_eq_some_iff.mp hl
  rcases Nat.lt_trichotomy k l with hkl | rfl | hlk
  · exact hkl
  · exact (Int64.lt_irrefl hlt).elim
  · have hsorted : (rs.rulesFor t).Pairwise fun a b => b.priority ≤ a.priority := by
      rw [rulesFor_eq]
      exact pairwise_sortStably _
    have hle := List.pairwise_iff_getElem.mp hsorted l k hl' hk' hlk
    exact absurd hlt (Int64.not_lt.mpr hle)

end RuleSet

open Parse in
/-- A number in front of a rule becomes its value as a signed word and no other, by the way through
unsigned words as well, or it is the one error of its item if no word has this value. Whatever is
left of the rule is then read with this priority and fails for other reasons only. The rules of a
term come by falling value of the numbers that are written for them. -/
theorem priorities_exact :
    (∀ n : IntLiteral, n.wordValue? = n.toInt64? ∧ (n.toInt64? = none ↔ ¬n.FitsWord) ∧
      ∀ w, n.toInt64? = some w ↔ w.toInt = n.value) ∧
    (∀ (loc place endLoc : Loc) (d : Int) (name : Option Ident) (n : IntLiteral)
        (rest : List Token),
      (rule loc).run ⟨name.toList.map Ident.token ++ ⟨.int n, place⟩ :: rest, endLoc, d⟩ =
        match n.toInt64? with
        | some w => (ruleBehind loc name w).run ⟨rest, endLoc, d⟩
        | none => .error ⟨place, .priorityOutOfRange⟩ ⟨rest, endLoc, d⟩) ∧
    (∀ loc name w, SparesPriorities (ruleBehind loc name w) ∧
      ∀ c r c', (ruleBehind loc name w).run c = .ok r c' → r.priority = w) ∧
    (∀ f : UInt32 × Bytes,
      (parseFile f.1 f.2).definitions = (outcomesOf f).filterMap Except.toOption ∧
      (parseFile f.1 f.2).failures.map SyntaxFailure.error =
        (outcomesOf f).filterMap Outcome.error? ∧
      Mixes (Scan.ofSource f.1 f.2).diagnostics
        ((parseFile f.1 f.2).failures.map SyntaxFailure.diagnostic)
        (parseFile f.1 f.2).diagnostics ∧
      ∀ i ∈ itemsOf f, i.KeepsPriority (i.outcome (Scan.ofSource f.1 f.2).endLoc)) ∧
    SyntaxFault.priorityOutOfRange.message = ascii "rule priority out of range" ∧
    ∀ batches, let rs := RuleSet.afterFiles batches
      (∀ c ∈ rs.rules, ∃ files ∈ batches, ∃ f ∈ files, ∃ i ∈ itemsOf f, c.WrittenAs i) ∧
      ∀ t, (∀ c, c ∈ rs.rulesFor t ↔ c ∈ rs.rules ∧ c.root = t) ∧
        ∀ (c d : CheckedRule) (i j : Item), c.WrittenAs i → d.WrittenAs j →
          j.writtenPriority < i.writtenPriority →
          ∀ k l : Nat, (rs.rulesFor t)[k]? = some c → (rs.rulesFor t)[l]? = some d → k < l := by
  refine ⟨fun n => ⟨n.wordValue?_eq, IntLiteral.toInt64?_eq_none_iff,
    fun w => IntLiteral.toInt64?_eq_some_iff⟩, ?_, fun loc name w =>
    ⟨spares_ruleBehind loc name w, fun c r c' => priority_of_ruleBehind⟩, fun f =>
    ⟨definitions_eq_outcomesOf f, errors_eq_outcomesOf f, mixes_parseFile f.1 f.2,
      fun i _ => i.keepsPriority _⟩, rfl, fun batches => ?_⟩
  · intro loc place endLoc d name n rest
    cases name with
    | none => exact run_rule_number endLoc d loc rfl
    | some i => exact run_rule_number endLoc d loc rfl
  · exact ⟨RuleSet.exists_item_of_mem_afterFiles batches, fun t => ⟨fun c =>
      RuleSet.mem_rulesFor_iff, fun c d i j hc hd h k l => RuleSet.rulesFor_lt_of_written hc hd h⟩⟩

end TermRules

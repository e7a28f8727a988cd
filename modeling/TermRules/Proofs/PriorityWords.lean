import Mathlib.Tactic.Ring
import TermRules.Proofs.Spans

/-!
# Reading priorities

The value of a literal is computed through unsigned words that wrap, and it is
exact where a signed word holds it. A reader of rules fails over a priority
exactly at the number in front of the pattern, and no other reader does.
-/

namespace TermRules

namespace IntLiteral

def FitsWord (n : IntLiteral) : Prop := -2 ^ 63 ≤ n.value ∧ n.value ≤ 2 ^ 63 - 1

def wordLimit (negative : Bool) : UInt64 :=
  if negative then Int64.maxValue.toUInt64 + 1 else Int64.maxValue.toUInt64

/-- The value computed in words: a negative magnitude is subtracted from zero without regard to
signs, and the difference read as a signed word. -/
def wordValue? (n : IntLiteral) : Option Int64 :=
  if wordLimit n.negative < n.magnitude then none
  else some (if n.negative then 0 - n.magnitude else n.magnitude).toInt64

theorem toNat_wordLimit (negative : Bool) :
    (wordLimit negative).toNat = if negative then 2 ^ 63 else 2 ^ 63 - 1 := by
  cases negative <;> rfl

theorem wordLimit_lt_iff (n : IntLiteral) : wordLimit n.negative < n.magnitude ↔ ¬n.FitsWord := by
  obtain ⟨negative, magnitude⟩ := n
  rw [UInt64.lt_iff_toNat_lt, toNat_wordLimit, FitsWord, value]
  cases negative
  · simp only [Bool.false_eq_true, if_false]
    omega
  · simp only [if_true]
    omega

theorem toInt_toInt64_of_lt {m : UInt64} (h : m.toNat < 2 ^ 63) : m.toInt64.toInt = m.toNat := by
  rw [← Int64.toInt_toBitVec, UInt64.toBitVec_toInt64, BitVec.toInt_eq_toNat_of_lt]
  · rfl
  · change 2 * m.toNat < 2 ^ 64
    omega

theorem toInt_toInt64_zero_sub {m : UInt64} (h : m.toNat ≤ 2 ^ 63) :
    (0 - m).toInt64.toInt = -m.toNat := by
  have hlt := m.toNat_lt
  rw [← Int64.toInt_toBitVec, UInt64.toBitVec_toInt64, BitVec.toInt_eq_toNat_bmod]
  have : (0 - m).toBitVec.toNat = (2 ^ 64 - m.toNat) % 2 ^ 64 := by
    change (0 - m).toNat = _
    rw [UInt64.toNat_sub]
    simp
  rw [this]
  rw [Int.bmod_def]
  omega

theorem toInt_wordValue {n : IntLiteral} (h : n.FitsWord) :
    (if n.negative then 0 - n.magnitude else n.magnitude).toInt64.toInt = n.value := by
  obtain ⟨negative, magnitude⟩ := n
  rw [FitsWord] at h
  cases negative with
  | false =>
    simp only [value, Bool.false_eq_true, if_false] at h ⊢
    exact toInt_toInt64_of_lt (by omega)
  | true =>
    simp only [value, if_true] at h ⊢
    exact toInt_toInt64_zero_sub (by omega)

theorem toInt64?_eq_none_iff {n : IntLiteral} : n.toInt64? = none ↔ ¬n.FitsWord := by
  rw [toInt64?]
  exact ite_eq_right_iff.trans (imp_congr Iff.rfl (by simp))

theorem toInt64?_eq_some_iff {n : IntLiteral} {w : Int64} :
    n.toInt64? = some w ↔ w.toInt = n.value := by
  rw [toInt64?, Option.ite_none_right_eq_some, Option.some.injEq]
  constructor
  · rintro ⟨⟨hmin, hmax⟩, rfl⟩
    exact Int64.toInt_ofInt_of_le hmin (Int.lt_of_le_sub_one hmax)
  · intro h
    rw [← h]
    exact ⟨⟨w.minValue_le_toInt, w.toInt_le⟩, Int64.ofInt_toInt w⟩

theorem fitsWord_of_toInt64? {n : IntLiteral} {w : Int64} (h : n.toInt64? = some w) :
    n.FitsWord := by
  by_contra hnot
  rw [toInt64?_eq_none_iff.mpr hnot] at h
  cases h

theorem wordValue?_eq (n : IntLiteral) : n.wordValue? = n.toInt64? := by
  by_cases h : wordLimit n.negative < n.magnitude
  · rw [wordValue?, if_pos h]
    exact (toInt64?_eq_none_iff.mpr ((wordLimit_lt_iff n).mp h)).symm
  · rw [wordValue?, if_neg h]
    have hfits : n.FitsWord := not_not.mp (mt (wordLimit_lt_iff n).mpr h)
    exact (toInt64?_eq_some_iff.mpr (toInt_wordValue hfits)).symm

/-- The magnitude 2⁶³ is a priority only under a minus sign. -/
example : wordValue? ⟨true, 0x8000000000000000⟩ = some Int64.minValue ∧
    wordValue? ⟨false, 0x8000000000000000⟩ = none := by
  decide

end IntLiteral

namespace Parse

def SparesPriorities {α : Type} (p : Parse α) : Prop :=
  ∀ c e c', p.run c = .error e c' → e.fault ≠ .priorityOutOfRange

section Spares

variable {α β : Type} {p : Parse α} {f : α → Parse β}

theorem spares_pure (a : α) : SparesPriorities (pure a) := by
  intro c e c' h
  cases h

theorem spares_failAt {fault : SyntaxFault} (h : fault ≠ .priorityOutOfRange) (loc : Loc) :
    SparesPriorities (failAt loc fault : Parse α) := by
  intro c e c' hrun
  cases hrun
  exact h

theorem spares_failAt_bind {fault : SyntaxFault} (h : fault ≠ .priorityOutOfRange) (loc : Loc)
    (f : α → Parse β) : SparesPriorities (failAt loc fault >>= f) := by
  intro c e c' hrun
  cases hrun
  exact h

theorem spares_unexpected (what : String) : SparesPriorities (unexpected what : Parse α) := by
  intro c e c' h
  cases h
  exact SyntaxFault.noConfusion

theorem SparesPriorities.bind (hp : SparesPriorities p) (hf : ∀ a, SparesPriorities (f a)) :
    SparesPriorities (p >>= f) := by
  intro c e c' h
  rw [EStateM.run_bind] at h
  cases hrun : p.run c with
  | error e' d =>
    rw [hrun] at h
    cases h
    exact hp c e c' hrun
  | ok a d =>
    rw [hrun] at h
    exact hf a d e c' h

theorem SparesPriorities.map (hp : SparesPriorities p) (g : α → β) : SparesPriorities (g <$> p) :=
  SparesPriorities.bind (f := fun a => pure (g a)) hp fun a => spares_pure (g a)

theorem spares_get {k : Cursor → Parse β} (h : ∀ c, SparesPriorities (k c)) :
    SparesPriorities (get >>= k) :=
  fun c e c' hrun => h c c e c' hrun

theorem spares_advance : SparesPriorities advance := by
  intro c e c' h
  cases h

theorem spares_expect (kind : TokenKind) (what : String) : SparesPriorities (expect kind what) := by
  refine spares_get fun c => ?_
  split_ifs
  · exact spares_advance
  · exact spares_unexpected what

theorem spares_symbol (what : String) : SparesPriorities (symbol what) := by
  refine spares_get fun c => ?_
  split
  · exact spares_advance.bind fun _ => spares_pure _
  · exact spares_unexpected what

theorem spares_manyWithin (more : Cursor → Bool) (hp : SparesPriorities p) (fuel : Nat) :
    SparesPriorities (manyWithin more p fuel) := by
  induction fuel with
  | zero => exact spares_pure []
  | succ fuel ih =>
    refine spares_get fun c => ?_
    split_ifs
    · exact hp.bind fun a => ih.bind fun as => spares_pure (a :: as)
    · exact spares_pure []

theorem spares_many (more : Cursor → Bool) (hp : SparesPriorities p) :
    SparesPriorities (many more p) :=
  spares_get fun c => spares_manyWithin more hp c.tokens.length

end Spares

theorem spares_patternWithin (fuel : Nat) : SparesPriorities (patternWithin fuel) := by
  induction fuel with
  | zero => exact spares_unexpected _
  | succ fuel ih =>
    refine spares_get fun c => ?_
    split
    · exact spares_advance.bind fun _ => spares_pure _
    · refine spares_advance.bind fun _ => spares_get fun c' => ?_
      split_ifs
      · exact spares_advance.bind fun _ => ih.bind fun _ => spares_pure _
      · exact spares_pure _
    · refine spares_advance.bind fun _ => (spares_symbol _).bind fun head => ?_
      exact (spares_many _ ih).bind fun _ => (spares_expect _ _).bind fun _ => spares_pure _
    · exact spares_unexpected _

theorem spares_pattern : SparesPriorities pattern :=
  spares_get fun c => spares_patternWithin (c.tokens.length + 1)

theorem spares_binding {value : Parse Expr} (h : SparesPriorities value) :
    SparesPriorities (binding value) := by
  refine spares_advance.bind fun _ => (spares_symbol _).bind fun _ => (spares_symbol _).bind ?_
  exact fun _ => h.bind fun _ => (spares_expect _ _).bind fun _ => spares_pure _

theorem spares_exprWithin (fuel : Nat) : SparesPriorities (exprWithin fuel) := by
  induction fuel with
  | zero => exact spares_unexpected _
  | succ fuel ih =>
    refine spares_get fun c => ?_
    split
    · exact spares_advance.bind fun _ => spares_pure _
    · exact spares_advance.bind fun _ => spares_pure _
    · refine spares_advance.bind fun _ => (spares_symbol _).bind fun head => ?_
      split_ifs
      · refine (spares_expect _ _).bind fun _ => (spares_many _ (spares_binding ih)).bind ?_
        refine fun _ => (spares_expect _ _).bind fun _ => ih.bind ?_
        exact fun _ => (spares_expect _ _).bind fun _ => spares_pure _
      · exact (spares_many _ ih).bind fun _ => (spares_expect _ _).bind fun _ => spares_pure _
    · exact spares_unexpected _

theorem spares_expr : SparesPriorities expr :=
  spares_get fun c => spares_exprWithin (c.tokens.length + 1)

theorem spares_field : SparesPriorities field := by
  refine spares_advance.bind fun _ => (spares_symbol _).bind fun _ => (spares_symbol _).bind ?_
  exact fun _ => (spares_expect _ _).bind fun _ => spares_pure _

theorem spares_variant : SparesPriorities variant := by
  refine spares_get fun c => ?_
  split_ifs
  · exact (spares_symbol _).bind fun _ => spares_pure _
  · refine (spares_expect _ _).bind fun _ => (spares_symbol _).bind fun _ => ?_
    exact (spares_many _ spares_field).bind fun _ => (spares_expect _ _).bind fun _ => spares_pure _

theorem spares_typeBody : SparesPriorities typeBody := by
  refine spares_get fun c => ?_
  split_ifs
  · exact (spares_symbol _).bind fun _ => spares_pure _
  · refine (spares_expect _ _).bind fun _ => (spares_symbol _).bind fun form => ?_
    have hclose (body : TypeBody) : SparesPriorities (do expect .rparen "')'"; pure body) :=
      (spares_expect _ _).bind fun _ => spares_pure _
    split_ifs
    · exact ((spares_symbol _).map _).bind hclose
    · exact ((spares_many _ spares_variant).map _).bind hclose
    · exact (spares_failAt SyntaxFault.noConfusion _).bind hclose

theorem spares_typeDef (loc : Loc) : SparesPriorities (typeDef loc) := by
  refine (spares_symbol _).bind fun _ => (spares_many _ (spares_symbol _)).bind fun _ => ?_
  exact spares_typeBody.bind fun _ => (spares_expect _ _).bind fun _ => spares_pure _

theorem spares_termDecl (loc : Loc) : SparesPriorities (termDecl loc) := by
  refine (spares_many _ (spares_symbol _)).bind fun flags => spares_get fun c => ?_
  split_ifs
  · exact spares_failAt_bind SyntaxFault.noConfusion _ _
  · refine (spares_symbol _).bind fun _ => (spares_expect _ _).bind fun _ => ?_
    refine (spares_many _ (spares_symbol _)).bind fun _ => (spares_expect _ _).bind fun _ => ?_
    exact (spares_symbol _).bind fun _ => (spares_expect _ _).bind fun _ => spares_pure _

theorem spares_externalKind : SparesPriorities externalKind := by
  refine (spares_symbol _).bind fun kind => ?_
  split_ifs
  · exact spares_pure _
  · refine spares_get fun c => ?_
    split_ifs
    · exact spares_advance.bind fun _ => spares_pure _
    · exact spares_pure _
  · exact spares_failAt SyntaxFault.noConfusion _

theorem spares_externalDef (loc : Loc) : SparesPriorities (externalDef loc) := by
  refine spares_externalKind.bind fun _ => (spares_symbol _).bind fun _ => (spares_symbol _).bind ?_
  exact fun _ => (spares_expect _ _).bind fun _ => spares_pure _

theorem spares_template (loc : Loc) : SparesPriorities (template loc) := by
  refine (spares_expect _ _).bind fun _ => (spares_symbol _).bind fun _ => ?_
  refine (spares_many _ (spares_symbol _)).bind fun _ => (spares_expect _ _).bind fun _ => ?_
  exact spares_pattern.bind fun _ => (spares_expect _ _).bind fun _ => spares_pure _

theorem spares_guard : SparesPriorities guard := by
  refine spares_get fun c => spares_advance.bind fun _ => spares_get fun c' => ?_
  refine spares_advance.bind fun _ => ?_
  have hrest (pattern : Pattern) : SparesPriorities (do
      let value ← expr
      expect .rparen "')' after guard"
      return ({ pattern, value, loc := c.loc } : Guard)) :=
    spares_expr.bind fun _ => (spares_expect _ _).bind fun _ => spares_pure _
  split_ifs
  · exact spares_pattern.bind hrest
  · exact (spares_pure _).bind hrest

def ruleBehind (loc : Loc) (name : Option Ident) (priority : Int64) : Parse Rule := do
  let pattern ← pattern
  let guards ← many (fun c => c.atForm "if-let" || c.atForm "if") guard
  let result ← expr
  expect .rparen "')' after rule body"
  return { name, priority, pattern, guards, result, loc }

theorem spares_ruleBehind (loc : Loc) (name : Option Ident) (priority : Int64) :
    SparesPriorities (ruleBehind loc name priority) := by
  refine spares_pattern.bind fun _ => (spares_many _ spares_guard).bind fun _ => ?_
  exact spares_expr.bind fun _ => (spares_expect _ _).bind fun _ => spares_pure _

theorem priority_of_ruleBehind {loc : Loc} {name : Option Ident} {priority : Int64} {c c' : Cursor}
    {r : Rule} (h : (ruleBehind loc name priority).run c = .ok r c') : r.priority = priority := by
  have hcovers : Covers c (ruleBehind loc name priority) fun r _ => r.priority = priority := by
    refine (covers_pattern c).bind fun _ _ c' _ => ?_
    refine (covers_many (fun c hc => covers_guard hc) c').bind fun _ _ c' _ => ?_
    refine (covers_expr c').bind fun _ _ c' _ => ?_
    exact covers_rparen fun c' _ => covers_pure rfl
  obtain ⟨ts, -, hpriority⟩ := hcovers r c' h
  exact hpriority

def behindName : List Token → List Token
  | ⟨.symbol _, _⟩ :: ts => ts
  | ts => ts

def nameInFront : List Token → Option Ident
  | ⟨.symbol name, loc⟩ :: _ => some ⟨name, loc⟩
  | _ => none

def numberInFront : List Token → Option (IntLiteral × Loc)
  | ⟨.int n, loc⟩ :: _ => some (n, loc)
  | _ => none

theorem numberInFront_eq_some {ts : List Token} {n : IntLiteral} {place : Loc}
    (h : numberInFront ts = some (n, place)) : ∃ rest, ts = ⟨.int n, place⟩ :: rest := by
  rcases ts with _ | ⟨⟨l, loc⟩, ts⟩
  · cases h
  · cases l <;> cases h
    exact ⟨ts, rfl⟩

theorem run_map_congr {α β : Type} (g : α → β) {p q : Parse α} {c c' : Cursor}
    (h : p.run c = q.run c') : (g <$> p).run c = (g <$> q).run c' := by
  rw [map_eq_pure_bind, map_eq_pure_bind, EStateM.run_bind, EStateM.run_bind, h]

section Runs

variable (endLoc : Loc) (d : Int)

theorem run_ruleName (ts : List Token) :
    ruleName.run ⟨ts, endLoc, d⟩ = .ok (nameInFront ts) ⟨behindName ts, endLoc, d⟩ := by
  rcases ts with _ | ⟨⟨l, loc⟩, ts⟩
  · rfl
  · cases l <;> rfl

theorem run_priority_number (n : IntLiteral) (place : Loc) (rest : List Token) :
    priority.run ⟨⟨.int n, place⟩ :: rest, endLoc, d⟩ =
      match n.toInt64? with
      | some w => .ok w ⟨rest, endLoc, d⟩
      | none => .error ⟨place, .priorityOutOfRange⟩ ⟨rest, endLoc, d⟩ := by
  change (match n.toInt64? with
    | some w => (pure w : Parse Int64)
    | none => failAt place .priorityOutOfRange).run ⟨rest, endLoc, d⟩ = _
  cases n.toInt64? <;> rfl

theorem run_priority_none {ts : List Token} (h : numberInFront ts = none) :
    priority.run ⟨ts, endLoc, d⟩ = .ok 0 ⟨ts, endLoc, d⟩ := by
  rcases ts with _ | ⟨⟨l, loc⟩, ts⟩
  · rfl
  · cases l with
    | int n => cases h
    | _ => rfl

theorem rule_eq (loc : Loc) :
    rule loc = ruleName >>= fun name => priority >>= fun w => ruleBehind loc name w :=
  rfl

theorem run_rule_number (loc : Loc) {ts rest : List Token} {n : IntLiteral} {place : Loc}
    (h : behindName ts = ⟨.int n, place⟩ :: rest) :
    (rule loc).run ⟨ts, endLoc, d⟩ =
      match n.toInt64? with
      | some w => (ruleBehind loc (nameInFront ts) w).run ⟨rest, endLoc, d⟩
      | none => .error ⟨place, .priorityOutOfRange⟩ ⟨rest, endLoc, d⟩ := by
  rw [rule_eq, EStateM.run_bind, run_ruleName, h]
  dsimp only
  rw [EStateM.run_bind, run_priority_number]
  cases n.toInt64? <;> rfl

theorem run_rule_none (loc : Loc) {ts : List Token} (h : numberInFront (behindName ts) = none) :
    (rule loc).run ⟨ts, endLoc, d⟩ =
      (ruleBehind loc (nameInFront ts) 0).run ⟨behindName ts, endLoc, d⟩ := by
  rw [rule_eq, EStateM.run_bind, run_ruleName]
  dsimp only
  rw [EStateM.run_bind, run_priority_none _ _ h]

end Runs

end Parse

end TermRules

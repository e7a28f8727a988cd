import Mathlib.Data.List.Basic
import Mathlib.Tactic.Common
import TermRules.Token.Reader

/-!
# Looking ahead

A reader that looks ahead is, between two calls, where a reader that never does
so is, or one token further with this token at hand. The errors before that
token are then reported already and are not reported again. So the calls that
pass a token return the same tokens in either case, and report the same errors
once nothing is at hand.
-/

namespace TermRules

namespace Reader

inductive Call
  | peek
  | next
deriving DecidableEq, Repr

def answer (r : Reader) : Call → List Diagnostic × Option Token × Reader
  | .peek => r.peek
  | .next => r.next

def after : Reader → List Call → Reader
  | r, [] => r
  | r, call :: calls => (r.answer call).2.2.after calls

def reported : Reader → List Call → List Diagnostic
  | _, [] => []
  | r, call :: calls => (r.answer call).1 ++ (r.answer call).2.2.reported calls

def taken : Reader → List Call → List (Option Token)
  | _, [] => []
  | r, .peek :: calls => r.peek.2.2.taken calls
  | r, .next :: calls => r.next.2.1 :: r.next.2.2.taken calls

def withoutPeeks (calls : List Call) : List Call := calls.filter (· = .next)

/-- The last call, if there is one, passed a token. -/
def Settled (calls : List Call) : Prop := calls.getLast? ≠ some .peek

theorem withoutPeeks_eq (calls : List Call) :
    withoutPeeks calls = List.replicate (calls.count .next) .next := List.filter_eq _

theorem withoutPeeks_next (calls : List Call) :
    withoutPeeks (.next :: calls) = .next :: withoutPeeks calls := rfl

theorem after_append (r : Reader) (calls more : List Call) :
    r.after (calls ++ more) = (r.after calls).after more := by
  induction calls generalizing r with
  | nil => rfl
  | cons call calls ih => exact ih _

theorem reported_append (r : Reader) (calls more : List Call) :
    r.reported (calls ++ more) = r.reported calls ++ (r.after calls).reported more := by
  induction calls generalizing r with
  | nil => rfl
  | cons call calls ih =>
    rw [List.cons_append, reported, ih, reported, List.append_assoc, after]

theorem endLoc_after (r : Reader) (calls : List Call) : (r.after calls).endLoc = r.endLoc := by
  induction calls generalizing r with
  | nil => rfl
  | cons call calls ih =>
    rw [after, ih]
    obtain ⟨pieces, endLoc, ahead⟩ := r
    cases call <;> cases ahead <;> rfl

theorem ahead_next (r : Reader) : r.next.2.2.ahead = none := by
  obtain ⟨pieces, endLoc, ahead⟩ := r
  cases ahead <;> rfl

theorem ahead_peek (r : Reader) : r.peek.2.2.ahead = some r.peek.2.1 := by
  obtain ⟨pieces, endLoc, ahead⟩ := r
  cases ahead <;> rfl

theorem next_of_ahead {r : Reader} {token : Option Token} (h : r.ahead = some token) :
    r.next.2.1 = token := by
  rw [next, h]

theorem peek_peek (r : Reader) : r.peek.2.2.peek = ([], r.peek.2.1, r.peek.2.2) := by
  rw [peek, ahead_peek]

theorem peek_then_next {r : Reader} (h : r.ahead = none) :
    r.peek.1 = r.next.1 ∧ r.peek.2.1 = r.next.2.1 ∧
      r.peek.2.2.next = ([], r.next.2.1, r.next.2.2) := by
  obtain ⟨pieces, endLoc, ahead⟩ := r
  cases h
  exact ⟨rfl, rfl, rfl⟩

/-- The second reader stands where the first one does, having reported as much, or has looked at
the next token and thereby reported the errors before it early. -/
def Follows (plain r : Reader) (early : List Diagnostic) : Prop :=
  r = plain ∧ early = [] ∨ r = plain.peek.2.2 ∧ early = plain.peek.1

section Follows

variable {plain r : Reader} {early : List Diagnostic} (hplain : plain.ahead = none)
  (h : Follows plain r early)
include hplain h

theorem Follows.peek :
    r.peek.2.1 = plain.next.2.1 ∧ Follows plain r.peek.2.2 (early ++ r.peek.1) := by
  obtain ⟨-, htoken, -⟩ := peek_then_next hplain
  rcases h with ⟨rfl, rfl⟩ | ⟨rfl, rfl⟩
  · exact ⟨htoken, .inr ⟨rfl, rfl⟩⟩
  · rw [peek_peek, List.append_nil]
    exact ⟨htoken, .inr ⟨rfl, rfl⟩⟩

theorem Follows.next :
    r.next.2 = plain.next.2 ∧ early ++ r.next.1 = plain.next.1 := by
  obtain ⟨hfaults, -, hnext⟩ := peek_then_next hplain
  rcases h with ⟨rfl, rfl⟩ | ⟨rfl, rfl⟩
  · exact ⟨rfl, rfl⟩
  · rw [hnext, hfaults, List.append_nil]
    exact ⟨rfl, rfl⟩

theorem Follows.run (calls : List Call) :
    r.taken calls = plain.taken (withoutPeeks calls) ∧
      ∃ early', Follows (plain.after (withoutPeeks calls)) (r.after calls) early' ∧
        early ++ r.reported calls = plain.reported (withoutPeeks calls) ++ early' := by
  induction calls generalizing plain r early with
  | nil => exact ⟨rfl, early, h, by simp [reported, withoutPeeks]⟩
  | cons call calls ih =>
    cases call with
    | peek =>
      obtain ⟨htaken, early', hfollows, hreported⟩ := ih hplain (h.peek hplain).2
      refine ⟨htaken, early', hfollows, ?_⟩
      rw [reported, ← List.append_assoc]
      exact hreported
    | next =>
      obtain ⟨hstep, hfaults⟩ := h.next hplain
      obtain ⟨htaken, early', hfollows, hreported⟩ := ih plain.ahead_next (.inl ⟨rfl, rfl⟩)
      rw [List.nil_append] at hreported
      rw [withoutPeeks_next]
      refine ⟨?_, early', ?_, ?_⟩
      · rw [taken, hstep, htaken, taken]
      · rw [after, after, answer, answer, hstep]
        exact hfollows
      · rw [reported, reported, answer, answer, hstep, ← List.append_assoc, hfaults, hreported,
          List.append_assoc]

end Follows

theorem run_withoutPeeks {r : Reader} (hr : r.ahead = none) (calls : List Call) :
    r.taken calls = r.taken (withoutPeeks calls) ∧
      ∃ early, Follows (r.after (withoutPeeks calls)) (r.after calls) early ∧
        r.reported calls = r.reported (withoutPeeks calls) ++ early :=
  Follows.run hr (.inl ⟨rfl, rfl⟩) calls

theorem ahead_after_withoutPeeks {r : Reader} (hr : r.ahead = none) (calls : List Call) :
    (r.after (withoutPeeks calls)).ahead = none := by
  rw [withoutPeeks_eq]
  cases calls.count .next with
  | zero => exact hr
  | succ n =>
    rw [List.replicate_succ', after_append]
    exact ahead_next _

theorem ahead_after {r : Reader} (hr : r.ahead = none) (calls : List Call) :
    (r.after calls).ahead = none ↔ Settled calls := by
  rcases List.eq_nil_or_concat calls with rfl | ⟨calls, call, rfl⟩
  · exact iff_of_true hr (by simp [Settled])
  · rw [List.concat_eq_append, after_append, Settled, List.getLast?_concat]
    cases call with
    | peek => exact iff_of_false (by rw [after, answer, after, ahead_peek]; simp) (by simp)
    | next => exact iff_of_true (ahead_next _) (by simp)

theorem reported_of_settled {r : Reader} (hr : r.ahead = none) {calls : List Call}
    (h : Settled calls) :
    r.reported calls = r.reported (withoutPeeks calls) ∧
      r.after calls = r.after (withoutPeeks calls) := by
  obtain ⟨-, early, ⟨hafter, rfl⟩ | ⟨hafter, -⟩, hreported⟩ := run_withoutPeeks hr calls
  · rw [List.append_nil] at hreported
    exact ⟨hreported, hafter⟩
  · have hahead := (ahead_after hr calls).mpr h
    rw [hafter, ahead_peek] at hahead
    cases hahead

theorem reported_of_not_settled {r : Reader} (hr : r.ahead = none) {calls : List Call}
    (h : ¬Settled calls) : r.reported calls = r.reported (withoutPeeks calls ++ [.next]) := by
  have hplain := ahead_after_withoutPeeks hr calls
  obtain ⟨-, early, ⟨hafter, -⟩ | ⟨-, rfl⟩, hreported⟩ := run_withoutPeeks hr calls
  · exact absurd ((ahead_after hr calls).mp (hafter ▸ hplain)) h
  · rw [hreported, reported_append, (peek_then_next hplain).1, reported, reported, List.append_nil]
    rfl

theorem peeks_again (r : Reader) (k : Nat) :
    r.after (.peek :: List.replicate k .peek) = r.peek.2.2 ∧
      r.reported (.peek :: List.replicate k .peek) = r.peek.1 := by
  induction k with
  | zero => exact ⟨rfl, List.append_nil _⟩
  | succ k ih =>
    obtain ⟨hafter, hreported⟩ := ih
    rw [List.replicate_succ', ← List.cons_append]
    constructor
    · rw [after_append, hafter]
      exact congrArg (·.2.2) r.peek_peek
    · rw [reported_append, hreported, hafter, reported, answer, peek_peek]
      exact List.append_nil _

/-- Calls pass the same tokens as without the looks, and the file ends at the same place. Behind
any calls a look returns the token that the next call passes, with or without the looks, and no
further look reports anything. The errors and the reader behind the calls depend on the number of
passed tokens only, unless the last call was a look; then the errors before the next token are
there as well. -/
theorem peeks_invisible (file : UInt32) (source : Bytes) (calls : List Call) :
    let r := ofSource file source
    let s := r.after calls
    r.taken calls = r.taken (withoutPeeks calls) ∧ s.endLoc = r.endLoc ∧
      s.peek.2.1 = (r.after (withoutPeeks calls)).next.2.1 ∧
      (∀ k, let again := List.replicate k .peek
        (s.after (.peek :: again)).next.2.1 = s.peek.2.1 ∧
          (s.after (.peek :: again)).peek.2.1 = s.peek.2.1 ∧
          s.reported (.peek :: again) = s.peek.1) ∧
      (∀ other, other.count .next = calls.count .next → Settled calls → Settled other →
        r.reported calls = r.reported other ∧ s = r.after other) ∧
      (¬Settled calls → r.reported calls = r.reported (withoutPeeks calls ++ [.next])) := by
  intro r s
  have hr : r.ahead = none := rfl
  obtain ⟨htaken, early, hfollows, -⟩ := run_withoutPeeks hr calls
  have hplain := ahead_after_withoutPeeks hr calls
  refine ⟨htaken, endLoc_after r calls, (hfollows.peek hplain).1, fun k => ?_,
    fun other hcount hcalls hother => ?_, reported_of_not_settled hr⟩
  · obtain ⟨hafter, hfaults⟩ := peeks_again s k
    intro again
    rw [hafter, next_of_ahead (ahead_peek s), peek_peek]
    exact ⟨rfl, rfl, hfaults⟩
  · obtain ⟨hreported, hafter⟩ := reported_of_settled hr hcalls
    obtain ⟨hreported', hafter'⟩ := reported_of_settled hr hother
    have hsame : withoutPeeks calls = withoutPeeks other := by
      rw [withoutPeeks_eq, withoutPeeks_eq, hcount]
    exact ⟨by rw [hreported, hreported', hsame], by rw [hafter', ← hsame, ← hafter]⟩

end Reader

end TermRules

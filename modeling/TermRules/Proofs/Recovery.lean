import Mathlib.Data.List.Forall2
import TermRules.Parse.File
import TermRules.Proofs.Locality

/-!
# Recovery from syntax errors

The tokens of a file are cut where no parenthesis is open: into stray tokens and
into groups, the last of which may stay unclosed. Reading a file answers once for
each of these items and in their order. A group is read as if it stood alone, so
a malformed definition neither hides nor changes its neighbours.
-/

namespace TermRules

namespace Parse

open Cursor (depthAfter)

inductive Item
  | stray (t : Token)
  | group (tokens : List Token)
  | unclosed (tokens : List Token)

def Item.tokens : Item → List Token
  | .stray t => [t]
  | .group tokens | .unclosed tokens => tokens

def splitGroup : Int → List Token → Option (List Token × List Token)
  | _, [] => none
  | d, t :: ts =>
      if depthAfter d t.lexeme = 0 then some ([t], ts)
      else (splitGroup (depthAfter d t.lexeme) ts).map fun (group, rest) => (t :: group, rest)

theorem splitGroup_append {d : Int} {ts group rest : List Token}
    (h : splitGroup d ts = some (group, rest)) : ts = group ++ rest := by
  induction ts generalizing d group with
  | nil => cases h
  | cons t ts ih =>
    rw [splitGroup] at h
    split_ifs at h
    · cases h
      rfl
    · obtain ⟨⟨g, r⟩, hg, he⟩ := Option.map_eq_some_iff.mp h
      cases he
      rw [ih hg, List.cons_append]

def cut : List Token → List Item
  | [] => []
  | t :: ts =>
      if t.lexeme = .lparen then
        match _h : splitGroup 1 ts with
        | some (group, rest) => .group (t :: group) :: cut rest
        | none => [.unclosed (t :: ts)]
      else .stray t :: cut ts
termination_by ts => ts.length
decreasing_by
  · rw [splitGroup_append _h, List.length_cons, List.length_append]
    omega
  · exact Nat.lt_succ_self _

theorem cut_nil : cut [] = [] := by
  rw [cut]

theorem cut_stray {t : Token} (ht : t.lexeme ≠ .lparen) (ts : List Token) :
    cut (t :: ts) = .stray t :: cut ts := by
  rw [cut, if_neg ht]

theorem cut_group {t : Token} (ht : t.lexeme = .lparen) {ts group rest : List Token}
    (h : splitGroup 1 ts = some (group, rest)) :
    cut (t :: ts) = .group (t :: group) :: cut rest := by
  rw [cut, if_pos ht]
  split
  · rename_i h'
    rw [h] at h'
    cases h'
    rfl
  · rename_i h'
    rw [h] at h'
    cases h'

theorem cut_unclosed {t : Token} (ht : t.lexeme = .lparen) {ts : List Token}
    (h : splitGroup 1 ts = none) : cut (t :: ts) = [.unclosed (t :: ts)] := by
  rw [cut, if_pos ht]
  split
  · rename_i h'
    rw [h] at h'
    cases h'
  · rfl

theorem cut_induction {P : List Token → Prop} (nil : P [])
    (stray : ∀ t ts, t.lexeme ≠ .lparen → P ts → P (t :: ts))
    (group : ∀ t g rest, t.lexeme = .lparen → splitGroup 1 (g ++ rest) = some (g, rest) →
      P rest → P (t :: (g ++ rest)))
    (unclosed : ∀ t ts, t.lexeme = .lparen → splitGroup 1 ts = none → P (t :: ts))
    (ts : List Token) : P ts := by
  induction hn : ts.length using Nat.strongRecOn generalizing ts with
  | ind n ih =>
    cases ts with
    | nil => exact nil
    | cons t ts =>
      rw [List.length_cons] at hn
      by_cases ht : t.lexeme = .lparen
      · cases hs : splitGroup 1 ts with
        | none => exact unclosed t ts ht hs
        | some p =>
          obtain ⟨g, rest⟩ := p
          have happ := splitGroup_append hs
          subst happ
          rw [List.length_append] at hn
          exact group t g rest ht hs (ih rest.length (by omega) rest rfl)
      · exact stray t ts ht (ih ts.length (by omega) ts rfl)

theorem flatMap_tokens_cut (ts : List Token) : (cut ts).flatMap Item.tokens = ts := by
  induction ts using cut_induction with
  | nil => rw [cut_nil, List.flatMap_nil]
  | stray t ts ht ih => rw [cut_stray ht, List.flatMap_cons, ih, Item.tokens, List.singleton_append]
  | group t g rest ht hs ih =>
    rw [cut_group ht hs, List.flatMap_cons, ih, Item.tokens, List.cons_append]
  | unclosed t ts ht hs =>
    rw [cut_unclosed ht hs, List.flatMap_cons, List.flatMap_nil, List.append_nil, Item.tokens]

theorem inside_of_splitGroup {d : Int} {ts group rest : List Token} (hd : 0 < d)
    (h : splitGroup d ts = some (group, rest)) : Inside 0 d group := by
  induction ts generalizing d group with
  | nil => cases h
  | cons t ts ih =>
    rw [splitGroup] at h
    split_ifs at h with hclosed
    · cases h
      exact ⟨hd, hclosed⟩
    · obtain ⟨⟨g, r⟩, hg, he⟩ := Option.map_eq_some_iff.mp h
      cases he
      refine ⟨hd, ih ?_ hg⟩
      cases hl : t.lexeme <;> rw [hl] at hclosed <;> simp only [depthAfter] at hclosed ⊢ <;> omega

theorem inside_of_splitGroup_none {d : Int} {ts : List Token} (hd : 0 < d)
    (h : splitGroup d ts = none) : ∃ level : Int, 0 < level ∧ Inside level d ts := by
  induction ts generalizing d with
  | nil => exact ⟨d, hd, rfl⟩
  | cons t ts ih =>
    rw [splitGroup] at h
    split_ifs at h with hclosed
    have hpos : 0 < depthAfter d t.lexeme := by
      cases hl : t.lexeme <;> rw [hl] at hclosed <;> simp only [depthAfter] at hclosed ⊢ <;> omega
    obtain ⟨level, hlevel, hin⟩ := ih hpos (Option.map_eq_none_iff.mp h)
    exact ⟨level, hlevel, hd, hin⟩

theorem splitGroup_of_inside {d : Int} {group : List Token} (hd : 0 < d)
    (h : Inside 0 d group) (rest : List Token) :
    splitGroup d (group ++ rest) = some (group, rest) := by
  induction group generalizing d with
  | nil =>
    have : d = 0 := h
    omega
  | cons t group ih =>
    rw [List.cons_append, splitGroup]
    obtain ⟨-, hin⟩ := h
    split_ifs with hclosed
    · cases group with
      | nil => rfl
      | cons u group =>
        rw [hclosed] at hin
        exact absurd hin.1 (by decide)
    · have hpos : 0 < depthAfter d t.lexeme := by
        cases group with
        | nil => exact absurd hin hclosed
        | cons u group => exact hin.1
      rw [ih hpos hin]
      rfl

abbrev Outcome := Except SyntaxError Definition

def outcome : Except SyntaxFailure Definition → Outcome
  | .ok d => .ok d
  | .error f => .error f.error

def Outcome.error? : Outcome → Option SyntaxError
  | .ok _ => none
  | .error e => some e

def Outcome.relocate (move : Loc → Loc) : Outcome → Outcome
  | .ok d => .ok (d.relocate move)
  | .error e => .error (e.relocate move)

theorem Outcome.relocate_id (o : Outcome) : o.relocate id = o := by
  cases o with
  | ok d => rw [relocate, d.relocate_id]
  | error e => rfl

def outcomes (ts : List Token) (endLoc : Loc) : List Outcome :=
  (items (.ofTokens ts endLoc)).1.map outcome

def Item.outcome (endLoc : Loc) (i : Item) : Outcome :=
  Parse.outcome (item (.ofTokens i.tokens endLoc)).1

theorem skipTokens_inside {level d : Int} {ts : List Token} (h : Inside level d ts)
    (behind : List Token) (endLoc : Loc) (hlevel : level = 0 ∨ behind = []) :
    Cursor.skipTokens endLoc (ts ++ behind) d = ⟨behind, endLoc, level⟩ := by
  induction ts generalizing d with
  | nil =>
    cases h
    rcases hlevel with rfl | rfl
    · cases behind <;> rfl
    · rfl
  | cons t ts ih => rw [List.cons_append, Cursor.skipTokens, if_pos h.1, ih h.2]

theorem nil_of_inside_zero {level : Int} {ts : List Token} (h : Inside level 0 ts) :
    ts = [] ∧ level = 0 := by
  cases ts with
  | nil => exact ⟨rfl, Eq.symm h⟩
  | cons t ts => exact absurd h.1 (Int.lt_irrefl 0)

def itemAfter :
    EStateM.Result SyntaxError Cursor Definition → Except SyntaxFailure Definition × Cursor
  | .ok d c => (.ok d, c)
  | .error e c => (.error ⟨e, c.tokens.length⟩, c.closeAll)

theorem item_lparen {c : Cursor} (hc : c.kind = .lparen) :
    item c = itemAfter (definition.run c) := by
  rw [item, if_pos hc]
  cases definition.run c <;> rfl

theorem kind_eq_lparen {t : Token} (ht : t.lexeme = .lparen) (ts : List Token) (endLoc : Loc)
    (d : Int) : Cursor.kind ⟨t :: ts, endLoc, d⟩ = .lparen := by
  simp [Cursor.kind, Cursor.lexeme?, ht, Lexeme.kind]

theorem item_stray {t : Token} (ht : t.lexeme ≠ .lparen) (ts : List Token) (endLoc : Loc) :
    item ⟨t :: ts, endLoc, 0⟩ =
      (.error ⟨⟨t.loc, .expected "'(' to start a definition" t.lexeme.kind⟩, ts.length + 1⟩,
        ⟨ts, endLoc, 0⟩) :=
  if_neg (by cases h : t.lexeme <;> simp_all [Cursor.kind, Cursor.lexeme?, Lexeme.kind])

section Frames

variable (F : Frame) {t : Token} {ts : List Token}

theorem item_alike (ht : t.lexeme = .lparen) (inside : Inside F.level 1 ts) :
    ∃ x x', F.Alike (fun _ d => d = 0) x x' ∧ item (F.left (t :: ts) 0) = itemAfter x ∧
      item (F.right (t :: ts) 0) = itemAfter x' :=
  ⟨_, _, F.agree_definition ht inside, item_lparen (kind_eq_lparen ht _ _ _),
    item_lparen (kind_eq_lparen (t := t.relocate F.move) ht _ _ _)⟩

/-- A group is read alike on both sides of a frame, and the reading goes on behind it. -/
theorem item_group (hlevel : F.level = 0) (ht : t.lexeme = .lparen)
    (inside : Inside F.level 1 ts) :
    (item (F.left (t :: ts) 0)).2 = ⟨F.behind, F.endLoc, 0⟩ ∧
      outcome (item (F.right (t :: ts) 0)).1 =
        (outcome (item (F.left (t :: ts) 0)).1).relocate F.move := by
  obtain ⟨x, x', hread, hleft, hright⟩ := item_alike F ht inside
  rw [hleft, hright]
  cases hread with
  | ok inside post =>
    subst post
    obtain ⟨rfl, -⟩ := nil_of_inside_zero inside
    exact ⟨rfl, rfl⟩
  | @error e us d left_open =>
    have hskip := skipTokens_inside left_open.inside F.behind F.endLoc (.inl hlevel)
    rw [hlevel] at hskip
    exact ⟨hskip, rfl⟩

theorem item_unclosed (hlevel : 0 < F.level) (ht : t.lexeme = .lparen)
    (inside : Inside F.level 1 ts) :
    (item (F.left (t :: ts) 0)).2.tokens = [] ∧
      ∃ e, outcome (item (F.left (t :: ts) 0)).1 = .error e ∧
        outcome (item (F.right (t :: ts) 0)).1 = .error (e.relocate F.move) := by
  obtain ⟨x, x', hread, hleft, hright⟩ := item_alike F ht inside
  have hbehind := (F.last (by omega)).1
  rw [hleft, hright]
  cases hread with
  | ok inside post =>
    subst post
    have := (nil_of_inside_zero inside).2
    omega
  | @error e us d left_open =>
    have hskip := skipTokens_inside left_open.inside F.behind F.endLoc (.inr hbehind)
    refine ⟨?_, e, rfl, rfl⟩
    change (Cursor.skipTokens F.endLoc (us ++ F.behind) d).tokens = []
    rw [hskip, hbehind]

end Frames

def besides (move : Loc → Loc) (behind behind' : List Token) (endLoc endLoc' : Loc) : Frame where
  move
  level := 0
  behind
  behind'
  endLoc
  endLoc'
  last := fun h => absurd rfl h

def toTheEnd (move : Loc → Loc) (level : Int) (endLoc : Loc) : Frame where
  move
  level
  behind := []
  behind' := []
  endLoc
  endLoc' := move endLoc
  last := fun _ => ⟨rfl, rfl, rfl⟩

theorem left_toTheEnd (move : Loc → Loc) (level : Int) (endLoc : Loc) (ts : List Token) (d : Int) :
    (toTheEnd move level endLoc).left ts d = ⟨ts, endLoc, d⟩ := by
  simp [Frame.left, toTheEnd]

theorem right_toTheEnd (move : Loc → Loc) (level : Int) (endLoc : Loc) (ts : List Token) (d : Int) :
    (toTheEnd move level endLoc).right ts d =
      ⟨ts.map (Token.relocate move), move endLoc, d⟩ := by
  simp [Frame.right, toTheEnd]

section Groups

variable {t : Token} {group : List Token}

theorem outcome_group (ht : t.lexeme = .lparen) (inside : Inside 0 1 group) (rest : List Token)
    (endLoc endLoc' : Loc) :
    (item ⟨t :: (group ++ rest), endLoc, 0⟩).2 = ⟨rest, endLoc, 0⟩ ∧
      outcome (item ⟨t :: (group ++ rest), endLoc, 0⟩).1 =
        (Item.group (t :: group)).outcome endLoc' := by
  obtain ⟨hrest, hsame⟩ := item_group (besides id rest [] endLoc endLoc') rfl ht inside
  have halone : (besides id rest [] endLoc endLoc').right (t :: group) 0 =
      ⟨t :: group, endLoc', 0⟩ := by
    simp [Frame.right, besides, Token.relocate_id]
  rw [halone] at hsame
  exact ⟨hrest, (Outcome.relocate_id _).symm.trans hsame.symm⟩

end Groups

theorem itemsWithin_cons {fuel : Nat} {c : Cursor} (hc : c.kind ≠ .endOfFile) :
    itemsWithin (fuel + 1) c =
      ((item c).1 :: (itemsWithin fuel (item c).2).1, (itemsWithin fuel (item c).2).2) :=
  if_neg hc

theorem kind_cons_ne_endOfFile (t : Token) (ts : List Token) (endLoc : Loc) (d : Int) :
    Cursor.kind ⟨t :: ts, endLoc, d⟩ ≠ .endOfFile := by
  cases h : t.lexeme <;> simp [Cursor.kind, Cursor.lexeme?, h, Lexeme.kind]

theorem itemsWithin_nil (fuel : Nat) {c : Cursor} (hc : c.tokens = []) :
    itemsWithin fuel c = ([], c) := by
  cases fuel with
  | zero => rfl
  | succ fuel => exact if_pos (by simp [Cursor.kind, Cursor.lexeme?, hc])

theorem itemsWithin_cut (ts : List Token) (endLoc : Loc) (fuel : Nat) (hf : ts.length ≤ fuel) :
    (itemsWithin fuel ⟨ts, endLoc, 0⟩).1.map outcome = (cut ts).map (Item.outcome endLoc) ∧
      (itemsWithin fuel ⟨ts, endLoc, 0⟩).2.tokens = [] := by
  induction ts using cut_induction generalizing fuel with
  | nil =>
    rw [itemsWithin_nil fuel rfl, cut_nil]
    exact ⟨rfl, rfl⟩
  | stray t ts ht ih =>
    rw [List.length_cons] at hf
    obtain ⟨fuel, rfl⟩ : ∃ n, fuel = n + 1 := ⟨fuel - 1, by omega⟩
    obtain ⟨hitems, hend⟩ := ih fuel (by omega)
    rw [itemsWithin_cons (kind_cons_ne_endOfFile _ _ _ _), item_stray ht, cut_stray ht,
      List.map_cons, List.map_cons, hitems, Item.outcome, Item.tokens, Cursor.ofTokens,
      item_stray ht]
    exact ⟨rfl, hend⟩
  | group t g rest ht hs ih =>
    rw [List.length_cons, List.length_append] at hf
    obtain ⟨fuel, rfl⟩ : ∃ n, fuel = n + 1 := ⟨fuel - 1, by omega⟩
    obtain ⟨hitems, hend⟩ := ih fuel (by omega)
    obtain ⟨hbehind, hout⟩ :=
      outcome_group ht (inside_of_splitGroup (by decide) hs) rest endLoc endLoc
    rw [itemsWithin_cons (kind_cons_ne_endOfFile _ _ _ _), hbehind, cut_group ht hs,
      List.map_cons, List.map_cons, hitems, hout]
    exact ⟨rfl, hend⟩
  | unclosed t ts ht hs =>
    rw [List.length_cons] at hf
    obtain ⟨fuel, rfl⟩ : ∃ n, fuel = n + 1 := ⟨fuel - 1, by omega⟩
    obtain ⟨level, hlevel, inside⟩ := inside_of_splitGroup_none (by decide) hs
    obtain ⟨hend, -⟩ := item_unclosed (toTheEnd id level endLoc) hlevel ht inside
    rw [left_toTheEnd] at hend
    rw [itemsWithin_cons (kind_cons_ne_endOfFile _ _ _ _), itemsWithin_nil fuel hend,
      cut_unclosed ht hs]
    exact ⟨rfl, hend⟩

theorem outcomes_eq (ts : List Token) (endLoc : Loc) :
    outcomes ts endLoc = (cut ts).map (Item.outcome endLoc) :=
  (itemsWithin_cut ts endLoc ts.length (Nat.le_refl _)).1

/-- An item yields one outcome, and a closed group the one it has on its own. -/
inductive Item.Yields (endLoc : Loc) : Item → Outcome → Prop
  | stray {t : Token} (ht : t.lexeme ≠ .lparen) :
      Yields endLoc (.stray t)
        (.error ⟨t.loc, .expected "'(' to start a definition" t.lexeme.kind⟩)
  | group {t : Token} {ts : List Token} {o : Outcome} (ht : t.lexeme = .lparen)
      (closed : Inside 0 1 ts) (alone : ∀ endLoc', outcomes (t :: ts) endLoc' = [o]) :
      Yields endLoc (.group (t :: ts)) o
  | unclosed {t : Token} {ts : List Token} {e : SyntaxError} {level : Int}
      (ht : t.lexeme = .lparen) (hlevel : 0 < level) (still_open : Inside level 1 ts)
      (alone : outcomes (t :: ts) endLoc = [.error e]) :
      Yields endLoc (.unclosed (t :: ts)) (.error e)

theorem yields_outcome (ts : List Token) (endLoc : Loc) :
    ∀ i ∈ cut ts, i.Yields endLoc (i.outcome endLoc) := by
  induction ts using cut_induction with
  | nil => simp [cut_nil]
  | stray t ts ht ih =>
    rw [cut_stray ht]
    intro i hi
    rcases List.mem_cons.mp hi with rfl | hi
    · rw [Item.outcome, Item.tokens, Cursor.ofTokens, item_stray ht]
      exact .stray ht
    · exact ih i hi
  | group t g rest ht hs ih =>
    rw [cut_group ht hs]
    intro i hi
    rcases List.mem_cons.mp hi with rfl | hi
    · have inside := inside_of_splitGroup (by decide) hs
      refine .group ht inside fun endLoc' => ?_
      have halone := splitGroup_of_inside (by decide) inside []
      have hout := (outcome_group ht inside [] endLoc' endLoc).2
      rw [List.append_nil] at halone hout
      rw [outcomes_eq, cut_group ht halone, cut_nil]
      exact congrArg (· :: []) hout
    · exact ih i hi
  | unclosed t ts ht hs =>
    rw [cut_unclosed ht hs]
    intro i hi
    obtain rfl := List.mem_singleton.mp hi
    obtain ⟨level, hlevel, inside⟩ := inside_of_splitGroup_none (by decide) hs
    obtain ⟨-, e, herror, -⟩ := item_unclosed (toTheEnd id level endLoc) hlevel ht inside
    rw [left_toTheEnd] at herror
    have hout : (Item.unclosed (t :: ts)).outcome endLoc = .error e := herror
    rw [hout]
    refine .unclosed ht hlevel inside ?_
    rw [outcomes_eq, cut_unclosed ht hs, List.map_singleton, hout]

theorem definitionsOf_eq (results : List (Except SyntaxFailure Definition)) :
    definitionsOf results = (results.map outcome).filterMap Except.toOption := by
  rw [definitionsOf, List.filterMap_map]
  congr 1
  funext r
  cases r <;> rfl

theorem errors_failuresOf (results : List (Except SyntaxFailure Definition)) :
    (failuresOf results).map SyntaxFailure.error =
      (results.map outcome).filterMap Outcome.error? := by
  rw [failuresOf, List.map_filterMap, List.filterMap_map]
  congr 1
  funext r
  cases r <;> rfl

theorem failuresOf_ne_nil (results : List (Except SyntaxFailure Definition)) :
    failuresOf results ≠ [] ↔ ∃ e, .error e ∈ results.map outcome := by
  constructor
  · intro h
    obtain ⟨f, hf⟩ := List.exists_mem_of_ne_nil _ h
    obtain ⟨r, hr, he⟩ := List.mem_filterMap.mp hf
    cases r with
    | ok d => cases he
    | error f => exact ⟨f.error, List.mem_map_of_mem hr⟩
  · rintro ⟨e, he⟩
    obtain ⟨r, hr, ho⟩ := List.mem_map.mp he
    cases r with
    | ok d => cases ho
    | error f => exact List.ne_nil_of_mem (List.mem_filterMap.mpr ⟨_, hr, rfl⟩)

/-- Reading a file passes all its tokens and answers once for each item, in order: a stray token
is refused, a group gives a definition or one error, and neither depends on its neighbours. -/
theorem items_yield (tokens : List Token) (endLoc : Loc) :
    let (results, final) := items (.ofTokens tokens endLoc)
    final.tokens = [] ∧
      (cut tokens).flatMap Item.tokens = tokens ∧
      List.Forall₂ (Item.Yields endLoc) (cut tokens) (results.map outcome) ∧
      definitionsOf results = (results.map outcome).filterMap Except.toOption ∧
      (failuresOf results).map SyntaxFailure.error =
        (results.map outcome).filterMap Outcome.error? ∧
      (failuresOf results ≠ [] ↔ ∃ e, .error e ∈ results.map outcome) := by
  refine ⟨(itemsWithin_cut tokens endLoc _ (Nat.le_refl _)).2, flatMap_tokens_cut tokens, ?_,
    definitionsOf_eq _, errors_failuresOf _, failuresOf_ne_nil _⟩
  change List.Forall₂ _ _ (outcomes tokens endLoc)
  rw [outcomes_eq, List.forall₂_map_right_iff, List.forall₂_same]
  exact yields_outcome tokens endLoc

end Parse

end TermRules

import TermRules.Proofs.Relocation

/-!
# Reading the same tokens in two surroundings

A frame puts inner tokens before two lists of further tokens, once as they are
and once moved to other places. As long as a parenthesis is open, a parser sees
the inner tokens only: both readings succeed together and fail together, with the
same result up to places, and both leave the same inner tokens and the same
depth behind. The depth is always the number of parentheses left open.
-/

namespace TermRules

def Inside (level : Int) : Int → List Token → Prop
  | d, [] => d = level
  | d, t :: ts => 0 < d ∧ Inside level (Cursor.depthAfter d t.lexeme) ts

/-- Two surroundings of the same tokens. If parentheses stay open, nothing stands behind. -/
structure Frame where
  move : Loc → Loc
  level : Int
  behind : List Token
  behind' : List Token
  endLoc : Loc
  endLoc' : Loc
  last : level ≠ 0 → behind = [] ∧ behind' = [] ∧ endLoc' = move endLoc

namespace Frame

open Relocatable Parse

variable (F : Frame)

def left (ts : List Token) (d : Int) : Cursor := ⟨ts ++ F.behind, F.endLoc, d⟩

def right (ts : List Token) (d : Int) : Cursor :=
  ⟨ts.map (Token.relocate F.move) ++ F.behind', F.endLoc', d⟩

structure Open (ts : List Token) (d : Int) : Prop where
  pos : 0 < d
  inside : Inside F.level d ts

/-- Both readings answer the same up to places, with `Q` of what is left, or fail alike. -/
inductive Alike {α : Type} [Relocatable α] (Q : List Token → Int → Prop) :
    EStateM.Result SyntaxError Cursor α → EStateM.Result SyntaxError Cursor α → Prop
  | ok {a : α} {ts : List Token} {d : Int} (inside : Inside F.level d ts) (post : Q ts d) :
      Alike Q (.ok a (F.left ts d)) (.ok (relocate F.move a) (F.right ts d))
  | error {e : SyntaxError} {ts : List Token} {d : Int} (left_open : F.Open ts d) :
      Alike Q (.error e (F.left ts d)) (.error (e.relocate F.move) (F.right ts d))

def Agree {α : Type} [Relocatable α] (ts : List Token) (d : Int) (p p' : Parse α)
    (Q : List Token → Int → Prop) : Prop :=
  F.Alike Q (p.run (F.left ts d)) (p'.run (F.right ts d))

variable {F} {ts : List Token} {d : Int}

theorem Open.last (h : F.Open [] d) :
    F.behind = [] ∧ F.behind' = [] ∧ F.endLoc' = F.move F.endLoc :=
  F.last (by have := h.pos; have : d = F.level := h.inside; omega)

theorem lexeme?_right (h : F.Open ts d) : (F.right ts d).lexeme? = (F.left ts d).lexeme? := by
  cases ts with
  | nil => simp [left, right, Cursor.lexeme?, h.last]
  | cons t ts => rfl

theorem kind_right (h : F.Open ts d) : (F.right ts d).kind = (F.left ts d).kind := by
  rw [Cursor.kind, lexeme?_right h, Cursor.kind]

theorem inList_right (h : F.Open ts d) : (F.right ts d).inList = (F.left ts d).inList := by
  rw [Cursor.inList, kind_right h, Cursor.inList]

theorem atSymbol_right (h : F.Open ts d) (text : String) :
    (F.right ts d).atSymbol text = (F.left ts d).atSymbol text := by
  rw [Cursor.atSymbol, lexeme?_right h, Cursor.atSymbol]

theorem loc_right (h : F.Open ts d) : (F.right ts d).loc = F.move (F.left ts d).loc := by
  cases ts with
  | nil => simp [left, right, Cursor.loc, h.last]
  | cons t ts => rfl

theorem atForm_right (h : F.Open ts d) (head : String) :
    (F.right ts d).atForm head = (F.left ts d).atForm head := by
  cases ts with
  | nil => simp [left, right, Cursor.atForm, h.last]
  | cons t ts =>
    cases ts with
    | cons u ts => rfl
    | nil =>
      by_cases ht : t.lexeme = .lparen
      · have hin := h.inside.2
        rw [ht] at hin
        have hnext : F.Open [] (d + 1) := ⟨by have := h.pos; omega, hin⟩
        simp [left, right, Cursor.atForm, hnext.last]
      · have hfalse : ∀ rest : List Token, Cursor.atForm ⟨t :: rest, F.endLoc, d⟩ head = false := by
          intro rest
          cases rest <;> simp [Cursor.atForm, ht]
        have hfalse' : ∀ rest : List Token,
            Cursor.atForm ⟨t.relocate F.move :: rest, F.endLoc', d⟩ head = false := by
          intro rest
          cases rest <;> simp [Cursor.atForm, Token.relocate, ht]
        exact (hfalse' F.behind').trans (hfalse F.behind).symm

theorem exists_of_lexeme? {x : Lexeme} (h : F.Open ts d) (hx : (F.left ts d).lexeme? = some x) :
    ∃ t rest, ts = t :: rest ∧ t.lexeme = x := by
  cases ts with
  | nil => simp [left, Cursor.lexeme?, h.last] at hx
  | cons t rest => exact ⟨t, rest, rfl, Option.some.inj hx⟩

theorem exists_of_kind {k : TokenKind} (h : F.Open ts d) (hk : (F.left ts d).kind = k)
    (hend : k ≠ .endOfFile) : ∃ t rest, ts = t :: rest ∧ t.lexeme.kind = k := by
  cases ts with
  | nil => exact absurd (by simpa [left, Cursor.kind, Cursor.lexeme?, h.last] using hk.symm) hend
  | cons t rest => exact ⟨t, rest, rfl, hk⟩

section Composition

variable {α β : Type} [Relocatable α] [Relocatable β] {Q R : List Token → Int → Prop}

theorem Agree.imp {p p' : Parse α} (h : F.Agree ts d p p' Q)
    (hQ : ∀ ts' d', Q ts' d' → R ts' d') : F.Agree ts d p p' R := by
  unfold Agree at *
  generalize p.run (F.left ts d) = x, p'.run (F.right ts d) = x' at *
  cases h with
  | ok inside post => exact .ok inside (hQ _ _ post)
  | error left_open => exact .error left_open

theorem Agree.bind {p p' : Parse α} {k k' : α → Parse β} (h : F.Agree ts d p p' Q)
    (hk : ∀ a ts' d', Inside F.level d' ts' → Q ts' d' →
      F.Agree ts' d' (k a) (k' (relocate F.move a)) R) :
    F.Agree ts d (p >>= k) (p' >>= k') R := by
  unfold Agree at *
  rw [EStateM.run_bind, EStateM.run_bind]
  generalize p.run (F.left ts d) = x, p'.run (F.right ts d) = x' at *
  cases h with
  | ok inside post => exact hk _ _ _ inside post
  | error left_open => exact .error left_open

theorem agree_pure {a a' : α} (inside : Inside F.level d ts) (ha : a' = relocate F.move a)
    (post : Q ts d) : F.Agree ts d (pure a) (pure a') Q := by
  subst ha
  exact .ok inside post

theorem Agree.map {p p' : Parse α} {f f' : α → β} (h : F.Agree ts d p p' Q)
    (hf : ∀ a, f' (relocate F.move a) = relocate F.move (f a))
    (hQ : ∀ ts' d', Q ts' d' → R ts' d') :
    F.Agree ts d (f <$> p) (f' <$> p') R := by
  rw [map_eq_pure_bind, map_eq_pure_bind]
  exact h.bind fun a ts' d' inside hpost => agree_pure inside (hf a) (hQ _ _ hpost)

theorem agree_get {k k' : Cursor → Parse β}
    (h : F.Agree ts d (k (F.left ts d)) (k' (F.right ts d)) R) :
    F.Agree ts d (get >>= k) (get >>= k') R := h

theorem agree_failAt (h : F.Open ts d) {loc : Loc} {fault : SyntaxFault} :
    F.Agree ts d (failAt loc fault : Parse α) (failAt (F.move loc) fault) Q := .error h

theorem agree_unexpected (h : F.Open ts d) (what : String) :
    F.Agree ts d (unexpected what : Parse α) (unexpected what) Q := by
  refine agree_get ?_
  rw [loc_right h, kind_right h]
  exact agree_failAt h

end Composition

theorem depthAfter_atSign {t : Token} (ht : t.lexeme.kind = .atSign) :
    Cursor.depthAfter d t.lexeme = d := by
  cases hl : t.lexeme <;> simp [hl, Lexeme.kind, Cursor.depthAfter] at ht ⊢

theorem agree_advance {t : Token} (h : F.Open (t :: ts) d) (after : Int)
    (hafter : Cursor.depthAfter d t.lexeme = after) :
    F.Agree (t :: ts) d advance advance fun ts' d' => ts' = ts ∧ d' = after :=
  .ok h.inside.2 ⟨rfl, hafter⟩

theorem agree_expect (h : F.Open ts d) {k : TokenKind} (hend : k ≠ .endOfFile) (what : String) :
    F.Agree ts d (expect k what) (expect k what) fun ts' d' =>
      ∃ t, ts = t :: ts' ∧ t.lexeme.kind = k ∧ d' = Cursor.depthAfter d t.lexeme := by
  refine agree_get ?_
  rw [kind_right h]
  by_cases hk : (F.left ts d).kind = k
  · obtain ⟨t, rest, rfl, ht⟩ := exists_of_kind h hk hend
    rw [if_pos hk]
    refine (agree_advance h _ rfl).imp ?_
    rintro ts' d' ⟨rfl, rfl⟩
    exact ⟨t, rfl, ht, rfl⟩
  · rw [if_neg hk]
    exact agree_unexpected h what

theorem agree_expect_lparen (h : F.Open ts d) (what : String) :
    F.Agree ts d (expect .lparen what) (expect .lparen what) fun ts' d' =>
      d' = d + 1 ∧ ts'.length < ts.length := by
  refine (agree_expect h (by decide) what).imp ?_
  rintro ts' d' ⟨⟨lexeme, loc⟩, rfl, ht, rfl⟩
  cases lexeme <;> simp [Lexeme.kind, Cursor.depthAfter] at ht ⊢

theorem agree_expect_rparen (h : F.Open ts d) (what : String) :
    F.Agree ts d (expect .rparen what) (expect .rparen what) fun ts' d' =>
      d' = d - 1 ∧ ts'.length < ts.length := by
  refine (agree_expect h (by decide) what).imp ?_
  rintro ts' d' ⟨⟨lexeme, loc⟩, rfl, ht, rfl⟩
  cases lexeme <;> simp [Lexeme.kind, Cursor.depthAfter] at ht ⊢

theorem agree_symbol (h : F.Open ts d) (what : String) :
    F.Agree ts d (symbol what) (symbol what) fun ts' d' =>
      d' = d ∧ ts'.length < ts.length := by
  refine agree_get ?_
  rw [lexeme?_right h, loc_right h]
  cases hx : (F.left ts d).lexeme? with
  | none => exact agree_unexpected h what
  | some x =>
    cases x with
    | symbol name =>
      obtain ⟨t, rest, rfl, ht⟩ := exists_of_lexeme? h hx
      refine (agree_advance h d (by rw [ht]; rfl)).bind ?_
      rintro _ ts' _ inside ⟨rfl, rfl⟩
      exact agree_pure inside rfl ⟨rfl, by simp⟩
    | _ => exact agree_unexpected h what

section Repetition

variable {α : Type} [Relocatable α] {more : Cursor → Bool}

theorem agree_manyWithin {item item' : Parse α}
    (hmore : ∀ {ts}, F.Open ts d → more (F.right ts d) = more (F.left ts d))
    (hend : ∀ c : Cursor, c.tokens = [] → more c = false) (hd : 0 < d)
    (hitem : ∀ us, us.length ≤ ts.length → Inside F.level d us → more (F.left us d) = true →
      F.Agree us d item item' fun us' d' => d' = d ∧ us'.length < us.length)
    (inside : Inside F.level d ts) (fuel fuel' : Nat) (hf : ts.length ≤ fuel)
    (hf' : ts.length ≤ fuel') :
    F.Agree ts d (manyWithin more item fuel) (manyWithin more item' fuel')
      fun ts' d' => d' = d ∧ ts'.length ≤ ts.length := by
  induction fuel generalizing fuel' ts with
  | zero =>
    have hts : ts = [] := List.length_eq_zero_iff.mp (by omega)
    subst hts
    have h : F.Open [] d := ⟨hd, inside⟩
    cases fuel' with
    | zero => exact agree_pure inside rfl ⟨rfl, Nat.le_refl _⟩
    | succ fuel' =>
      have hright : more (F.right [] d) = false := hend _ (by simp [right, h.last])
      have hrun : (manyWithin more item' (fuel' + 1)).run (F.right [] d) =
          .ok [] (F.right [] d) := by
        change (if more (F.right [] d) then _ else pure [] : Parse (List α)).run _ = _
        rw [hright]
        rfl
      unfold Agree
      rw [hrun]
      exact .ok inside ⟨rfl, Nat.le_refl _⟩
  | succ fuel ih =>
    have h : F.Open ts d := ⟨hd, inside⟩
    cases fuel' with
    | zero =>
      have hts : ts = [] := List.length_eq_zero_iff.mp (by omega)
      subst hts
      have hleft : more (F.left [] d) = false := hend _ (by simp [left, h.last])
      have hrun : (manyWithin more item (fuel + 1)).run (F.left [] d) = .ok [] (F.left [] d) := by
        change (if more (F.left [] d) then _ else pure [] : Parse (List α)).run _ = _
        rw [hleft]
        rfl
      unfold Agree
      rw [hrun]
      exact .ok inside ⟨rfl, Nat.le_refl _⟩
    | succ fuel' =>
      refine agree_get ?_
      rw [hmore h]
      cases hm : more (F.left ts d) with
      | false => exact agree_pure inside rfl ⟨rfl, Nat.le_refl _⟩
      | true =>
        refine (hitem ts (Nat.le_refl _) inside hm).bind ?_
        rintro a us _ hus ⟨rfl, hlt⟩
        have hrest := ih (fun vs hvs => hitem vs (by omega)) hus fuel' (by omega) (by omega)
        refine hrest.bind ?_
        rintro as vs _ hvs ⟨rfl, hle⟩
        exact agree_pure hvs rfl ⟨rfl, by omega⟩

theorem agree_many (item item' : Parse α)
    (hmore : ∀ {ts}, F.Open ts d → more (F.right ts d) = more (F.left ts d))
    (hend : ∀ c : Cursor, c.tokens = [] → more c = false) (h : F.Open ts d)
    (hitem : ∀ us, us.length ≤ ts.length → Inside F.level d us → more (F.left us d) = true →
      F.Agree us d item item' fun us' d' => d' = d ∧ us'.length < us.length) :
    F.Agree ts d (many more item) (many more item')
      fun ts' d' => d' = d ∧ ts'.length ≤ ts.length := by
  refine agree_get ?_
  exact agree_manyWithin hmore hend h.pos hitem h.inside _ _ (by simp [left]) (by simp [right])

end Repetition

end Frame

end TermRules

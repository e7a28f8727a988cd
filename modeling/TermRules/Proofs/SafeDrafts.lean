import TermRules.Proofs.GuardedSteps
import TermRules.Proofs.WellFormed

/-!
# Safe drafts

A draft is safe if the values of its variables are legible and each statement is
legible where it stands. A guarded step that finds all it reads does the same as
the step it guards and leaves a safe draft behind.
-/

namespace TermRules

namespace Zig

namespace Draft

/-- The values of variables are legible, and so is each statement where it stands. -/
structure Safe (rs : RuleSet) (arity : Nat) (d : Draft) : Prop where
  vars : ∀ p ∈ d.vars, p.2.Legible rs arity d.locals
  declared : d.body.filterMap Statement.declared? = d.locals
  body : LegibleFrom rs arity [] d.body

def Shows (d : Draft) (g : Visible) : Prop := ∀ p ∈ g, p.2 ∈ d.vars.map Prod.fst

variable {rs : RuleSet} {arity : Nat} {d d' : Draft}

theorem Safe.mark (h : d.Safe rs arity) (v : Value) : (d.mark v).Safe rs arity where
  vars p hp := by
    rw [mark_vars] at hp
    rw [mark_locals]
    exact h.vars p hp
  declared := by
    rw [mark_body, mark_locals]
    exact h.declared
  body := by
    rw [mark_body]
    exact h.body

theorem Safe.emit (h : d.Safe rs arity) {t : Statement} (ht : t.Legible rs arity d.locals)
    (hdeclared : t.declared? = none) : (d.emit t).Safe rs arity where
  vars := h.vars
  declared := by
    rw [emit_body, List.filterMap_append, h.declared]
    simp [hdeclared]
  body := by
    rw [emit_body, legibleFrom_append, h.declared]
    exact ⟨h.body, ht, trivial⟩

theorem Safe.keep (h : d.Safe rs arity) {type : Option TypeId} {v : Value} (orBreak : Bool)
    (htype : ∀ id ∈ type, ∃ info, rs.types.get? id = some info)
    (hv : v.Legible rs arity d.locals) : (d.keep type v orBreak).Safe rs arity where
  vars p hp := (h.vars p hp).mono (List.subset_append_left _ _)
  declared := by
    rw [keep_body, List.filterMap_append, h.declared]
    rfl
  body := by
    rw [keep_body, legibleFrom_append, h.declared]
    exact ⟨h.body, ⟨htype, hv⟩, trivial⟩

theorem Safe.setVar (h : d.Safe rs arity) (var : VarId) {v : Value}
    (hv : v.Legible rs arity d.locals) : (d.setVar var v).Safe rs arity where
  vars p hp := by
    rw [setVar_vars, List.mem_cons] at hp
    rcases hp with rfl | hp
    · exact hv
    · exact h.vars p hp
  declared := h.declared
  body := h.body

theorem Safe.markContext (h : d.Safe rs arity) : d.markContext.Safe rs arity :=
  ⟨h.vars, h.declared, h.body⟩

theorem Shows.mark {g : Visible} (h : d.Shows g) (v : Value) : (d.mark v).Shows g := by
  intro p hp
  rw [mark_vars]
  exact h p hp

theorem Shows.mem {g : Visible} (h : d.Shows g) {vars : Array VarInfo} {v : VarId}
    (hv : g.Denotes vars v) : v ∈ d.vars.map Prod.fst := by
  obtain ⟨l, r, hg, -⟩ := List.lookup_eq_some_iff.mp hv
  refine h (Visible.nameOf vars v, v) ?_
  rw [hg]
  simp

theorem safe_restart (d : Draft) : d.restart.Safe rs arity where
  vars p hp := by cases hp
  declared := rfl
  body := trivial

end Draft

namespace Visible

theorem mem_of_mem_bind {vars : Array VarInfo} {g : Visible} {vs : List VarId}
    {p : Bytes × VarId} (h : p ∈ g.bind vars vs) : p ∈ g ∨ p.2 ∈ vs := by
  induction vs generalizing g with
  | nil => exact .inl h
  | cons v vs ih =>
    rcases ih h with h | h
    · rcases List.mem_cons.mp h with rfl | h
      · exact .inr List.mem_cons_self
      · exact .inl h
    · exact .inr (List.mem_cons_of_mem v h)

end Visible

theorem Lower.Effect.shows {α : Type} {x : Lower α} {vs ws : List VarId} (h : Effect vs x)
    {d : Draft} {g : Visible} (hg : d.Shows g) (vars : Array VarInfo) (hsub : ws ⊆ vs) :
    (x.run d).2.Shows (g.bind vars ws) := by
  obtain ⟨new, hvars, hkeys⟩ := h.sets d
  intro p hp
  rw [hvars, List.map_append, hkeys, List.mem_append, List.mem_reverse]
  rcases Visible.mem_of_mem_bind hp with hp | hp
  · exact .inr (hg p hp)
  · exact .inl (hsub hp)

namespace Guarded

/-- The guarded lowering finds all it reads, does the same, and leaves a safe draft behind. -/
structure Follows {α : Type} (rs : RuleSet) (arity : Nat) (d : Draft) (x? : Guarded α)
    (x : Lower α) : Prop where
  run : x?.run d = some (x.run d)
  safe : (x.run d).2.Safe rs arity
  later : d.locals ⊆ (x.run d).2.locals

def Gives (rs : RuleSet) (arity : Nat) (d : Draft) (x? : Guarded Value) (x : Lower Value) : Prop :=
  Follows rs arity d x? x ∧ (x.run d).1.Legible rs arity (x.run d).2.locals

section Steps

variable {α β : Type} {rs : RuleSet} {arity slots : Nat} {d : Draft}

theorem run_bind_of_eq {x? : Guarded α} {r : α × Draft} (h : x?.run d = some r)
    (f? : α → Guarded β) : (x? >>= f?).run d = (f? r.1).run r.2 := by
  have hrun : (x? >>= f?).run d = (x?.run d).bind fun r => (f? r.1).run r.2 := rfl
  rw [hrun, h, Option.bind_some]

theorem Follows.bind {x? : Guarded α} {x : Lower α} {f? : α → Guarded β} {f : α → Lower β}
    (hx : Follows rs arity d x? x)
    (hf : Follows rs arity (x.run d).2 (f? (x.run d).1) (f (x.run d).1)) :
    Follows rs arity d (x? >>= f?) (x >>= f) where
  run := by
    rw [run_bind_of_eq hx.run]
    exact hf.run
  safe := hf.safe
  later := List.Subset.trans hx.later hf.later

theorem Follows.found {a? : Option α} {a : α} {f? : α → Guarded β} {x : Lower β}
    (ha : a? = some a) (h : Follows rs arity d (f? a) x) :
    Follows rs arity d (found a? >>= f?) x := by
  subst ha
  exact ⟨h.run, h.safe, h.later⟩

theorem Follows.ensure {p : Prop} [Decidable p] {f? : Unit → Guarded β} {x : Lower β} (hp : p)
    (h : Follows rs arity d (f? ()) x) : Follows rs arity d (ensure p >>= f?) x :=
  .found (if_pos hp) h

theorem follows_pure (h : d.Safe rs arity) (a : α) : Follows rs arity d (pure a) (pure a) :=
  ⟨rfl, h, List.Subset.refl _⟩

theorem follows_lift {x : Lower α} (h : (x.run d).2.Safe rs arity)
    (hl : d.locals ⊆ (x.run d).2.locals) : Follows rs arity d (lift x) x := ⟨rfl, h, hl⟩

theorem follows_emit (h : d.Safe rs arity) {t : Statement} (ht : t.Legible rs arity d.locals)
    (hdeclared : t.declared? = none) : Follows rs arity d (lift (Lower.emit t)) (Lower.emit t) :=
  follows_lift (h.emit ht hdeclared) (List.Subset.refl _)

theorem follows_newLocal (h : d.Safe rs arity) (type : Option TypeId) {v : Value} (orBreak : Bool)
    (htype : ∀ id ∈ type, ∃ info, rs.types.get? id = some info)
    (hv : v.Legible rs arity d.locals) :
    Follows rs arity d (lift (Lower.newLocal type v orBreak)) (Lower.newLocal type v orBreak) :=
  follows_lift (h.keep orBreak htype hv) (List.subset_append_left _ _)

theorem follows_useContext (h : d.Safe rs arity) :
    Follows rs arity d (lift Lower.useContext) Lower.useContext :=
  follows_lift h.markContext (List.Subset.refl _)

theorem follows_use (h : d.Safe rs arity) {v : Value} (hv : v.Legible rs arity d.locals) :
    Follows rs arity d (use arity v) (Lower.use v) := by
  have hlift : Follows rs arity d (lift (Lower.use v)) (Lower.use v) := by
    refine follows_lift ?_ ?_ <;> rw [Lower.run_use]
    · exact h.mark v
    · rw [Draft.mark_locals]
      exact List.Subset.refl _
  unfold use
  cases hroot : v.root? with
  | none => exact ⟨hlift.run, hlift.safe, hlift.later⟩
  | some root =>
    cases root with
    | param i => exact .ensure (hv.lt_arity hroot) hlift
    | temp i =>
      have hi : i ∈ d.locals := by
        refine hv.mem_locals ?_
        rw [Value.names_of_root hroot]
        exact List.mem_singleton_self _
      have hensure : Follows rs arity d (ensure (i ∈ d.locals) >>= fun _ => lift (Lower.use v))
          (Lower.use v) := .ensure hi hlift
      exact ⟨hensure.run, hensure.safe, hensure.later⟩

theorem Follows.use {v : Value} {f? : Value → Guarded β} {f : Value → Lower β}
    (h : d.Safe rs arity) (hv : v.Legible rs arity d.locals)
    (hf : Follows rs arity (d.mark v) (f? v) (f v)) :
    Follows rs arity d (Guarded.use arity v >>= f?) (Lower.use v >>= f) := by
  refine (follows_use h hv).bind ?_
  rw [Lower.run_use]
  exact hf

theorem follows_setVar (h : d.Safe rs arity) {var : VarId} (hvar : var < slots) {v : Value}
    (hv : v.Legible rs arity d.locals) :
    Follows rs arity d (setVar slots var v) (Lower.setVar var v) :=
  .ensure hvar (follows_lift (h.setVar var hv) (List.Subset.refl _))

theorem gives_getVar (h : d.Safe rs arity) {var : VarId} (hvar : var < slots)
    (hset : var ∈ d.vars.map Prod.fst) :
    Gives rs arity d (getVar slots var) (Lower.getVar var) := by
  obtain ⟨v, hv⟩ : ∃ v, d.vars.lookup var = some v := by
    refine Option.ne_none_iff_exists'.mp fun hnone => ?_
    obtain ⟨p, hp, rfl⟩ := List.mem_map.mp hset
    have hne := List.lookup_eq_none_iff.mp hnone p hp
    simp at hne
  obtain ⟨l, r, hvars, -⟩ := List.lookup_eq_some_iff.mp hv
  have hmem : (var, v) ∈ d.vars := by
    rw [hvars]
    simp
  have hget : d.getVar var = v := by rw [Draft.getVar, hv, Option.getD_some]
  have hfound : (found (d.vars.lookup var)).run d = some (d.getVar var, d) := by
    rw [hget, hv]
    rfl
  refine ⟨⟨?_, h, List.Subset.refl _⟩, ?_⟩
  · have hrun : (getVar slots var).run d =
        (ensure (var < slots) >>= fun _ => found (d.vars.lookup var)).run d := by
      unfold getVar ensure
      rw [if_pos hvar]
      rfl
    rw [hrun, ensure, if_pos hvar]
    exact hfound
  · rw [Lower.run_getVar, hget]
    exact h.vars _ hmem

end Steps

end Guarded

end Zig

end TermRules

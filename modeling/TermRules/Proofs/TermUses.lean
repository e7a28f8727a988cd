import Mathlib.Data.List.Perm.Subperm
import Mathlib.Logic.Relation
import TermRules.Proofs.RenumberedChecks

/-!
# Uses of terms

A pattern uses terms, and those in the arguments of others are nested in them. A
use in an instance of a template stems from the body or from an argument. An
expansion can therefore meet what the body uses and what stands in an argument
that is passed to its term, and nothing else.
-/

namespace TermRules

namespace Pattern

mutual

def uses : Pattern → List (Bytes × List Pattern)
  | .term _ name args => (name, args) :: usesAll args
  | .bind _ _ sub => sub.uses
  | .all _ parts => usesAll parts
  | .wildcard _ | .var _ _ | .int _ _ | .bool _ _ => []

def usesAll : List Pattern → List (Bytes × List Pattern)
  | [] => []
  | p :: ps => p.uses ++ usesAll ps

end

theorem usesAll_eq_flatMap (ps : List Pattern) : usesAll ps = ps.flatMap uses := by
  induction ps with
  | nil => rfl
  | cons p ps ih => rw [usesAll, ih, List.flatMap_cons]

def Mentions (p : Pattern) (name : Bytes) : Prop := ∃ args, (name, args) ∈ p.uses

def Nests (p : Pattern) (outer inner : Bytes) : Prop :=
  ∃ args, (outer, args) ∈ p.uses ∧ ∃ a ∈ args, a.Mentions inner

mutual

theorem uses_of_argument : ∀ (p : Pattern) {name : Bytes} {args : List Pattern}
    {use : Bytes × List Pattern}, (name, args) ∈ p.uses → use ∈ usesAll args → use ∈ p.uses
  | .term _ head ps, name, args, use, h, huse => by
      rw [uses, List.mem_cons] at h ⊢
      rcases h with h | h
      · cases h
        exact .inr huse
      · exact .inr (usesAll_of_argument ps h huse)
  | .bind _ _ sub, name, args, use, h, huse => by
      rw [uses] at h ⊢
      exact uses_of_argument sub h huse
  | .all _ parts, name, args, use, h, huse => by
      rw [uses] at h ⊢
      exact usesAll_of_argument parts h huse
  | .wildcard _, _, _, _, h, _ | .var _ _, _, _, _, h, _ | .int _ _, _, _, _, h, _
  | .bool _ _, _, _, _, h, _ => by
      rw [uses] at h
      cases h

theorem usesAll_of_argument : ∀ (ps : List Pattern) {name : Bytes} {args : List Pattern}
    {use : Bytes × List Pattern}, (name, args) ∈ usesAll ps → use ∈ usesAll args →
      use ∈ usesAll ps
  | [], _, _, _, h, _ => by cases h
  | p :: ps, name, args, use, h, huse => by
      rw [usesAll, List.mem_append] at h ⊢
      rcases h with h | h
      · exact .inl (uses_of_argument p h huse)
      · exact .inr (usesAll_of_argument ps h huse)

end

theorem uses_of_mem_argument {p : Pattern} {name : Bytes} {args : List Pattern}
    (h : (name, args) ∈ p.uses) {a : Pattern} (ha : a ∈ args) {use : Bytes × List Pattern}
    (huse : use ∈ a.uses) : use ∈ p.uses := by
  refine p.uses_of_argument h ?_
  rw [usesAll_eq_flatMap]
  exact List.mem_flatMap.mpr ⟨a, ha, huse⟩

section Substitution

variable {σ : Substitution}

theorem mem_of_lookup {name : Bytes} {a : Pattern} (h : σ.lookup name = some a) :
    a ∈ σ.map Prod.snd := by
  induction σ with
  | nil => cases h
  | cons x σ ih =>
    obtain ⟨key, value⟩ := x
    rw [List.lookup_cons] at h
    split at h
    · cases h
      exact List.mem_cons_self
    · exact List.mem_cons_of_mem _ (ih h)

mutual

theorem uses_subst : ∀ (p : Pattern) {name : Bytes} {args : List Pattern},
    (name, args) ∈ (p.subst σ).uses →
      (∃ before, (name, before) ∈ p.uses ∧ args = substAll σ before) ∨
        ∃ a ∈ σ.map Prod.snd, (name, args) ∈ a.uses
  | .term _ head ps, name, args, h => by
      rw [subst, uses, List.mem_cons] at h
      rcases h with h | h
      · cases h
        exact .inl ⟨ps, List.mem_cons_self, rfl⟩
      · rcases usesAll_subst ps h with ⟨before, hbefore, rfl⟩ | hvalue
        · exact .inl ⟨before, List.mem_cons_of_mem _ hbefore, rfl⟩
        · exact .inr hvalue
  | .bind _ x sub, name, args, h => by
      rw [subst] at h
      cases hx : σ.lookup x with
      | none =>
        rw [hx] at h
        exact uses_subst sub h
      | some a =>
        rw [hx] at h
        simp only [uses, usesAll, List.append_nil, List.mem_append] at h
        rcases h with h | h
        · exact .inr ⟨a, mem_of_lookup hx, h⟩
        · exact uses_subst sub h
  | .all _ parts, name, args, h => by
      rw [subst, uses] at h
      exact usesAll_subst parts h
  | .var _ x, name, args, h => by
      rw [subst] at h
      cases hx : σ.lookup x with
      | none =>
        rw [hx] at h
        cases h
      | some a =>
        rw [hx] at h
        exact .inr ⟨a, mem_of_lookup hx, h⟩
  | .wildcard _, _, _, h | .int _ _, _, _, h | .bool _ _, _, _, h => by
      rw [subst, uses] at h
      cases h

theorem usesAll_subst : ∀ (ps : List Pattern) {name : Bytes} {args : List Pattern},
    (name, args) ∈ usesAll (substAll σ ps) →
      (∃ before, (name, before) ∈ usesAll ps ∧ args = substAll σ before) ∨
        ∃ a ∈ σ.map Prod.snd, (name, args) ∈ a.uses
  | [], _, _, h => by cases h
  | p :: ps, name, args, h => by
      rw [substAll, usesAll, List.mem_append] at h
      rw [usesAll]
      rcases h with h | h
      · rcases uses_subst p h with ⟨before, hbefore, rfl⟩ | hvalue
        · exact .inl ⟨before, List.mem_append_left _ hbefore, rfl⟩
        · exact .inr hvalue
      · rcases usesAll_subst ps h with ⟨before, hbefore, rfl⟩ | hvalue
        · exact .inl ⟨before, List.mem_append_right _ hbefore, rfl⟩
        · exact .inr hvalue

end

end Substitution

end Pattern

namespace Template

variable {t : Template} {args : List Pattern}

theorem mem_of_mem_substitution {a : Pattern} (h : a ∈ (t.substitution args).map Prod.snd) :
    a ∈ args := by
  obtain ⟨⟨name, value⟩, hmem, rfl⟩ := List.mem_map.mp h
  exact (List.of_mem_zip hmem).2

theorem mentions_instantiate {name : Bytes} (h : (t.instantiate args).Mentions name) :
    t.body.Mentions name ∨ ∃ a ∈ args, a.Mentions name := by
  obtain ⟨inner, hinner⟩ := h
  rcases Pattern.uses_subst t.body hinner with ⟨before, hbefore, -⟩ | ⟨a, ha, huse⟩
  · exact .inl ⟨before, hbefore⟩
  · exact .inr ⟨a, mem_of_mem_substitution ha, inner, huse⟩

theorem nests_instantiate {outer inner : Bytes} (h : (t.instantiate args).Nests outer inner) :
    t.body.Nests outer inner ∨ (t.body.Mentions outer ∧ ∃ a ∈ args, a.Mentions inner) ∨
      ∃ a ∈ args, a.Nests outer inner := by
  obtain ⟨ps, hps, p, hp, hinner⟩ := h
  rcases Pattern.uses_subst t.body hps with ⟨before, hbefore, rfl⟩ | ⟨a, ha, huse⟩
  · rw [Pattern.substAll_eq_map, List.mem_map] at hp
    obtain ⟨q, hq, rfl⟩ := hp
    obtain ⟨innerArgs, hinner⟩ := hinner
    rcases Pattern.uses_subst q hinner with ⟨qargs, hqargs, -⟩ | ⟨a, ha, huse⟩
    · exact .inl ⟨before, hbefore, q, hq, qargs, hqargs⟩
    · exact .inr (.inl ⟨⟨before, hbefore⟩, a, mem_of_mem_substitution ha, innerArgs, huse⟩)
  · exact .inr (.inr ⟨a, mem_of_mem_substitution ha, ps, huse, p, hp, hinner⟩)

end Template

section Meeting

variable (ts : List Template) (p : Pattern)

/-- The body of a template for the first term uses the second one. -/
def Calls (caller callee : Bytes) : Prop :=
  ∃ t ∈ ts, t.term.name = caller ∧ t.body.Mentions callee

/-- The inner term stands in an argument of the outer one, in the pattern or in a body. -/
def Encloses (outer inner : Bytes) : Prop :=
  p.Nests outer inner ∨ ∃ t ∈ ts, t.body.Nests outer inner

/-- The inner term comes in an argument of the receiver, or of a term whose expansion uses the
receiver. -/
def Receives (receiver inner : Bytes) : Prop :=
  ∃ outer, Relation.ReflTransGen (Calls ts) outer receiver ∧ Encloses ts p outer inner

/-- The expansion of the first term can meet the second one, in its body or in its arguments. -/
def Meets (name met : Bytes) : Prop :=
  Calls ts name met ∨ (∃ t ∈ ts, t.term.name = name) ∧ Receives ts p name met

def MeetsItselfNowhere : Prop := ∀ name, ¬Relation.TransGen (Meets ts p) name name

end Meeting

end TermRules

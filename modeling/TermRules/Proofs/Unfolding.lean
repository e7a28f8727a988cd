import Mathlib.Logic.Relation
import TermRules.Proofs.Expansions

/-!
# Unfolding templates

A use of a template is unfolded to the instance that it stands for. Uses in the
arguments of another use wait, since the instance may drop or repeat them. The
order of unfolding does not matter for where it ends. A pattern that passes its
check can be unfolded only so often, and what is left at the end passes the same
check and can be read off its answer.
-/

namespace TermRules

open Relation

def RuleSet.template? (rs : RuleSet) (name : Bytes) : Option Template :=
  (rs.terms.find? name).bind fun id =>
    match (rs.termInfo id).extractor with
    | .template index _ => some (rs.templates[index]?.getD default)
    | _ => none

namespace Pattern

variable (rs : RuleSet)

mutual

/-- One outermost use of a template is replaced by the instance. -/
inductive Unfolds : Pattern → Pattern → Prop
  | use {loc : Loc} {name : Bytes} {args : List Pattern} {t : Template}
      (template : rs.template? name = some t) : Unfolds (.term loc name args) (t.instantiate args)
  | bind {loc : Loc} {name : Bytes} {sub sub' : Pattern} (h : Unfolds sub sub') :
      Unfolds (.bind loc name sub) (.bind loc name sub')
  | all {loc : Loc} {parts parts' : List Pattern} (h : UnfoldsIn parts parts') :
      Unfolds (.all loc parts) (.all loc parts')
  | term {loc : Loc} {name : Bytes} {args args' : List Pattern}
      (plain : rs.template? name = none) (h : UnfoldsIn args args') :
      Unfolds (.term loc name args) (.term loc name args')

inductive UnfoldsIn : List Pattern → List Pattern → Prop
  | head {p p' : Pattern} {ps : List Pattern} (h : Unfolds p p') : UnfoldsIn (p :: ps) (p' :: ps)
  | tail {p : Pattern} {ps ps' : List Pattern} (h : UnfoldsIn ps ps') :
      UnfoldsIn (p :: ps) (p :: ps')

end

def TemplateFree (p : Pattern) : Prop := ∀ use ∈ p.uses, rs.template? use.1 = none

def TemplateFreeAll (ps : List Pattern) : Prop := ∀ use ∈ usesAll ps, rs.template? use.1 = none

/-- Unfolding comes to an end, whichever use is unfolded first. -/
abbrev Settles (p : Pattern) : Prop := Acc (flip (Unfolds rs)) p

abbrev SettlesAll (ps : List Pattern) : Prop := Acc (flip (UnfoldsIn rs)) ps

variable {rs} {loc : Loc} {name : Bytes} {p q r : Pattern} {ps qs : List Pattern}

theorem templateFreeAll_cons :
    TemplateFreeAll rs (p :: ps) ↔ p.TemplateFree rs ∧ TemplateFreeAll rs ps := by
  rw [TemplateFreeAll, usesAll, List.forall_mem_append]
  rfl

theorem templateFree_term :
    TemplateFree rs (.term loc name ps) ↔ rs.template? name = none ∧ TemplateFreeAll rs ps := by
  rw [TemplateFree, uses, List.forall_mem_cons]
  rfl

mutual

theorem TemplateFree.not_unfolds : ∀ {p : Pattern}, p.TemplateFree rs → ∀ q, ¬p.Unfolds rs q
  | .term _ _ _, free, _, .use template => by
      obtain ⟨plain, -⟩ := templateFree_term.mp free
      rw [plain] at template
      cases template
  | .term _ _ _, free, _, .term _ h =>
      TemplateFreeAll.not_unfoldsIn (templateFree_term.mp free).2 _ h
  | .bind _ _ sub, free, _, .bind h =>
      have subFree : sub.TemplateFree rs := free
      subFree.not_unfolds _ h
  | .all _ _, free, _, .all h => TemplateFreeAll.not_unfoldsIn free _ h

theorem TemplateFreeAll.not_unfoldsIn :
    ∀ {ps : List Pattern}, TemplateFreeAll rs ps → ∀ qs, ¬UnfoldsIn rs ps qs
  | _ :: _, free, _, .head h => TemplateFree.not_unfolds (templateFreeAll_cons.mp free).1 _ h
  | _ :: _, free, _, .tail h => TemplateFreeAll.not_unfoldsIn (templateFreeAll_cons.mp free).2 _ h

end

theorem TemplateFree.settles (free : p.TemplateFree rs) : p.Settles rs :=
  Acc.intro p fun q h => absurd h (free.not_unfolds q)

theorem TemplateFree.eq_of_unfolds (free : p.TemplateFree rs) (h : ReflTransGen (Unfolds rs) p q) :
    q = p := by
  rcases h.cases_head with rfl | ⟨r, hr, -⟩
  · rfl
  · exact absurd hr (free.not_unfolds r)

mutual

/-- Two steps from one pattern meet again after one step more. -/
theorem Unfolds.diamond : ∀ {p q r : Pattern}, p.Unfolds rs q → p.Unfolds rs r →
    q = r ∨ ∃ t, q.Unfolds rs t ∧ r.Unfolds rs t
  | .term _ _ _, _, _, .use template, .use template' => by
      cases template.symm.trans template'
      exact .inl rfl
  | .term _ _ _, _, _, .use template, .term plain _ => by
      cases template.symm.trans plain
  | .term _ _ _, _, _, .term plain _, .use template => by
      cases template.symm.trans plain
  | .term _ _ _, _, _, .term plain h, .term _ h' => by
      obtain rfl | ⟨ts, ht, ht'⟩ := UnfoldsIn.diamond h h'
      · exact .inl rfl
      · exact .inr ⟨_, .term plain ht, .term plain ht'⟩
  | .bind _ _ _, _, _, .bind h, .bind h' => by
      obtain rfl | ⟨t, ht, ht'⟩ := Unfolds.diamond h h'
      · exact .inl rfl
      · exact .inr ⟨_, .bind ht, .bind ht'⟩
  | .all _ _, _, _, .all h, .all h' => by
      obtain rfl | ⟨ts, ht, ht'⟩ := UnfoldsIn.diamond h h'
      · exact .inl rfl
      · exact .inr ⟨_, .all ht, .all ht'⟩

theorem UnfoldsIn.diamond : ∀ {ps qs us : List Pattern}, UnfoldsIn rs ps qs →
    UnfoldsIn rs ps us → qs = us ∨ ∃ ts, UnfoldsIn rs qs ts ∧ UnfoldsIn rs us ts
  | _ :: _, _, _, .head h, .head h' => by
      obtain rfl | ⟨t, ht, ht'⟩ := Unfolds.diamond h h'
      · exact .inl rfl
      · exact .inr ⟨_, .head ht, .head ht'⟩
  | _ :: _, _, _, .head h, .tail h' => .inr ⟨_, .tail h', .head h⟩
  | _ :: _, _, _, .tail h, .head h' => .inr ⟨_, .head h', .tail h⟩
  | _ :: _, _, _, .tail h, .tail h' => by
      obtain rfl | ⟨ts, ht, ht'⟩ := UnfoldsIn.diamond h h'
      · exact .inl rfl
      · exact .inr ⟨_, .tail ht, .tail ht'⟩

end

theorem unfolded_unique (hq : ReflTransGen (Unfolds rs) p q) (qfree : q.TemplateFree rs)
    (hr : ReflTransGen (Unfolds rs) p r) (rfree : r.TemplateFree rs) : q = r := by
  have hmeet : ∀ a b c, Unfolds rs a b → Unfolds rs a c →
      ∃ d, ReflGen (Unfolds rs) b d ∧ ReflTransGen (Unfolds rs) c d := by
    intro a b c hb hc
    obtain rfl | ⟨d, hbd, hcd⟩ := hb.diamond hc
    · exact ⟨b, .refl, .refl⟩
    · exact ⟨d, .single hbd, .single hcd⟩
  obtain ⟨t, hqt, hrt⟩ := church_rosser hmeet hq hr
  rw [← qfree.eq_of_unfolds hqt, rfree.eq_of_unfolds hrt]

theorem Settles.bind (h : p.Settles rs) : Settles rs (.bind loc name p) := by
  refine h.of_fibration (Pattern.bind loc name) ?_
  intro p q hq
  cases hq with
  | bind h => exact ⟨_, h, rfl⟩

theorem SettlesAll.all (h : SettlesAll rs ps) : Settles rs (.all loc ps) := by
  refine h.of_fibration (Pattern.all loc) ?_
  intro ps q hq
  cases hq with
  | all h => exact ⟨_, h, rfl⟩

theorem SettlesAll.term (h : SettlesAll rs ps) (plain : rs.template? name = none) :
    Settles rs (.term loc name ps) := by
  refine h.of_fibration (Pattern.term loc name) ?_
  intro ps q hq
  cases hq with
  | use template => cases template.symm.trans plain
  | term _ h => exact ⟨_, h, rfl⟩

theorem Settles.use {t : Template} (template : rs.template? name = some t)
    (h : (t.instantiate ps).Settles rs) : Settles rs (.term loc name ps) := by
  refine Acc.intro _ fun q hq => ?_
  cases hq with
  | use template' =>
    cases template.symm.trans template'
    exact h
  | term plain _ => cases template.symm.trans plain

theorem settlesAll_nil : SettlesAll rs [] := Acc.intro _ fun _ h => by cases h

theorem SettlesAll.cons (hp : p.Settles rs) (hps : SettlesAll rs ps) :
    SettlesAll rs (p :: ps) := by
  induction hp generalizing ps with
  | intro p _ ihp =>
    induction hps with
    | intro ps hps ihps =>
      refine Acc.intro _ ?_
      rintro qs (h | h)
      · exact ihp _ h (Acc.intro ps hps)
      · exact ihps _ h

theorem reaches_cons (hp : ReflTransGen (Unfolds rs) p q)
    (hps : ReflTransGen (UnfoldsIn rs) ps qs) :
    ReflTransGen (UnfoldsIn rs) (p :: ps) (q :: qs) :=
  (hp.lift (· :: ps) fun _ _ h => .head h).trans (hps.lift (q :: ·) fun _ _ h => .tail h)

end Pattern

end TermRules

import TermRules.Proofs.Erasure
import TermRules.Proofs.Renumbering

/-!
# Proper checked rules

A checked rule is proper if it numbers, scopes and types all its variables and
nodes as the declarations ask for and binds no variable twice. An accepted rule
without templates gives a proper checked rule that erases to it, and none of its
guards asks for the type of an integer constant.
-/

namespace TermRules

def Loc.forget (_ : Loc) : Loc := .unknown

def Renumbering.forgetting : Renumbering := .moving Loc.forget rfl

def Rule.placeless (r : Rule) : Rule := r.relocate Loc.forget

def CheckedRule.placeless (c : CheckedRule) : CheckedRule := (c.renumber .forgetting).unplaced

mutual

theorem Expr.relocate_bare : ∀ e : Expr, e.bare.relocate Loc.forget = e.relocate Loc.forget
  | .var _ _ | .int _ _ | .bool _ _ => rfl
  | .term _ _ args => by rw [bare, relocate, relocate, relocateAll_bareAll args]
  | .letIn _ bs body => by
      rw [bare, relocate, relocate, relocateIn_bareIn bs, relocate_bare body]

theorem Expr.relocateAll_bareAll :
    ∀ es : List Expr, relocateAll Loc.forget (bareAll es) = relocateAll Loc.forget es
  | [] => rfl
  | e :: es => by rw [bareAll, relocateAll, relocateAll, relocate_bare e, relocateAll_bareAll es]

theorem Expr.relocateIn_bareIn :
    ∀ bs : List (Binding Expr), relocateIn Loc.forget (bareIn bs) = relocateIn Loc.forget bs
  | [] => rfl
  | ⟨_, _, value⟩ :: bs => by
      rw [bareIn, relocateIn, relocateIn, relocate_bare value, relocateIn_bareIn bs]
      rfl

end

/-- The value of the expression is that of an integer constant in it. -/
def Expr.EndsInInt : Expr → Prop
  | .int _ _ => True
  | .letIn _ _ body => body.EndsInInt
  | _ => False

def CheckedGuard.erase (rs : RuleSet) (vars : Array VarInfo) (g : CheckedGuard) : Guard :=
  ⟨g.pattern.erase rs vars, g.value.erase rs vars, .unknown⟩

def CheckedRule.erase (rs : RuleSet) (c : CheckedRule) : Rule where
  name := c.name.map fun name => ⟨name, .unknown⟩
  priority := c.priority
  pattern := .term .unknown (rs.termInfo c.root).name (CheckedPattern.eraseAll rs c.vars c.args)
  guards := c.guards.map (CheckedGuard.erase rs c.vars)
  result := c.result.erase rs c.vars
  loc := c.loc

structure CheckedRule.Proper (rs : RuleSet) (c : CheckedRule) : Prop where
  numbered : c.defined = List.range c.vars.size
  wellScoped : c.Scoped
  fresh : c.Fresh
  wellTyped : c.TypedAt rs TermInfo.TakesRules

/-- A proper checked rule that erases to the rule up to places. -/
structure CheckedRule.Fits (rs : RuleSet) (r : Rule) (c : CheckedRule) : Prop where
  proper : c.Proper rs
  erases : (c.erase rs).placeless = r.placeless

namespace Check

variable {rs : RuleSet} {vars : Array VarInfo}

theorem not_endsInInt : ∀ (e : Expr) {s s' : Scope} {c : CheckedExpr},
    (expr rs e none).run s = .ok c s' → ¬e.EndsInInt
  | .int _ _, _, _, _, h => by simp only [expr, run_failAt_ok] at h
  | .letIn _ _ body, _, _, _, h => by
      simp only [expr, run_bind_ok, run_get_ok, run_modify_ok, run_pure_ok] at h
      obtain ⟨_, _, -, _, _, -, _, _, hbody, -⟩ := h
      exact not_endsInInt body hbody
  | .var _ _, _, _, _, _ | .bool _ _, _, _, _, _ | .term _ _ _, _, _, _, _ => id

theorem guards_not_endsInInt (gs : List Guard) {s s' : Scope} {cs : List CheckedGuard}
    (h : (guards rs gs).run s = .ok cs s') : ∀ g ∈ gs, ¬g.value.EndsInInt := by
  induction gs generalizing s s' cs with
  | nil => exact fun _ hg => absurd hg List.not_mem_nil
  | cons g gs ih =>
    simp only [guards, run_bind_ok, run_pure_ok] at h
    obtain ⟨value, t, hvalue, pattern, u, -, rest, w, hrest, -⟩ := h
    exact List.forall_mem_cons.mpr ⟨not_endsInInt g.value hvalue, ih hrest⟩

theorem eraseAll_eq {ps : List Pattern} {cs : List CheckedPattern}
    (h : List.Forall₂ (fun p c => p.ExpandsTo rs (c.erase rs vars)) ps cs)
    (free : ∀ p ∈ ps, p.TemplateFree rs) : CheckedPattern.eraseAll rs vars cs = ps := by
  induction h with
  | nil => rfl
  | cons hp _ ih =>
    obtain ⟨pfree, free⟩ := List.forall_mem_cons.mp free
    rw [CheckedPattern.eraseAll, pfree.eq_of_unfolds hp.1, ih free]

theorem erase_guards_eq {gs : List Guard} {cs : List CheckedGuard}
    (h : List.Forall₂ (CheckedGuard.ErasesTo rs vars) gs cs)
    (free : ∀ p ∈ gs.map Guard.pattern, p.TemplateFree rs) :
    (cs.map (CheckedGuard.erase rs vars)).map (Guard.relocate Loc.forget) =
      gs.map (Guard.relocate Loc.forget) := by
  induction h with
  | nil => rfl
  | cons hg _ ih =>
    obtain ⟨gfree, free⟩ := List.forall_mem_cons.mp free
    rw [List.map_cons, List.map_cons, List.map_cons, ih free, CheckedGuard.erase, Guard.relocate,
      gfree.eq_of_unfolds hg.1.1, hg.2, Expr.relocate_bare]
    rfl

theorem placeless_erase {r : Rule} {order : Nat} {c : CheckedRule}
    (free : ∀ p ∈ r.patterns, p.TemplateFree rs) (h : rule rs r order = .ok c) :
    (c.erase rs).placeless = r.placeless := by
  obtain ⟨⟨⟨loc, name, ps, hpattern, hf, hargs⟩, hguards, hresult⟩, -⟩ := erase_rule h
  obtain ⟨info, found, hname⟩ := Table.get?_of_find? hf
  have hname : info.name = name := hname
  obtain ⟨_, _, _, _, _, _, _, _, -, -, -, -, rfl⟩ := rule_ok.mp h
  rw [Rule.patterns, hpattern, List.forall_mem_append] at free
  simp only [CheckedRule.erase, Rule.placeless, Rule.relocate, Rule.mk.injEq, hpattern,
    RuleSet.termInfo_of_get? found, hname, eraseAll_eq hargs free.1, erase_guards_eq hguards free.2,
    hresult, Expr.relocate_bare, Option.map_map, true_and, and_true]
  exact ⟨rfl, rfl⟩

theorem fits_of_rule {r : Rule} {order : Nat} {c : CheckedRule}
    (free : ∀ p ∈ r.patterns, p.TemplateFree rs) (h : rule rs r order = .ok c) :
    c.Fits rs r ∧ ∀ g ∈ r.guards, ¬g.value.EndsInInt := by
  obtain ⟨hdefined, hscoped, htyped⟩ := rule_checked h
  refine ⟨⟨⟨hdefined, hscoped, (erase_rule h).2, htyped⟩, placeless_erase free h⟩, ?_⟩
  obtain ⟨_, _, _, _, _, _, _, _, -, -, hguards, -⟩ := rule_ok.mp h
  exact guards_not_endsInInt r.guards hguards

end Check

end TermRules

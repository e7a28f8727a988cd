import TermRules.Proofs.PatternErasure

/-!
# Erasing checked rules

A checked expression erases to the expression itself, apart from the places of
the identifiers in a `let`, which no check keeps, and a checked rule to the rule
with all templates unfolded. Checking the unfolded pattern gives the same answer.
-/

namespace TermRules

open Relation

namespace Check

variable {rs : RuleSet}

mutual

theorem erase_expr : ∀ (e : Expr) {expected : Option TypeId} {s s' : Scope} {c : CheckedExpr},
    s.Valid → (expr rs e expected).run s = .ok c s' →
      ∀ vars, s'.Within vars → c.erase rs vars = e.bare
  | .var loc name, expected, s, s', c, hs, h, vars, hw => by
      simp only [expr, run_bind_ok, run_get_ok] at h
      obtain ⟨_, _, ⟨rfl, rfl⟩, h⟩ := h
      cases hf : s.find? name with
      | some v =>
        simp only [hf, run_bind_ok, run_ensureTypeIf_ok, run_pure_ok] at h
        obtain ⟨_, _, ⟨-, rfl⟩, rfl, rfl⟩ := h
        rw [CheckedExpr.erase, hs.nameOf hf hw]
        rfl
      | none => simp only [hf, run_failAt_ok] at h
  | .bool loc value, expected, s, s', c, hs, h, vars, hw => by
      simp only [expr, run_bind_ok, run_pure_ok] at h
      obtain ⟨_, _, -, rfl, -⟩ := h
      rfl
  | .int loc value, some type, s, s', c, hs, h, vars, hw => by
      simp only [expr, run_bind_ok, run_pure_ok] at h
      obtain ⟨_, _, -, rfl, -⟩ := h
      rfl
  | .int loc value, none, s, s', c, hs, h, vars, hw => by
      simp only [expr, run_failAt_ok] at h
  | .term loc name args, expected, s, s', c, hs, h, vars, hw => by
      simp only [expr, run_bind_ok, run_findTerm_ok, run_require_ok, run_ensureTypeIf_ok,
        run_ensureCount_ok, run_pure_ok] at h
      obtain ⟨id, _, ⟨hf, rfl⟩, _, _, ⟨-, rfl⟩, _, _, ⟨-, rfl⟩, _, _, ⟨hcount, rfl⟩, cs, t, hargs,
        rfl, rfl⟩ := h
      obtain ⟨info, found, hname⟩ := Table.get?_of_find? hf
      have hargs := erase_exprs args hs hcount hargs vars hw
      rw [CheckedExpr.erase, hargs, RuleSet.termInfo_of_get? found, ← hname]
      rfl
  | .letIn loc bs body, expected, s, s', c, hs, h, vars, hw => by
      simp only [expr, run_bind_ok, run_get_ok, run_modify_ok, run_pure_ok] at h
      obtain ⟨_, _, ⟨rfl, rfl⟩, cs, t, hbs, body', u, hbody, _, _, rfl, rfl, rfl⟩ := h
      have ht := (bindings_extend bs hs hbs).valid
      have hu : u.Within vars := hw
      have hwt := (expr_extends body ht hbody).2.numbers.within.trans hu
      rw [CheckedExpr.erase, erase_bindings bs hs hbs vars hwt, erase_expr body ht hbody vars hu]
      rfl

theorem erase_exprs : ∀ (es : List Expr) {types : List TypeId} {s s' : Scope}
    {cs : List CheckedExpr}, s.Valid → es.length = types.length →
      (exprs rs es types).run s = .ok cs s' →
      ∀ vars, s'.Within vars → CheckedExpr.eraseAll rs vars cs = Expr.bareAll es
  | [], [], s, s', cs, hs, _, h, vars, hw => by
      simp only [exprs, run_pure_ok] at h
      obtain ⟨rfl, -⟩ := h
      rfl
  | e :: es, type :: types, s, s', cs, hs, hl, h, vars, hw => by
      simp only [exprs, run_bind_ok, run_pure_ok] at h
      obtain ⟨c, t, he, cs, u, hes, rfl, rfl⟩ := h
      have ht := (expr_extends e hs he).2.valid
      have hwt := (exprs_extend es ht (Nat.succ.inj hl) hes).2.numbers.within.trans hw
      rw [CheckedExpr.eraseAll, erase_expr e hs he vars hwt,
        erase_exprs es ht (Nat.succ.inj hl) hes vars hw]
      rfl

theorem erase_bindings : ∀ (bs : List (Binding Expr)) {s s' : Scope}
    {cs : List (CheckedBinding CheckedExpr)}, s.Valid → (bindings rs bs).run s = .ok cs s' →
      ∀ vars, s'.Within vars → CheckedExpr.eraseIn rs vars cs = Expr.bareIn bs
  | [], s, s', cs, hs, h, vars, hw => by
      simp only [bindings, run_pure_ok] at h
      obtain ⟨rfl, -⟩ := h
      rfl
  | ⟨name, typeName, value⟩ :: bs, s, s', cs, hs, h, vars, hw => by
      simp only [bindings] at h
      cases hf : rs.types.find? typeName.name with
      | none => simp only [hf, run_failAt_ok] at h
      | some type =>
        simp only [hf, run_bind_ok, run_bindVar_ok, run_pure_ok] at h
        obtain ⟨c, t, hvalue, _, _, ⟨rfl, rfl⟩, cs, u, hbs, rfl, rfl⟩ := h
        obtain ⟨info, found, hname⟩ := Table.get?_of_find? hf
        have hname : info.name = typeName.name := hname
        have ht := (expr_extends value hs hvalue).2.valid
        have hbind := ht.bind name.name type
        have hwbind := (bindings_extend bs hbind hbs).numbers.within.trans hw
        have hv := hwbind _ _ (t.getElem?_bind_size name.name type)
        have hwt := (t.within_bind name.name type).trans hwbind
        rw [CheckedExpr.eraseIn, Scope.nameOf_bind hwbind, erase_expr value hs hvalue vars hwt,
          erase_bindings bs hbind hbs vars hw, hv, Option.getD_some, RuleSet.typeName,
          RuleSet.typeInfo_of_get? found, hname]
        rfl

end

end Check

/-- Unfolding the first pattern ends in the second one, where no template is left. -/
def Pattern.ExpandsTo (rs : RuleSet) (p q : Pattern) : Prop :=
  ReflTransGen (Pattern.Unfolds rs) p q ∧ q.TemplateFree rs

def CheckedGuard.ErasesTo (rs : RuleSet) (vars : Array VarInfo) (g : Guard) (c : CheckedGuard) :
    Prop :=
  g.pattern.ExpandsTo rs (c.pattern.erase rs vars) ∧ c.value.erase rs vars = g.value.bare

namespace Check

variable {rs : RuleSet}

theorem Unfolded.expandsTo {s s' : Scope} {type : TypeId} {c : CheckedPattern} {p q : Pattern}
    (h : Unfolded rs s s' type c p q) (hs : s.Valid) {vars : Array VarInfo} (hw : s'.Within vars) :
    p.ExpandsTo rs (c.erase rs vars) := by
  rw [h.erased hs vars hw]
  exact ⟨h.reaches, h.free⟩

theorem erase_rootArgs : ∀ (ps : List Pattern) {types : List TypeId} {s s' : Scope}
    {cs : List CheckedPattern}, s.Valid → ps.length = types.length →
      rootArgs rs ps types s = ([], cs, s') → ∀ vars, s'.Within vars →
      List.Forall₂ (fun p c => p.ExpandsTo rs (c.erase rs vars)) ps cs ∧
        CheckedPattern.FreshAll vars cs s.visible
  | [], [], s, s', cs, hs, _, h, vars, hw => by
      cases h
      exact ⟨.nil, trivial⟩
  | p :: ps, type :: types, s, s', cs, hs, hl, h, vars, hw => by
      obtain ⟨c, t, cs', hp, hps, rfl⟩ := rootArgs_cons_ok.mp h
      obtain ⟨q, hq⟩ := exists_unfolded hp
      have ht := (hq.extends hs).2
      have hwt := (rootArgs_extend ps ht.valid (Nat.succ.inj hl) hps).2.numbers.within.trans hw
      obtain ⟨herased, hfresh⟩ := erase_rootArgs ps ht.valid (Nat.succ.inj hl) hps vars hw
      rw [ht.visible vars hwt] at hfresh
      exact ⟨.cons (hq.expandsTo hs hwt) herased, hq.fresh hs vars hwt, hfresh⟩

theorem erase_guards (gs : List Guard) {s s' : Scope} {cs : List CheckedGuard} (hs : s.Valid)
    (h : (guards rs gs).run s = .ok cs s') {vars : Array VarInfo} (hw : s'.Within vars) :
    List.Forall₂ (CheckedGuard.ErasesTo rs vars) gs cs ∧
      CheckedGuard.FreshAll vars cs s.visible := by
  induction gs generalizing s cs with
  | nil =>
    simp only [guards, run_pure_ok] at h
    obtain ⟨rfl, -⟩ := h
    exact ⟨.nil, trivial⟩
  | cons g gs ih =>
    simp only [guards, run_bind_ok, run_pure_ok] at h
    obtain ⟨value, t, hvalue, pattern, u, hpattern, rest, w, hrest, rfl, rfl⟩ := h
    obtain ⟨q, hq⟩ := exists_unfolded hpattern
    have ht := (expr_extends g.value hs hvalue).2
    have hu := (hq.extends ht.valid).2
    have hwu := (guards_extend gs hu.valid hrest).numbers.within.trans hw
    have hwt := hu.numbers.within.trans hwu
    obtain ⟨herased, hfresh⟩ := ih hu.valid hrest
    have hfreshPattern := hq.fresh ht.valid vars hwu
    rw [ht.visible vars hwt, Visible.bind_nil] at hfreshPattern
    rw [hu.visible vars hwu, ht.visible vars hwt, Visible.bind_nil] at hfresh
    exact ⟨.cons ⟨hq.expandsTo ht.valid hwu, erase_expr g.value hs hvalue vars hwt⟩ herased,
      hfreshPattern, hfresh⟩

end Check

/-- The arguments of the root and the patterns of the guards erase to their expansions, and the
expressions erase to themselves. -/
structure CheckedRule.ErasesTo (rs : RuleSet) (r : Rule) (c : CheckedRule) : Prop where
  args : ∃ loc name ps, r.pattern = .term loc name ps ∧ rs.terms.find? name = some c.root ∧
    List.Forall₂ (fun p c' => p.ExpandsTo rs (c'.erase rs c.vars)) ps c.args
  guards : List.Forall₂ (CheckedGuard.ErasesTo rs c.vars) r.guards c.guards
  result : c.result.erase rs c.vars = r.result.bare

theorem Check.erase_rule {rs : RuleSet} {r : Rule} {order : Nat} {c : CheckedRule}
    (h : rule rs r order = .ok c) : c.ErasesTo rs r ∧ c.Fresh := by
  obtain ⟨root, patterns, args, s, gs, t, result, u, hroot, hargs, hguards, hresult, rfl⟩ :=
    rule_ok.mp h
  obtain ⟨loc, name, info, hpattern, hf, found, hcount, -⟩ := ruleRoot_ok hroot
  rw [RuleSet.termInfo_of_get? found] at hargs hresult
  have hs := (rootArgs_extend patterns Scope.valid_empty hcount hargs).2
  have ht := guards_extend r.guards hs.valid hguards
  have hwu := Scope.within_refl u
  have hwt := (expr_extends r.result ht.valid hresult).2.numbers.within.trans hwu
  have hws := ht.numbers.within.trans hwt
  obtain ⟨herasedArgs, hfreshArgs⟩ :=
    erase_rootArgs patterns Scope.valid_empty hcount hargs u.vars hws
  obtain ⟨herasedGuards, hfreshGuards⟩ := erase_guards r.guards hs.valid hguards hwt
  rw [hs.visible u.vars hws] at hfreshGuards
  exact ⟨⟨⟨loc, name, patterns, hpattern, hf, herasedArgs⟩, herasedGuards,
    erase_expr r.result ht.valid hresult u.vars hwu⟩, hfreshArgs, hfreshGuards⟩

/-- Checking a pattern while it is expanded comes to the same as expanding it first: whatever use
is expanded first, the expansion of a pattern that passes comes to an end, always at the same
pattern, which passes with the same answer in the same scope and is what the answer erases to.
Every accepted rule erases to itself in this way. -/
theorem RuleSet.check_expanded (rs : RuleSet) :
    (∀ {p : Pattern} {type : TypeId} {s s' : Scope} {c : CheckedPattern},
      (Check.pattern rs p type).run s = .ok c s' →
        p.Settles rs ∧ ∃ q, (∀ q', p.ExpandsTo rs q' ↔ q' = q) ∧
          (Check.pattern rs q type).run s = .ok c s' ∧
          (s.Valid → ∀ vars, s'.Within vars → c.erase rs vars = q)) ∧
      ∀ {r : Rule} {order : Nat} {c : CheckedRule}, Check.rule rs r order = .ok c →
        c.ErasesTo rs r := by
  refine ⟨fun {p type s s' c} h => ?_, fun h => (Check.erase_rule h).1⟩
  obtain ⟨q, hq⟩ := Check.exists_unfolded h
  refine ⟨hq.settles, q, fun q' => ⟨fun h' => ?_, fun h' => ?_⟩, ?_, hq.erased⟩
  · exact Pattern.unfolded_unique h'.1 h'.2 hq.reaches hq.free
  · exact h' ▸ ⟨hq.reaches, hq.free⟩
  · rw [Check.pattern, Check.patternInside_eq]
    exact hq.checked _

/-- The use of `once` around a use of `twice`, and the rule that it stands in. -/
theorem RuleSet.check_expanded_nestedSample :
    let rs := (empty.analyze Definition.nestedSample).1
    (∃ c s', (Check.pattern rs Definition.nestedPattern 1).run .empty = .ok c s' ∧
      Definition.nestedPattern.Settles rs ∧
        ∃ q, (∀ q', Definition.nestedPattern.ExpandsTo rs q' ↔ q' = q) ∧
          (Check.pattern rs q 1).run .empty = .ok c s' ∧ c.erase rs s'.vars = q) ∧
      ∀ r ∈ Definition.nestedSample.filterMap Definition.rule?,
        ∃ c, Check.rule rs r 0 = .ok c ∧ c.ErasesTo rs r := by
  intro rs
  have hpattern : (Check.rootArgs rs [Definition.nestedPattern] [1] .empty).1.isEmpty := by
    decide +kernel
  obtain ⟨c, s', -, hrun, -, -⟩ :=
    Check.rootArgs_cons_ok.mp (Prod.ext (List.isEmpty_iff.mp hpattern) rfl)
  have hrules : (Definition.nestedSample.filterMap Definition.rule?).all
      fun r => (Check.rule rs r 0).toOption.isSome := by decide +kernel
  constructor
  · obtain ⟨hsettles, q, hq, hchecked, herased⟩ := (check_expanded rs).1 hrun
    exact ⟨c, s', hrun, hsettles, q, hq, hchecked,
      herased Scope.valid_empty s'.vars s'.within_refl⟩
  · intro r hr
    have hsome := List.all_eq_true.mp hrules r hr
    cases hrule : Check.rule rs r 0 with
    | error es => simp [hrule, Except.toOption] at hsome
    | ok c => exact ⟨c, rfl, (check_expanded rs).2 hrule⟩

end TermRules

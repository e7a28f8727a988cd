import TermRules.Proofs.RuleOrder
import TermRules.Proofs.ScopeChanges
import TermRules.Proofs.Variants

/-!
# Checking yields well-formed rules

What a successful check answers is well formed, whatever the rule set holds and
however templates are expanded on the way. Each check numbers its variables on
from those of its scope; a pattern leaves them visible and an expression hides
them again. All accepted rules of all runs are therefore well formed.
-/

namespace TermRules

namespace Check

variable {rs : RuleSet}

def PatternExtends (rs : RuleSet) (s s' : Scope) (c : CheckedPattern) (type : TypeId) : Prop :=
  c.type = type ∧ Scope.Extends s s' c.defined c.defined fun vars =>
    c.Scoped vars s.visible ∧ c.Typed rs vars

def PatternsExtend (rs : RuleSet) (s s' : Scope) (cs : List CheckedPattern) (types : List TypeId) :
    Prop :=
  cs.map CheckedPattern.type = types ∧
    Scope.Extends s s' (CheckedPattern.definedAll cs) (CheckedPattern.definedAll cs) fun vars =>
      CheckedPattern.ScopedAll vars cs s.visible ∧ CheckedPattern.TypedAll rs vars cs

theorem patternsExtend_cons {s t u : Scope} {c : CheckedPattern} {cs : List CheckedPattern}
    {type : TypeId} {types : List TypeId} (h : PatternExtends rs s t c type)
    (h' : PatternsExtend rs t u cs types) : PatternsExtend rs s u (c :: cs) (type :: types) := by
  obtain ⟨htype, hc⟩ := h
  obtain ⟨htypes, hcs⟩ := h'
  refine ⟨by rw [List.map_cons, htype, htypes], (hc.append hcs).mono ?_⟩
  rintro vars hw ⟨⟨hscoped, htyped⟩, hscopeds, htypeds⟩
  rw [hc.visible vars (hcs.numbers.within.trans hw)] at hscopeds
  exact ⟨⟨hscoped, hscopeds⟩, htyped, htypeds⟩

def Expands (rs : RuleSet)
    (expand : Loc → TermId → Pattern → TypeId → Check CheckedPattern) : Prop :=
  ∀ {loc id p type s c s'}, s.Valid → (expand loc id p type).run s = .ok c s' →
    PatternExtends rs s s' c type

mutual

theorem patternWith_extends {expand : Loc → TermId → Pattern → TypeId → Check CheckedPattern}
    (hexpand : Expands rs expand) :
    ∀ (p : Pattern) {type : TypeId} {s s' : Scope} {c : CheckedPattern}, s.Valid →
      (patternWith rs expand p type).run s = .ok c s' → PatternExtends rs s s' c type
  | .wildcard loc, type, s, s', c, hs, h => by
      simp only [patternWith, run_pure_ok] at h
      obtain ⟨rfl, rfl⟩ := h
      exact ⟨rfl, .refl hs fun _ _ => ⟨trivial, trivial⟩⟩
  | .bool loc value, type, s, s', c, hs, h => by
      simp only [patternWith, run_bind_ok, run_ensureType_ok, run_pure_ok] at h
      obtain ⟨_, _, ⟨rfl, rfl⟩, rfl, rfl⟩ := h
      exact ⟨rfl, .refl hs fun _ _ => ⟨trivial, rfl⟩⟩
  | .int loc value, type, s, s', c, hs, h => by
      simp only [patternWith, run_bind_ok, run_ensurePrimitive_ok, run_pure_ok] at h
      obtain ⟨_, _, ⟨hprimitive, rfl⟩, rfl, rfl⟩ := h
      exact ⟨rfl, .refl hs fun _ _ => ⟨trivial, hprimitive⟩⟩
  | .var loc name, type, s, s', c, hs, h => by
      simp only [patternWith, run_bind_ok, run_get_ok] at h
      obtain ⟨_, _, ⟨rfl, rfl⟩, h⟩ := h
      cases hf : s.find? name with
      | some v =>
        simp only [hf, run_bind_ok, run_ensureType_ok, run_pure_ok] at h
        obtain ⟨_, _, ⟨rfl, rfl⟩, rfl, rfl⟩ := h
        exact ⟨rfl, .refl hs fun vars hw => hs.of_find? hf hw⟩
      | none =>
        simp only [hf, run_bind_ok, run_bindVar_ok, run_pure_ok] at h
        obtain ⟨_, _, ⟨rfl, rfl⟩, rfl, rfl⟩ := h
        exact ⟨rfl, (Scope.extends_bind hs name type).mono fun vars _ hv => ⟨trivial, hv⟩⟩
  | .bind loc name sub, type, s, s', c, hs, h => by
      simp only [patternWith, run_bind_ok, run_get_ok, run_require_ok, run_bindVar_ok,
        run_pure_ok] at h
      obtain ⟨_, _, ⟨rfl, rfl⟩, _, _, ⟨-, rfl⟩, _, _, ⟨rfl, rfl⟩, sub', t, hsub, rfl, rfl⟩ := h
      have hbind := Scope.extends_bind hs name type
      obtain ⟨htype, hsub⟩ := patternWith_extends hexpand sub hbind.valid hsub
      refine ⟨rfl, (hbind.append hsub).mono ?_⟩
      rintro vars hw ⟨hv, hscoped, htyped⟩
      rw [hbind.visible vars (hsub.numbers.within.trans hw)] at hscoped
      exact ⟨hscoped, hv, htype, htyped⟩
  | .all loc parts, type, s, s', c, hs, h => by
      simp only [patternWith, run_bind_ok, run_pure_ok] at h
      obtain ⟨cs, t, hparts, rfl, rfl⟩ := h
      obtain ⟨htypes, hcs⟩ := patternsWith_extend hexpand parts hs (by rw [List.length_map]) hparts
      refine ⟨rfl, hcs.mono ?_⟩
      rintro vars - ⟨hscoped, htyped⟩
      refine ⟨hscoped, fun p hp => ?_, htyped⟩
      have hmem : p.type ∈ parts.map fun _ => type := htypes ▸ List.mem_map_of_mem hp
      obtain ⟨-, -, heq⟩ := List.mem_map.mp hmem
      exact heq.symm
  | .term loc name args, type, s, s', c, hs, h => by
      simp only [patternWith, run_bind_ok, run_findTerm_ok, run_ensureType_ok,
        run_ensureCount_ok] at h
      obtain ⟨id, _, ⟨hf, rfl⟩, _, _, ⟨hret, rfl⟩, _, _, ⟨hcount, rfl⟩, h⟩ := h
      obtain ⟨info, found, -⟩ := Table.get?_of_find? hf
      rw [RuleSet.termInfo_of_get? found] at h hret hcount
      cases he : info.extractor with
      | missing =>
        simp only [he, run_failAt_ok] at h
      | template index loc' =>
        simp only [he] at h
        exact hexpand hs h
      | variant ref =>
        simp only [he, run_bind_ok, run_pure_ok] at h
        obtain ⟨cs, t, hargs, rfl, rfl⟩ := h
        obtain ⟨htypes, hcs⟩ := patternsWith_extend hexpand args hs hcount hargs
        refine ⟨rfl, hcs.mono ?_⟩
        rintro vars - ⟨hscoped, htyped⟩
        exact ⟨hscoped, ⟨info, found, htypes.symm, hret, ref, he⟩, htyped⟩
      | external function infallible loc' =>
        simp only [he, run_bind_ok, run_pure_ok] at h
        obtain ⟨cs, t, hargs, rfl, rfl⟩ := h
        obtain ⟨htypes, hcs⟩ := patternsWith_extend hexpand args hs hcount hargs
        refine ⟨rfl, hcs.mono ?_⟩
        rintro vars - ⟨hscoped, htyped⟩
        exact ⟨hscoped, ⟨info, found, htypes.symm, hret, function, infallible, loc', he⟩, htyped⟩

theorem patternsWith_extend {expand : Loc → TermId → Pattern → TypeId → Check CheckedPattern}
    (hexpand : Expands rs expand) :
    ∀ (ps : List Pattern) {types : List TypeId} {s s' : Scope} {cs : List CheckedPattern},
      s.Valid → ps.length = types.length →
      (patternsWith rs expand ps types).run s = .ok cs s' → PatternsExtend rs s s' cs types
  | [], [], s, s', cs, hs, _, h => by
      simp only [patternsWith, run_pure_ok] at h
      obtain ⟨rfl, rfl⟩ := h
      exact ⟨rfl, .refl hs fun _ _ => ⟨trivial, trivial⟩⟩
  | p :: ps, type :: types, s, s', cs, hs, hl, h => by
      simp only [patternsWith, run_bind_ok, run_pure_ok] at h
      obtain ⟨c, t, hp, cs, u, hps, rfl, rfl⟩ := h
      have hc := patternWith_extends hexpand p hs hp
      exact patternsExtend_cons hc
        (patternsWith_extend hexpand ps hc.2.valid (Nat.succ.inj hl) hps)

end

theorem patternInside_extends (room : Nat) (expanding : List TermId) (p : Pattern) {type : TypeId}
    {s s' : Scope} {c : CheckedPattern} (hs : s.Valid)
    (h : (patternInside rs room expanding p type).run s = .ok c s') :
    PatternExtends rs s s' c type := by
  induction room generalizing expanding p type s s' c with
  | zero =>
    refine patternWith_extends ?_ p hs h
    intro loc id p type s c s' _ h
    simp only [refuseExpansion, run_failAt_ok] at h
  | succ room ih =>
    refine patternWith_extends ?_ p hs h
    intro loc id p type s c s' hs h
    dsimp only at h
    split_ifs at h
    · simp only [refuseExpansion, run_failAt_ok] at h
    · exact ih (id :: expanding) p hs h

theorem pattern_extends {p : Pattern} {type : TypeId} {s s' : Scope} {c : CheckedPattern}
    (hs : s.Valid) (h : (pattern rs p type).run s = .ok c s') : PatternExtends rs s s' c type :=
  patternInside_extends rs.terms.size [] p hs h

def ExprExtends (rs : RuleSet) (s s' : Scope) (c : CheckedExpr) (expected : Option TypeId) :
    Prop :=
  (∀ type, expected = some type → c.type = type) ∧
    Scope.Extends s s' c.defined [] fun vars => c.Scoped vars s.visible ∧ c.Typed rs vars

def ExprsExtend (rs : RuleSet) (s s' : Scope) (cs : List CheckedExpr) (types : List TypeId) :
    Prop :=
  cs.map CheckedExpr.type = types ∧
    Scope.Extends s s' (CheckedExpr.definedAll cs) [] fun vars =>
      CheckedExpr.ScopedAll vars cs s.visible ∧ CheckedExpr.TypedAll rs vars cs

def BindingsExtend (rs : RuleSet) (s s' : Scope) (cs : List (CheckedBinding CheckedExpr)) : Prop :=
  Scope.Extends s s' (CheckedExpr.definedIn cs) (cs.map CheckedBinding.var) fun vars =>
    CheckedExpr.ScopedIn vars cs s.visible ∧ CheckedExpr.TypedIn rs vars cs

theorem extends_restore {s t : Scope} {ds bs : List VarId} {P : Array VarInfo → Prop}
    (hs : s.Valid) (h : Scope.Extends s t ds bs P) :
    Scope.Extends s { t with visible := s.visible } ds [] P where
  valid name v hv := by
    obtain ⟨type, ht⟩ := hs name v hv
    exact ⟨type, h.numbers.within v _ ht⟩
  numbers := ⟨h.numbers.size_eq, h.numbers.range_eq, h.numbers.within⟩
  visible _ _ := rfl
  known := h.known

mutual

theorem expr_extends : ∀ (e : Expr) {expected : Option TypeId} {s s' : Scope} {c : CheckedExpr},
    s.Valid → (expr rs e expected).run s = .ok c s' → ExprExtends rs s s' c expected
  | .var loc name, expected, s, s', c, hs, h => by
      simp only [expr, run_bind_ok, run_get_ok] at h
      obtain ⟨_, _, ⟨rfl, rfl⟩, h⟩ := h
      cases hf : s.find? name with
      | some v =>
        simp only [hf, run_bind_ok, run_ensureTypeIf_ok, run_pure_ok] at h
        obtain ⟨_, _, ⟨htype, rfl⟩, rfl, rfl⟩ := h
        exact ⟨htype, .refl hs fun vars hw => hs.of_find? hf hw⟩
      | none =>
        simp only [hf, run_failAt_ok] at h
  | .bool loc value, expected, s, s', c, hs, h => by
      simp only [expr, run_bind_ok, run_ensureTypeIf_ok, run_pure_ok] at h
      obtain ⟨_, _, ⟨htype, rfl⟩, rfl, rfl⟩ := h
      exact ⟨htype, .refl hs fun _ _ => ⟨trivial, rfl⟩⟩
  | .int loc value, some type, s, s', c, hs, h => by
      simp only [expr, run_bind_ok, run_ensurePrimitive_ok, run_pure_ok] at h
      obtain ⟨_, _, ⟨hprimitive, rfl⟩, rfl, rfl⟩ := h
      exact ⟨fun _ ht => Option.some.inj ht, .refl hs fun _ _ => ⟨trivial, hprimitive⟩⟩
  | .int loc value, none, s, s', c, hs, h => by
      simp only [expr, run_failAt_ok] at h
  | .term loc name args, expected, s, s', c, hs, h => by
      simp only [expr, run_bind_ok, run_findTerm_ok, run_require_ok, run_ensureTypeIf_ok,
        run_ensureCount_ok, run_pure_ok] at h
      obtain ⟨id, _, ⟨hf, rfl⟩, _, _, ⟨hpresent, rfl⟩, _, _, ⟨htype, rfl⟩, _, _, ⟨hcount, rfl⟩,
        cs, t, hargs, rfl, rfl⟩ := h
      obtain ⟨info, found, -⟩ := Table.get?_of_find? hf
      rw [RuleSet.termInfo_of_get? found] at hpresent htype hcount hargs ⊢
      obtain ⟨htypes, hcs⟩ := exprs_extend args hs hcount hargs
      refine ⟨htype, hcs.mono ?_⟩
      rintro vars - ⟨hscoped, htyped⟩
      exact ⟨hscoped, ⟨info, found, htypes.symm, rfl, bne_iff_ne.mp hpresent⟩, htyped⟩
  | .letIn loc bs body, expected, s, s', c, hs, h => by
      simp only [expr, run_bind_ok, run_get_ok, run_modify_ok, run_pure_ok] at h
      obtain ⟨_, _, ⟨rfl, rfl⟩, cs, t, hbs, body', u, hbody, _, _, rfl, rfl, rfl⟩ := h
      have hcs := bindings_extend bs hs hbs
      obtain ⟨htype, hbody⟩ := expr_extends body hcs.valid hbody
      refine ⟨htype, (extends_restore hs (hcs.append hbody)).mono ?_⟩
      rintro vars hw ⟨⟨hscopeds, htypeds⟩, hscoped, htyped⟩
      -- The body is scoped in what the bindings made visible, before the scope is restored.
      rw [hcs.visible vars (hbody.numbers.within.trans hw)] at hscoped
      exact ⟨⟨hscopeds, hscoped⟩, rfl, htypeds, htyped⟩

theorem exprs_extend : ∀ (es : List Expr) {types : List TypeId} {s s' : Scope}
    {cs : List CheckedExpr}, s.Valid → es.length = types.length →
      (exprs rs es types).run s = .ok cs s' → ExprsExtend rs s s' cs types
  | [], [], s, s', cs, hs, _, h => by
      simp only [exprs, run_pure_ok] at h
      obtain ⟨rfl, rfl⟩ := h
      exact ⟨rfl, .refl hs fun _ _ => ⟨trivial, trivial⟩⟩
  | e :: es, type :: types, s, s', cs, hs, hl, h => by
      simp only [exprs, run_bind_ok, run_pure_ok] at h
      obtain ⟨c, t, he, cs, u, hes, rfl, rfl⟩ := h
      obtain ⟨htype, hc⟩ := expr_extends e hs he
      obtain ⟨htypes, hcs⟩ := exprs_extend es hc.valid (Nat.succ.inj hl) hes
      refine ⟨by rw [List.map_cons, htype type rfl, htypes], (hc.append hcs).mono ?_⟩
      rintro vars hw ⟨⟨hscoped, htyped⟩, hscopeds, htypeds⟩
      rw [hc.visible vars (hcs.numbers.within.trans hw), Visible.bind_nil] at hscopeds
      exact ⟨⟨hscoped, hscopeds⟩, htyped, htypeds⟩

theorem bindings_extend : ∀ (bs : List (Binding Expr)) {s s' : Scope}
    {cs : List (CheckedBinding CheckedExpr)}, s.Valid →
      (bindings rs bs).run s = .ok cs s' → BindingsExtend rs s s' cs
  | [], s, s', cs, hs, h => by
      simp only [bindings, run_pure_ok] at h
      obtain ⟨rfl, rfl⟩ := h
      exact .refl hs fun _ _ => ⟨trivial, trivial⟩
  | ⟨name, typeName, value⟩ :: bs, s, s', cs, hs, h => by
      simp only [bindings] at h
      cases ht : rs.types.find? typeName.name with
      | none => simp only [ht, run_failAt_ok] at h
      | some type =>
        simp only [ht, run_bind_ok, run_bindVar_ok, run_pure_ok] at h
        obtain ⟨c, t, hvalue, _, _, ⟨rfl, rfl⟩, cs, u, hbs, rfl, rfl⟩ := h
        obtain ⟨htype, hc⟩ := expr_extends value hs hvalue
        have hbind := Scope.extends_bind hc.valid name.name type
        have hcs := bindings_extend bs hbind.valid hbs
        have hall := (hc.append hbind).append hcs
        rw [List.append_assoc] at hall
        refine hall.mono ?_
        rintro vars hw ⟨⟨⟨hscoped, htyped⟩, hv⟩, hscopeds, htypeds⟩
        have hwbind := hcs.numbers.within.trans hw
        rw [hbind.visible vars hwbind, hc.visible vars (hbind.numbers.within.trans hwbind),
          Visible.bind_nil] at hscopeds
        exact ⟨⟨hscoped, hscopeds⟩, htype type rfl ▸ hv, htyped, htypeds⟩

end

theorem rootArgs_cons_ok {p : Pattern} {ps : List Pattern} {type : TypeId} {types : List TypeId}
    {s s' : Scope} {cs : List CheckedPattern} :
    rootArgs rs (p :: ps) (type :: types) s = ([], cs, s') ↔
      ∃ c t cs', (pattern rs p type).run s = .ok c t ∧ rootArgs rs ps types t = ([], cs', s') ∧
        c :: cs' = cs := by
  simp only [rootArgs]
  cases (pattern rs p type).run s with
  | ok c t =>
    dsimp only
    rcases hrest : rootArgs rs ps types t with ⟨errors, cs', final⟩
    constructor
    · intro h
      cases h
      exact ⟨c, t, cs', rfl, hrest, rfl⟩
    · rintro ⟨_, _, cs'', hc, hrest', rfl⟩
      cases hc
      cases hrest.symm.trans hrest'
      rfl
  | error e t => simp

theorem rootArgs_extend : ∀ (ps : List Pattern) {types : List TypeId} {s s' : Scope}
    {cs : List CheckedPattern}, s.Valid → ps.length = types.length →
      rootArgs rs ps types s = ([], cs, s') → PatternsExtend rs s s' cs types
  | [], [], s, s', cs, hs, _, h => by
      cases h
      exact ⟨rfl, .refl hs fun _ _ => ⟨trivial, trivial⟩⟩
  | p :: ps, type :: types, s, s', cs, hs, hl, h => by
      obtain ⟨c, t, cs', hp, hps, rfl⟩ := rootArgs_cons_ok.mp h
      have hc := pattern_extends hs hp
      exact patternsExtend_cons hc (rootArgs_extend ps hc.2.valid (Nat.succ.inj hl) hps)

theorem guards_extend (gs : List Guard) {s s' : Scope} {cs : List CheckedGuard} (hs : s.Valid)
    (h : (guards rs gs).run s = .ok cs s') :
    Scope.Extends s s' (cs.flatMap CheckedGuard.defined) (CheckedGuard.boundAll cs) fun vars =>
      CheckedGuard.ScopedAll vars cs s.visible ∧ ∀ c ∈ cs, c.Typed rs vars := by
  induction gs generalizing s cs with
  | nil =>
    simp only [guards, run_pure_ok] at h
    obtain ⟨rfl, rfl⟩ := h
    exact .refl hs fun _ _ => ⟨trivial, by simp⟩
  | cons g gs ih =>
    simp only [guards, run_bind_ok, run_pure_ok] at h
    obtain ⟨value, t, hvalue, pattern, u, hpattern, rest, w, hrest, rfl, rfl⟩ := h
    obtain ⟨-, hvalue⟩ := expr_extends g.value hs hvalue
    obtain ⟨htype, hpattern⟩ := pattern_extends hvalue.valid hpattern
    have hrest := ih hpattern.valid hrest
    refine ((hvalue.append hpattern).append hrest).mono ?_
    rintro vars hw ⟨⟨⟨hv, hvt⟩, hp, hpt⟩, hr, hrt⟩
    have hwpattern := hrest.numbers.within.trans hw
    have hvisible := hvalue.visible vars (hpattern.numbers.within.trans hwpattern)
    rw [hvisible, Visible.bind_nil] at hp
    rw [hpattern.visible vars hwpattern, hvisible, Visible.bind_nil] at hr
    refine ⟨⟨hv, hp, hr⟩, fun c hc => ?_⟩
    rcases List.mem_cons.mp hc with rfl | hc
    · exact ⟨hvt, hpt, htype⟩
    · exact hrt c hc

theorem ruleRoot_ok {p : Pattern} {root : TermId} {args : List Pattern}
    (h : ruleRoot rs p = .ok (root, args)) :
    ∃ loc name info, p = .term loc name args ∧ rs.terms.find? name = some root ∧
      rs.terms.get? root = some info ∧ args.length = info.args.length ∧ info.TakesRules := by
  cases p with
  | term loc name args' =>
    simp only [ruleRoot] at h
    cases hf : rs.terms.find? name with
    | none => simp only [hf, reduceCtorEq] at h
    | some id =>
      obtain ⟨info, found, -⟩ := Table.get?_of_find? hf
      simp only [hf, RuleSet.termInfo_of_get? found] at h
      split at h
      · cases h
      · cases h
      · rename_i hvariant hexternal
        split_ifs at h with hcount
        cases h
        exact ⟨loc, name, info, rfl, hf, found, hcount, hvariant, hexternal⟩
  | _ => simp only [ruleRoot, reduceCtorEq] at h

theorem run_ruleBody_ok {r : Rule} {ret : TypeId} {s s' : Scope} {gs : List CheckedGuard}
    {result : CheckedExpr} :
    (ruleBody rs r ret).run s = .ok (gs, result) s' ↔
      ∃ t, (guards rs r.guards).run s = .ok gs t ∧
        (expr rs r.result (some ret)).run t = .ok result s' := by
  simp only [ruleBody, run_bind_ok, run_pure_ok, Prod.mk.injEq]
  constructor
  · rintro ⟨_, t, hguards, _, u, hresult, ⟨rfl, rfl⟩, rfl⟩
    exact ⟨t, hguards, hresult⟩
  · rintro ⟨t, hguards, hresult⟩
    exact ⟨gs, t, hguards, result, s', hresult, ⟨rfl, rfl⟩, rfl⟩

theorem rule_ok {r : Rule} {order : Nat} {checked : CheckedRule} :
    rule rs r order = .ok checked ↔
      ∃ root patterns args s gs t result s',
        ruleRoot rs r.pattern = .ok (root, patterns) ∧
        rootArgs rs patterns (rs.termInfo root).args .empty = ([], args, s) ∧
        (guards rs r.guards).run s = .ok gs t ∧
        (expr rs r.result (some (rs.termInfo root).ret)).run t = .ok result s' ∧
        ⟨root, r.name.map Ident.name, r.priority, order, args, gs, result, s'.vars, r.loc⟩ =
          checked := by
  constructor
  · intro h
    simp only [rule] at h
    split at h
    · cases h
    · rename_i root patterns hroot
      split at h
      · cases h
      · rename_i args s hargs
        split at h
        · cases h
        · rename_i gs result s' hbody
          obtain ⟨t, hguards, hresult⟩ := run_ruleBody_ok.mp hbody
          exact ⟨root, patterns, args, s, gs, t, result, s', hroot, hargs, hguards, hresult,
            Except.ok.inj h⟩
  · rintro ⟨root, patterns, args, s, gs, t, result, s', hroot, hargs, hguards, hresult, rfl⟩
    have hbody := run_ruleBody_ok.mpr ⟨t, hguards, hresult⟩
    simp only [rule, hroot, hargs, hbody]

theorem rule_checked {r : Rule} {order : Nat} {checked : CheckedRule}
    (h : rule rs r order = .ok checked) :
    checked.defined = List.range checked.vars.size ∧ checked.Scoped ∧
      checked.TypedAt rs TermInfo.TakesRules := by
  obtain ⟨root, patterns, args, s, gs, t, result, u, hroot, hargs, hguards, hresult, rfl⟩ :=
    rule_ok.mp h
  obtain ⟨-, -, info, -, -, found, hcount, takesRules⟩ := ruleRoot_ok hroot
  rw [RuleSet.termInfo_of_get? found] at hargs hresult
  obtain ⟨htypes, hargs⟩ := rootArgs_extend patterns Scope.valid_empty hcount hargs
  have hguards := guards_extend r.guards hargs.valid hguards
  obtain ⟨htype, hresult⟩ := expr_extends r.result hguards.valid hresult
  -- The variables of the rule are those of the last scope, with the earlier ones among them.
  have hwu := Scope.within_refl u
  have hwt := hresult.numbers.within.trans hwu
  have hws := hguards.numbers.within.trans hwt
  have hall := (hargs.append hguards).append hresult
  obtain ⟨⟨⟨hs, ht⟩, hgs, hgt⟩, hrs, hrt⟩ := hall.known u.vars hwu
  rw [hargs.visible u.vars hws] at hgs
  rw [hguards.visible u.vars hwt, hargs.visible u.vars hws] at hrs
  refine ⟨?_, ⟨hs, hgs, hrs⟩, ⟨info, found, htypes.symm, (htype info.ret rfl).symm, takesRules⟩, ht,
    hgt, hrt⟩
  have hsize := hall.numbers.size_eq
  simp only [Scope.empty, List.size_toArray, List.length_nil, Nat.zero_add] at hsize
  rw [hsize, List.range_eq_range']
  exact hall.numbers.range_eq

theorem rule_wellFormed {r : Rule} {order : Nat} {checked : CheckedRule} (marked : rs.IsMarked r)
    (h : rule rs r order = .ok checked) : checked.WellFormed rs := by
  obtain ⟨root, patterns, _, _, _, _, _, _, hroot, -, -, -, rfl⟩ := rule_ok.mp h
  obtain ⟨loc, name, -, hpattern, hf, -⟩ := ruleRoot_ok hroot
  obtain ⟨hdefined, hscoped, ⟨info, found, hargs, hret, hvariant, hexternal⟩, htyped⟩ :=
    rule_checked h
  refine ⟨hdefined, hscoped, ⟨info, found, hargs, hret, ?_⟩, htyped⟩
  have hmissing := marked loc name patterns root hpattern hf
  rw [RuleSet.termInfo_of_get? found] at hmissing
  cases hc : info.constructor with
  | missing => exact absurd hc hmissing
  | internal loc => exact ⟨loc, hc⟩
  | external function loc' => exact absurd hc (hexternal function loc')
  | variant ref => exact absurd hc (hvariant ref)

end Check

namespace RuleSet

structure Sound (rs : RuleSet) : Prop where
  coherent : rs.Coherent
  wellFormed : ∀ r ∈ rs.rules, r.WellFormed rs

theorem Step.wellFormed {a b : RuleSet} (hstep : Step a b) (h : ∀ r ∈ a.rules, r.WellFormed a) :
    ∀ r ∈ b.rules, r.WellFormed b := by
  intro r hr
  have hg := hstep.grows
  -- Only one step adds a rule; the others keep what the rules there are say of types and terms.
  cases hstep with
  | rule marked accepted =>
    rcases Array.mem_push.mp hr with hr | rfl
    · exact (h r hr).mono hg
    · exact (Check.rule_wellFormed marked accepted).mono hg
  | _ => exact (h r hr).mono hg

theorem afterAll_sound (batches : List (List Definition)) : (afterAll batches).Sound where
  coherent := (afterAll_linked batches).coherent
  wellFormed :=
    afterAll_induction (by simp [empty]) (fun _ _ h hstep => hstep.wellFormed h) batches

/-- All rules that were ever accepted are well formed, whatever was analysed before, between and
after them, and whatever was refused. -/
theorem rules_wellFormed (batches : List (List Definition)) :
    ∀ r ∈ (afterAll batches).rules,
      r.defined = List.range r.vars.size ∧ r.Scoped ∧ r.Typed (afterAll batches) := by
  intro r hr
  obtain ⟨numbered, wellScoped, wellTyped⟩ := (afterAll_sound batches).wellFormed r hr
  exact ⟨numbered, wellScoped, wellTyped⟩

end RuleSet

namespace Definition

def letSample : List Definition :=
  let name (b : UInt8) : Ident := ⟨[b], .unknown⟩
  let u := name 117
  let f := name 102
  let x := name 120
  let y := name 121
  [.type ⟨u, false, false, .primitive u, .unknown⟩,
    .decl ⟨f, [u], u, true, false, .unknown⟩,
    .rule {
      name := none
      priority := 0
      pattern := .term .unknown f.name [.var .unknown x.name]
      guards := []
      result := .letIn .unknown [⟨y, u, .var .unknown x.name⟩] (.var .unknown y.name)
      loc := .unknown }]

end Definition

theorem RuleSet.rules_wellFormed_letSample :
    ∃ r, (afterAll [Definition.letSample]).rules.toList = [r] ∧
      r.defined = List.range r.vars.size ∧ r.Scoped ∧
        r.Typed (afterAll [Definition.letSample]) := by
  have hsize : (afterAll [Definition.letSample]).rules.toList.length = 1 := by decide +kernel
  obtain ⟨r, hr⟩ := List.length_eq_one_iff.mp hsize
  have hmem : r ∈ (afterAll [Definition.letSample]).rules := by
    rw [← Array.mem_toList_iff, hr]
    exact List.mem_cons_self
  exact ⟨r, hr, rules_wellFormed [Definition.letSample] r hmem⟩

end TermRules

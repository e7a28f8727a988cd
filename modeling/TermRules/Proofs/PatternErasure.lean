import TermRules.Proofs.ArgumentNodes
import TermRules.Proofs.Unfolding

/-!
# Erasing checked patterns

Erasure turns a checked pattern or expression back into syntax: variables and
terms go by their names again and types are dropped. A checked pattern erases to
the pattern with all templates unfolded.
-/

namespace TermRules

open Relation

section Erase

variable (rs : RuleSet) (vars : Array VarInfo)

mutual

/-- A variable that is bound and one that is compared look the same. -/
def CheckedPattern.erase : CheckedPattern → Pattern
  | .wildcard s => .wildcard s.loc
  | .bind s v | .equal s v => .var s.loc (Visible.nameOf vars v)
  | .bindAs s v sub => .bind s.loc (Visible.nameOf vars v) sub.erase
  | .int s value => .int s.loc value
  | .bool s value => .bool s.loc value
  | .variant s t args | .extractor s t args => .term s.loc (rs.termInfo t).name (eraseAll args)
  | .all s parts => .all s.loc (eraseAll parts)

def CheckedPattern.eraseAll : List CheckedPattern → List Pattern
  | [] => []
  | p :: ps => p.erase :: eraseAll ps

end

mutual

def CheckedExpr.erase : CheckedExpr → Expr
  | .var s v => .var s.loc (Visible.nameOf vars v)
  | .int s value => .int s.loc value
  | .bool s value => .bool s.loc value
  | .call s t args => .term s.loc (rs.termInfo t).name (eraseAll args)
  | .letIn s bs body => .letIn s.loc (eraseIn bs) body.erase

def CheckedExpr.eraseAll : List CheckedExpr → List Expr
  | [] => []
  | e :: es => e.erase :: eraseAll es

def CheckedExpr.eraseIn : List (CheckedBinding CheckedExpr) → List (Binding Expr)
  | [] => []
  | ⟨v, value⟩ :: bs =>
      ⟨⟨Visible.nameOf vars v, .unknown⟩,
        ⟨rs.typeName ((vars[v]?).getD default).type, .unknown⟩, value.erase⟩ :: eraseIn bs

end

end Erase

theorem CheckedPattern.length_eraseAll (rs : RuleSet) (vars : Array VarInfo)
    (cs : List CheckedPattern) : (eraseAll rs vars cs).length = cs.length := by
  induction cs with
  | nil => rfl
  | cons c cs ih => rw [eraseAll, List.length_cons, ih, List.length_cons]

theorem CheckedExpr.length_eraseAll (rs : RuleSet) (vars : Array VarInfo)
    (cs : List CheckedExpr) : (eraseAll rs vars cs).length = cs.length := by
  induction cs with
  | nil => rfl
  | cons c cs ih => rw [eraseAll, List.length_cons, ih, List.length_cons]

mutual

def Expr.bare : Expr → Expr
  | .var loc name => .var loc name
  | .int loc value => .int loc value
  | .bool loc value => .bool loc value
  | .term loc name args => .term loc name (bareAll args)
  | .letIn loc bs body => .letIn loc (bareIn bs) body.bare

def Expr.bareAll : List Expr → List Expr
  | [] => []
  | e :: es => e.bare :: bareAll es

def Expr.bareIn : List (Binding Expr) → List (Binding Expr)
  | [] => []
  | ⟨name, type, value⟩ :: bs =>
      ⟨⟨name.name, .unknown⟩, ⟨type.name, .unknown⟩, value.bare⟩ :: bareIn bs

end

section Fresh

variable (vars : Array VarInfo)

mutual

/-- No variable is bound where one of its name is visible. -/
def CheckedPattern.Fresh : CheckedPattern → Visible → Prop
  | .bind _ v, g => g.lookup (Visible.nameOf vars v) = none
  | .bindAs _ v sub, g => g.lookup (Visible.nameOf vars v) = none ∧ sub.Fresh (g.bind vars [v])
  | .variant _ _ args, g | .extractor _ _ args, g => FreshAll args g
  | .all _ parts, g => FreshAll parts g
  | _, _ => True

def CheckedPattern.FreshAll : List CheckedPattern → Visible → Prop
  | [], _ => True
  | p :: ps, g => p.Fresh g ∧ FreshAll ps (g.bind vars p.defined)

end

def CheckedGuard.FreshAll : List CheckedGuard → Visible → Prop
  | [], _ => True
  | g :: gs, visible =>
      g.pattern.Fresh vars visible ∧ FreshAll gs (visible.bind vars g.pattern.defined)

end Fresh

def CheckedRule.Fresh (r : CheckedRule) : Prop :=
  CheckedPattern.FreshAll r.vars r.args [] ∧
    CheckedGuard.FreshAll r.vars r.guards
      (Visible.bind r.vars [] (CheckedPattern.definedAll r.args))

theorem Visible.nameOf_of_within {s : Scope} {vars : Array VarInfo} {v : VarId} {info : VarInfo}
    (hw : s.Within vars) (hv : s.vars[v]? = some info) : nameOf vars v = info.name := by
  rw [nameOf, hw v info hv]
  rfl

theorem Scope.Valid.nameOf {s : Scope} (hs : s.Valid) {name : Bytes} {v : VarId}
    (hf : s.find? name = some v) {vars : Array VarInfo} (hw : s.Within vars) :
    Visible.nameOf vars v = name := by
  obtain ⟨type, hv⟩ := hs name v hf
  rw [Visible.nameOf_of_within hw hv]

theorem Scope.nameOf_bind {s : Scope} {name : Bytes} {type : TypeId} {vars : Array VarInfo}
    (hw : (s.bind name type).Within vars) : Visible.nameOf vars s.vars.size = name := by
  rw [Visible.nameOf_of_within hw (s.getElem?_bind_size name type)]

namespace Check

variable {rs : RuleSet}

/-- The first pattern unfolds to the second one, which has no template, passes the same check and
is what the answer of the check erases to. The answer binds fresh names only. -/
structure Unfolded (rs : RuleSet) (s s' : Scope) (type : TypeId) (c : CheckedPattern)
    (p q : Pattern) : Prop where
  settles : p.Settles rs
  reaches : ReflTransGen (Pattern.Unfolds rs) p q
  free : q.TemplateFree rs
  checked : ∀ expand, (patternWith rs expand q type).run s = .ok c s'
  erased : s.Valid → ∀ vars, s'.Within vars → c.erase rs vars = q
  fresh : s.Valid → ∀ vars, s'.Within vars → c.Fresh vars s.visible

structure UnfoldedAll (rs : RuleSet) (s s' : Scope) (types : List TypeId)
    (cs : List CheckedPattern) (ps qs : List Pattern) : Prop where
  length_eq : qs.length = types.length
  settles : Pattern.SettlesAll rs ps
  reaches : ReflTransGen (Pattern.UnfoldsIn rs) ps qs
  free : Pattern.TemplateFreeAll rs qs
  checked : ∀ expand, (patternsWith rs expand qs types).run s = .ok cs s'
  erased : s.Valid → ∀ vars, s'.Within vars → CheckedPattern.eraseAll rs vars cs = qs
  fresh : s.Valid → ∀ vars, s'.Within vars → CheckedPattern.FreshAll vars cs s.visible

section Patterns

variable {s t s' : Scope} {type : TypeId} {types : List TypeId} {c : CheckedPattern}
  {cs : List CheckedPattern} {p q : Pattern} {ps qs : List Pattern} {loc : Loc} {name : Bytes}

theorem Unfolded.extends (h : Unfolded rs s s' type c p q) (hs : s.Valid) :
    PatternExtends rs s s' c type :=
  patternWith_extends (@expands_expandInside rs 0 []) q hs (h.checked _)

theorem UnfoldedAll.extend (h : UnfoldedAll rs s s' types cs ps qs) (hs : s.Valid) :
    PatternsExtend rs s s' cs types :=
  patternsWith_extend (@expands_expandInside rs 0 []) qs hs h.length_eq (h.checked _)

theorem unfolded_self (free : p.TemplateFree rs)
    (checked : ∀ expand, (patternWith rs expand p type).run s = .ok c s')
    (erased : s.Valid → ∀ vars, s'.Within vars →
      c.erase rs vars = p ∧ c.Fresh vars s.visible) :
    Unfolded rs s s' type c p p :=
  ⟨free.settles, .refl, free, checked, fun hs vars hw => (erased hs vars hw).1,
    fun hs vars hw => (erased hs vars hw).2⟩

theorem unfoldedAll_nil (rs : RuleSet) (s : Scope) : UnfoldedAll rs s s [] [] [] [] where
  length_eq := rfl
  settles := Pattern.settlesAll_nil
  reaches := .refl
  free _ h := by cases h
  checked _ := rfl
  erased _ _ _ := rfl
  fresh _ _ _ := trivial

theorem Unfolded.cons (h : Unfolded rs s t type c p q) (h' : UnfoldedAll rs t s' types cs ps qs) :
    UnfoldedAll rs s s' (type :: types) (c :: cs) (p :: ps) (q :: qs) where
  length_eq := congrArg Nat.succ h'.length_eq
  settles := Pattern.SettlesAll.cons h.settles h'.settles
  reaches := Pattern.reaches_cons h.reaches h'.reaches
  free := Pattern.templateFreeAll_cons.mpr ⟨h.free, h'.free⟩
  checked expand := by
    simp only [patternsWith, run_bind_ok, run_pure_ok]
    exact ⟨c, t, h.checked expand, cs, s', h'.checked expand, rfl, rfl⟩
  erased hs vars hw := by
    have ht := (h.extends hs).2.valid
    have hwt := (h'.extend ht).2.numbers.within.trans hw
    rw [CheckedPattern.eraseAll, h.erased hs vars hwt, h'.erased ht vars hw]
  fresh hs vars hw := by
    have ht := (h.extends hs).2
    have hwt := (h'.extend ht.valid).2.numbers.within.trans hw
    refine ⟨h.fresh hs vars hwt, ?_⟩
    rw [← ht.visible vars hwt]
    exact h'.fresh ht.valid vars hw

theorem Unfolded.bind (free : s.find? name = none)
    (h : Unfolded rs (s.bind name type) s' type c p q) :
    Unfolded rs s s' type (.bindAs ⟨type, loc⟩ s.vars.size c) (.bind loc name p)
      (.bind loc name q) where
  settles := Pattern.Settles.bind h.settles
  reaches := h.reaches.lift _ fun _ _ h => .bind h
  free := h.free
  checked expand := by
    simp only [patternWith, run_bind_ok, run_get_ok, run_require_ok, run_bindVar_ok, run_pure_ok]
    exact ⟨s, s, ⟨rfl, rfl⟩, (), s, ⟨by rw [free]; rfl, rfl⟩, _, _, ⟨rfl, rfl⟩, c, s',
      h.checked expand, rfl, rfl⟩
  erased hs vars hw := by
    have hbind := hs.bind name type
    have hwbind := (h.extends hbind).2.numbers.within.trans hw
    rw [CheckedPattern.erase, h.erased hbind vars hw, Scope.nameOf_bind hwbind]
  fresh hs vars hw := by
    have hbind := Scope.extends_bind hs name type
    have hwbind := (h.extends hbind.valid).2.numbers.within.trans hw
    rw [CheckedPattern.Fresh, Scope.nameOf_bind hwbind, ← hbind.visible vars hwbind]
    exact ⟨free, h.fresh hbind.valid vars hw⟩

theorem UnfoldedAll.all (h : UnfoldedAll rs s s' (ps.map fun _ => type) cs ps qs) :
    Unfolded rs s s' type (.all ⟨type, loc⟩ cs) (.all loc ps) (.all loc qs) where
  settles := Pattern.SettlesAll.all h.settles
  reaches := h.reaches.lift _ fun _ _ h => .all h
  free := h.free
  checked expand := by
    have htypes : (qs.map fun _ => type) = ps.map fun _ => type := by
      rw [List.map_const', List.map_const', h.length_eq, List.length_map]
    simp only [patternWith, run_bind_ok, run_pure_ok, htypes]
    exact ⟨cs, s', h.checked expand, rfl, rfl⟩
  erased hs vars hw := by rw [CheckedPattern.erase, h.erased hs vars hw]
  fresh := h.fresh

theorem Unfolded.use {t : Template} (template : rs.template? name = some t)
    (h : Unfolded rs s s' type c (t.instantiate ps) q) :
    Unfolded rs s s' type c (.term loc name ps) q where
  settles := Pattern.Settles.use template h.settles
  reaches := .head (.use template) h.reaches
  free := h.free
  checked := h.checked
  erased := h.erased
  fresh := h.fresh

inductive IsTermNode (info : TermInfo) (id : TermId) (site : Site) (cs : List CheckedPattern) :
    CheckedPattern → Prop
  | variant {ref : VariantRef} (extractor : info.extractor = .variant ref) :
      IsTermNode info id site cs (.variant site id cs)
  | extractor {function : Bytes} {infallible : Bool} {loc : Loc}
      (extractor : info.extractor = .external function infallible loc) :
      IsTermNode info id site cs (.extractor site id cs)

theorem run_patternWith_term {expand : Loc → TermId → Pattern → TypeId → Check CheckedPattern}
    {id : TermId} {info : TermInfo} (hf : rs.terms.find? name = some id)
    (found : rs.terms.get? id = some info) (hc : IsTermNode info id ⟨info.ret, loc⟩ cs c)
    (hcount : ps.length = info.args.length)
    (h : (patternsWith rs expand ps info.args).run s = .ok cs s') :
    (patternWith rs expand (.term loc name ps) info.ret).run s = .ok c s' := by
  simp only [patternWith, run_bind_ok, run_findTerm_ok, run_ensureType_ok, run_ensureCount_ok]
  refine ⟨id, s, ⟨hf, rfl⟩, ?_⟩
  rw [RuleSet.termInfo_of_get? found]
  refine ⟨(), s, ⟨rfl, rfl⟩, (), s, ⟨hcount, rfl⟩, ?_⟩
  cases hc with
  | variant extractor =>
    simp only [extractor, run_bind_ok, run_pure_ok]
    exact ⟨cs, s', h, rfl, rfl⟩
  | extractor extractor =>
    simp only [extractor, run_bind_ok, run_pure_ok]
    exact ⟨cs, s', h, rfl, rfl⟩

theorem UnfoldedAll.term {id : TermId} {info : TermInfo} (hf : rs.terms.find? name = some id)
    (found : rs.terms.get? id = some info) (hc : IsTermNode info id ⟨info.ret, loc⟩ cs c)
    (h : UnfoldedAll rs s s' info.args cs ps qs) :
    Unfolded rs s s' info.ret c (.term loc name ps) (.term loc name qs) := by
  obtain ⟨info', found', hname⟩ := Table.get?_of_find? hf
  cases found.symm.trans found'
  have hinfo := RuleSet.termInfo_of_get? found
  have plain : rs.template? name = none := by
    rw [RuleSet.template?, hf, Option.bind_some, hinfo]
    cases hc with
    | variant extractor => rw [extractor]
    | extractor extractor => rw [extractor]
  refine ⟨Pattern.SettlesAll.term h.settles plain, h.reaches.lift _ fun _ _ h => .term plain h,
    Pattern.templateFree_term.mpr ⟨plain, h.free⟩,
    fun expand => run_patternWith_term hf found hc h.length_eq (h.checked expand),
    fun hs vars hw => ?_, fun hs vars hw => ?_⟩
  · have hargs := h.erased hs vars hw
    cases hc <;> rw [CheckedPattern.erase, hinfo, hargs, ← hname] <;> rfl
  · cases hc <;> exact h.fresh hs vars hw

mutual

theorem exists_unfolded_with
    {expand : Loc → TermId → Pattern → TypeId → Check CheckedPattern}
    (hexpand : ∀ {loc id p type s c s'}, (expand loc id p type).run s = .ok c s' →
      ∃ q, Unfolded rs s s' type c p q) :
    ∀ (p : Pattern) {type : TypeId} {s s' : Scope} {c : CheckedPattern},
      (patternWith rs expand p type).run s = .ok c s' → ∃ q, Unfolded rs s s' type c p q
  | .wildcard loc, type, s, s', c, h => by
      refine ⟨_, unfolded_self (fun _ h => by cases h) (fun _ => h) fun _ _ _ => ?_⟩
      simp only [patternWith, run_pure_ok] at h
      obtain ⟨rfl, -⟩ := h
      exact ⟨rfl, trivial⟩
  | .bool loc value, type, s, s', c, h => by
      refine ⟨_, unfolded_self (fun _ h => by cases h) (fun _ => h) fun _ _ _ => ?_⟩
      simp only [patternWith, run_bind_ok, run_pure_ok] at h
      obtain ⟨_, _, -, rfl, -⟩ := h
      exact ⟨rfl, trivial⟩
  | .int loc value, type, s, s', c, h => by
      refine ⟨_, unfolded_self (fun _ h => by cases h) (fun _ => h) fun _ _ _ => ?_⟩
      simp only [patternWith, run_bind_ok, run_pure_ok] at h
      obtain ⟨_, _, -, rfl, -⟩ := h
      exact ⟨rfl, trivial⟩
  | .var loc name, type, s, s', c, h => by
      refine ⟨_, unfolded_self (fun _ h => by cases h) (fun _ => h) fun hs vars hw => ?_⟩
      simp only [patternWith, run_bind_ok, run_get_ok] at h
      obtain ⟨_, _, ⟨rfl, rfl⟩, h⟩ := h
      cases hf : s.find? name with
      | some v =>
        simp only [hf, run_bind_ok, run_ensureType_ok, run_pure_ok] at h
        obtain ⟨_, _, ⟨-, rfl⟩, rfl, rfl⟩ := h
        exact ⟨by rw [CheckedPattern.erase, hs.nameOf hf hw], trivial⟩
      | none =>
        simp only [hf, run_bind_ok, run_bindVar_ok, run_pure_ok] at h
        obtain ⟨_, _, ⟨rfl, rfl⟩, rfl, rfl⟩ := h
        rw [CheckedPattern.erase, CheckedPattern.Fresh, Scope.nameOf_bind hw]
        exact ⟨rfl, hf⟩
  | .bind loc name sub, type, s, s', c, h => by
      simp only [patternWith, run_bind_ok, run_get_ok, run_require_ok, run_bindVar_ok,
        run_pure_ok] at h
      obtain ⟨_, _, ⟨rfl, rfl⟩, _, _, ⟨hfree, rfl⟩, _, _, ⟨rfl, rfl⟩, sub', t, hsub, rfl, rfl⟩ := h
      obtain ⟨q, hq⟩ := exists_unfolded_with hexpand sub hsub
      exact ⟨_, hq.bind (Option.isNone_iff_eq_none.mp hfree)⟩
  | .all loc parts, type, s, s', c, h => by
      simp only [patternWith, run_bind_ok, run_pure_ok] at h
      obtain ⟨cs, t, hparts, rfl, rfl⟩ := h
      obtain ⟨qs, hqs⟩ := exists_unfoldedAll_with hexpand parts (by rw [List.length_map]) hparts
      exact ⟨_, hqs.all⟩
  | .term loc name args, type, s, s', c, h => by
      simp only [patternWith, run_bind_ok, run_findTerm_ok, run_ensureType_ok,
        run_ensureCount_ok] at h
      obtain ⟨id, _, ⟨hf, rfl⟩, _, _, ⟨hret, rfl⟩, _, _, ⟨hcount, rfl⟩, h⟩ := h
      obtain ⟨info, found, -⟩ := Table.get?_of_find? hf
      have hinfo := RuleSet.termInfo_of_get? found
      rw [hinfo] at h hret hcount
      subst hret
      cases he : info.extractor with
      | missing => simp only [he, run_failAt_ok] at h
      | template index loc' =>
        simp only [he] at h
        have template : rs.template? name = some (rs.templates[index]?.getD default) := by
          rw [RuleSet.template?, hf, Option.bind_some, hinfo, he]
        obtain ⟨q, hq⟩ := hexpand h
        exact ⟨q, hq.use template⟩
      | variant ref =>
        simp only [he, run_bind_ok, run_pure_ok] at h
        obtain ⟨cs, t, hargs, rfl, rfl⟩ := h
        obtain ⟨qs, hqs⟩ := exists_unfoldedAll_with hexpand args hcount hargs
        exact ⟨_, hqs.term hf found (.variant he)⟩
      | external function infallible loc' =>
        simp only [he, run_bind_ok, run_pure_ok] at h
        obtain ⟨cs, t, hargs, rfl, rfl⟩ := h
        obtain ⟨qs, hqs⟩ := exists_unfoldedAll_with hexpand args hcount hargs
        exact ⟨_, hqs.term hf found (.extractor he)⟩

theorem exists_unfoldedAll_with
    {expand : Loc → TermId → Pattern → TypeId → Check CheckedPattern}
    (hexpand : ∀ {loc id p type s c s'}, (expand loc id p type).run s = .ok c s' →
      ∃ q, Unfolded rs s s' type c p q) :
    ∀ (ps : List Pattern) {types : List TypeId} {s s' : Scope} {cs : List CheckedPattern},
      ps.length = types.length → (patternsWith rs expand ps types).run s = .ok cs s' →
        ∃ qs, UnfoldedAll rs s s' types cs ps qs
  | [], [], s, s', cs, _, h => by
      simp only [patternsWith, run_pure_ok] at h
      obtain ⟨rfl, rfl⟩ := h
      exact ⟨[], unfoldedAll_nil rs s⟩
  | p :: ps, type :: types, s, s', cs, hl, h => by
      simp only [patternsWith, run_bind_ok, run_pure_ok] at h
      obtain ⟨c, t, hp, cs, u, hps, rfl, rfl⟩ := h
      obtain ⟨q, hq⟩ := exists_unfolded_with hexpand p hp
      obtain ⟨qs, hqs⟩ := exists_unfoldedAll_with hexpand ps (Nat.succ.inj hl) hps
      exact ⟨_, hq.cons hqs⟩

end

theorem exists_unfolded_inside (room : Nat) (expanding : List TermId)
    (h : (patternInside rs room expanding p type).run s = .ok c s') :
    ∃ q, Unfolded rs s s' type c p q := by
  induction room generalizing expanding p type s s' c with
  | zero =>
    refine exists_unfolded_with ?_ p h
    intro loc id p type s c s' h
    simp only [refuseExpansion, run_failAt_ok] at h
  | succ room ih =>
    refine exists_unfolded_with ?_ p h
    intro loc id p type s c s' h
    split_ifs at h
    · simp only [refuseExpansion, run_failAt_ok] at h
    · exact ih (id :: expanding) h

theorem exists_unfolded (h : (pattern rs p type).run s = .ok c s') :
    ∃ q, Unfolded rs s s' type c p q :=
  exists_unfolded_inside rs.terms.size [] h

end Patterns

end Check

end TermRules

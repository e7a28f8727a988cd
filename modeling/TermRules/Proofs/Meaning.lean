import TermRules.Proofs.Values
import TermRules.Proofs.WellFormed

/-!
# What rules mean

A rule applies when its argument patterns match from left to right, its guards
are evaluated and match in order, and its result has a value. A term takes the
first of its rules that applies; where none does, a partial term has no value
and a total one panics. Matching and evaluating respect types.
-/

namespace TermRules

abbrev Env (P : Type) := List (VarId × Val P)

section Meaning

variable {rs : RuleSet} {P : Type} [DecidableEq P] (I : Interpretation rs P)

mutual

/-- The variables behind a pattern that matches the value. -/
def CheckedPattern.meet : CheckedPattern → Val P → Env P → Option (Env P)
  | .wildcard _, _, env => some env
  | .bind _ v, x, env => some ((v, x) :: env)
  | .bindAs _ v sub, x, env => sub.meet x ((v, x) :: env)
  | .equal _ v, x, env => do
      let bound ← env.lookup v
      if x = bound then some env else none
  | .int _ n, x, env => if x = .prim (I.numeral n.value) then some env else none
  | .bool _ b, x, env => if x = .bool b then some env else none
  | .variant _ t args, x, env =>
      match x with
      | .variant ref fields =>
          if (rs.termInfo t).extractor = .variant ref then meetAll args fields env else none
      | _ => none
  | .extractor _ t args, x, env => do
      let found ← I.find t x
      meetAll args found env
  | .all _ parts, x, env => meetAll parts (parts.map fun _ => x) env

def CheckedPattern.meetAll : List CheckedPattern → List (Val P) → Env P → Option (Env P)
  | [], [], env => some env
  | p :: ps, x :: xs, env => do
      let env ← p.meet x env
      meetAll ps xs env
  | _, _, _ => none

end

mutual

/-- The value of an expression, if no partial call in it fails. -/
def CheckedExpr.eval : CheckedExpr → Env P → Option (Val P)
  | .var _ v, env => env.lookup v
  | .int _ n, _ => some (.prim (I.numeral n.value))
  | .bool _ b, _ => some (.bool b)
  | .call _ t args, env => do
      let xs ← evalAll args env
      match (rs.termInfo t).constructor with
      | .variant ref => some (.variant ref xs)
      | _ => I.build t xs
  | .letIn _ bs body, env => do
      let inner ← evalIn bs env
      body.eval inner

def CheckedExpr.evalAll : List CheckedExpr → Env P → Option (List (Val P))
  | [], _ => some []
  | e :: es, env => do
      let x ← e.eval env
      let xs ← evalAll es env
      return x :: xs

def CheckedExpr.evalIn : List (CheckedBinding CheckedExpr) → Env P → Option (Env P)
  | [], env => some env
  | ⟨v, value⟩ :: bs, env => do
      let x ← value.eval env
      evalIn bs ((v, x) :: env)

end

def CheckedGuard.passAll : List CheckedGuard → Env P → Option (Env P)
  | [], env => some env
  | g :: gs, env => do
      let x ← g.value.eval I env
      let env ← g.pattern.meet I x env
      passAll gs env

def CheckedRule.apply (r : CheckedRule) (args : List (Val P)) : Option (Val P) := do
  let env ← CheckedPattern.meetAll I r.args args []
  let env ← CheckedGuard.passAll I r.guards env
  r.result.eval I env

def Ending.ofOption (isPartial : Bool) : Option (Val P) → Ending P
  | some x => .value x
  | none => if isPartial then .null else .panic

def RuleSet.meaning (term : TermId) (args : List (Val P)) : Ending P :=
  .ofOption (rs.termInfo term).isPartial ((rs.rulesFor term).findSome? fun r => r.apply I args)

end Meaning

section Typing

variable {rs : RuleSet} {P : Type} {I : Interpretation rs P} {vars : Array VarInfo}

def Env.Typed (rs : RuleSet) (vars : Array VarInfo) (env : Env P) : Prop :=
  ∀ ⦃v x type⦄, env.lookup v = some x → HasVar vars v type → Val.HasType rs x type

theorem Env.Typed.cons {env : Env P} (h : Env.Typed rs vars env) {v : VarId} {x : Val P}
    {type : TypeId} (hv : HasVar vars v type) (hx : Val.HasType rs x type) :
    Env.Typed rs vars ((v, x) :: env) := by
  intro w y type' hl hw
  rw [List.lookup_cons] at hl
  split at hl
  · rename_i heq
    rw [beq_iff_eq] at heq
    subst heq
    cases hl
    rw [HasVar, hv, Option.some.injEq] at hw
    rwa [← hw]
  · exact h hl hw

theorem RuleSet.termInfo_of_applies {term : TermId} {args : List TypeId} {ret : TypeId}
    {Q : TermInfo → Prop} (h : rs.Applies term args ret Q) :
    rs.terms.get? term = some (rs.termInfo term) ∧ (rs.termInfo term).args = args ∧
      (rs.termInfo term).ret = ret ∧ Q (rs.termInfo term) := by
  obtain ⟨info, hget, hargs, hret, hq⟩ := h
  rw [RuleSet.termInfo_of_get? hget]
  exact ⟨hget, hargs, hret, hq⟩

theorem Val.haveTypes_const {x : Val P} {type : TypeId} {ps : List CheckedPattern}
    (hx : Val.HasType rs x type) (hps : ∀ p ∈ ps, p.type = type) :
    Val.HaveTypes rs (ps.map fun _ => x) (ps.map CheckedPattern.type) := by
  induction ps with
  | nil => trivial
  | cons p ps ih =>
    refine ⟨?_, ih fun q hq => hps q (List.mem_cons_of_mem p hq)⟩
    rwa [hps p List.mem_cons_self]

theorem Val.HasType.fields (hc : rs.Coherent) {t : TermId} {args : List TypeId} {type : TypeId}
    (ha : rs.Applies t args type fun info => ∃ ref, info.extractor = .variant ref)
    {ref : VariantRef} {fields : List (Val P)} (hx : Val.HasType rs (.variant ref fields) type)
    (href : (rs.termInfo t).extractor = .variant ref) : Val.HaveTypes rs fields args := by
  obtain ⟨hget, hargs, hret, -⟩ := RuleSet.termInfo_of_applies ha
  obtain ⟨-, v, hv, hterm⟩ := hc.extractors hget href
  obtain ⟨htype, w, hw, hfields⟩ := hx
  rw [← htype, hv, Option.some.injEq] at hw
  rw [← hargs, hterm, hw]
  exact hfields

theorem Constructor.isCalled_of_ne {c : Constructor} (hmissing : c ≠ .missing)
    (hvariant : ∀ ref, c ≠ .variant ref) : c.isCalled = true := by
  cases c with
  | missing => exact absurd rfl hmissing
  | variant ref => exact absurd rfl (hvariant ref)
  | _ => rfl

mutual

theorem CheckedExpr.eval_typed (hc : rs.Coherent) : ∀ (e : CheckedExpr) {x : Val P} {env : Env P},
    e.Typed rs vars → Env.Typed rs vars env → e.eval I env = some x → Val.HasType rs x e.type
  | .var _ v, x, env, he, henv, h => henv h he
  | .int _ n, x, env, he, henv, h => by
      cases h
      exact he
  | .bool _ b, x, env, he, henv, h => by
      cases h
      exact he
  | .call s t args, x, env, ⟨ha, hargs⟩, henv, h => by
      obtain ⟨xs, hxs, h⟩ := Option.bind_eq_some_iff.mp h
      obtain ⟨hget, htypes, hret, hpresent⟩ := RuleSet.termInfo_of_applies ha
      have htyped := evalAll_typed hc args hargs henv hxs
      rw [← htypes] at htyped
      rw [CheckedExpr.type, CheckedExpr.site, ← hret]
      split at h
      · rename_i ref hvariant
        cases h
        obtain ⟨htype, v, hv, hterm⟩ := hc.constructors hget hvariant
        rw [hterm] at htyped
        rw [htype]
        exact ⟨rfl, v, hv, htyped⟩
      · rename_i hvariant
        exact I.build_typed hget (Constructor.isCalled_of_ne hpresent hvariant) htyped h
  | .letIn s bs body, x, env, ⟨htype, hbs, hbody⟩, henv, h => by
      obtain ⟨inner, hinner, h⟩ := Option.bind_eq_some_iff.mp h
      have hx := body.eval_typed hc hbody (evalIn_typed hc bs hbs henv hinner) h
      rwa [htype] at hx

theorem CheckedExpr.evalAll_typed (hc : rs.Coherent) : ∀ (es : List CheckedExpr)
    {xs : List (Val P)} {env : Env P}, TypedAll rs vars es → Env.Typed rs vars env →
      evalAll I es env = some xs → Val.HaveTypes rs xs (es.map CheckedExpr.type)
  | [], xs, env, _, _, h => by
      cases h
      trivial
  | e :: es, xs, env, ⟨he, hes⟩, henv, h => by
      obtain ⟨x, hx, h⟩ := Option.bind_eq_some_iff.mp h
      obtain ⟨ys, hys, h⟩ := Option.bind_eq_some_iff.mp h
      cases h
      exact ⟨e.eval_typed hc he henv hx, evalAll_typed hc es hes henv hys⟩

theorem CheckedExpr.evalIn_typed (hc : rs.Coherent) : ∀ (bs : List (CheckedBinding CheckedExpr))
    {env env' : Env P}, TypedIn rs vars bs → Env.Typed rs vars env →
      evalIn I bs env = some env' → Env.Typed rs vars env'
  | [], env, env', _, henv, h => by
      cases h
      exact henv
  | ⟨v, value⟩ :: bs, env, env', ⟨hv, hvalue, hbs⟩, henv, h => by
      obtain ⟨x, hx, h⟩ := Option.bind_eq_some_iff.mp h
      exact evalIn_typed hc bs hbs (henv.cons hv (value.eval_typed hc hvalue henv hx)) h

end

section Matching

variable [DecidableEq P]

mutual

theorem CheckedPattern.meet_typed (hc : rs.Coherent) : ∀ (p : CheckedPattern) {x : Val P}
    {env env' : Env P}, p.Typed rs vars → Val.HasType rs x p.type → Env.Typed rs vars env →
      p.meet I x env = some env' → Env.Typed rs vars env'
  | .wildcard _, x, env, env', _, _, henv, h => by
      cases h
      exact henv
  | .bind _ v, x, env, env', hp, hx, henv, h => by
      cases h
      exact henv.cons hp hx
  | .bindAs s v sub, x, env, env', ⟨hv, htype, hsub⟩, hx, henv, h =>
      sub.meet_typed hc hsub (htype ▸ hx) (henv.cons hv hx) h
  | .equal _ v, x, env, env', _, _, henv, h => by
      obtain ⟨bound, -, h⟩ := Option.bind_eq_some_iff.mp h
      split_ifs at h
      cases h
      exact henv
  | .int _ n, x, env, env', _, _, henv, h => by
      simp only [meet] at h
      split_ifs at h
      cases h
      exact henv
  | .bool _ b, x, env, env', _, _, henv, h => by
      simp only [meet] at h
      split_ifs at h
      cases h
      exact henv
  | .variant s t args, x, env, env', ⟨ha, hargs⟩, hx, henv, h => by
      cases x with
      | variant ref fields =>
        simp only [meet] at h
        split_ifs at h with href
        exact meetAll_typed hc args hargs (hx.fields hc ha href) henv h
      | _ => simp only [meet, reduceCtorEq] at h
  | .extractor s t args, x, env, env', ⟨ha, hargs⟩, hx, henv, h => by
      obtain ⟨found, hfound, h⟩ := Option.bind_eq_some_iff.mp h
      obtain ⟨hget, htypes, hret, function, infallible, loc, he⟩ := RuleSet.termInfo_of_applies ha
      have htyped := I.find_typed hget he (hret ▸ hx) hfound
      rw [htypes] at htyped
      exact meetAll_typed hc args hargs htyped henv h
  | .all s parts, x, env, env', ⟨htypes, hparts⟩, hx, henv, h =>
      meetAll_typed hc parts hparts (Val.haveTypes_const hx htypes) henv h

theorem CheckedPattern.meetAll_typed (hc : rs.Coherent) : ∀ (ps : List CheckedPattern)
    {xs : List (Val P)} {env env' : Env P}, TypedAll rs vars ps →
      Val.HaveTypes rs xs (ps.map CheckedPattern.type) → Env.Typed rs vars env →
      meetAll I ps xs env = some env' → Env.Typed rs vars env'
  | [], [], env, env', _, _, henv, h => by
      cases h
      exact henv
  | p :: ps, x :: xs, env, env', ⟨hp, hps⟩, ⟨hx, hxs⟩, henv, h => by
      obtain ⟨mid, hmid, h⟩ := Option.bind_eq_some_iff.mp h
      exact meetAll_typed hc ps hps hxs (p.meet_typed hc hp hx henv hmid) h

end

theorem CheckedGuard.passAll_typed (hc : rs.Coherent) (gs : List CheckedGuard) {env env' : Env P}
    (hgs : ∀ g ∈ gs, g.Typed rs vars) (henv : Env.Typed rs vars env)
    (h : passAll I gs env = some env') : Env.Typed rs vars env' := by
  induction gs generalizing env with
  | nil =>
    cases h
    exact henv
  | cons g gs ih =>
    obtain ⟨x, hx, h⟩ := Option.bind_eq_some_iff.mp h
    obtain ⟨mid, hmid, h⟩ := Option.bind_eq_some_iff.mp h
    obtain ⟨hvalue, hpattern, htype⟩ := hgs g List.mem_cons_self
    have hxt := g.value.eval_typed hc hvalue henv hx
    rw [← htype] at hxt
    exact ih (fun g' hg' => hgs g' (List.mem_cons_of_mem g hg'))
      (g.pattern.meet_typed hc hpattern hxt henv hmid) h

end Matching

end Typing

section Variables

variable {rs : RuleSet} {P : Type} {I : Interpretation rs P} (vars : Array VarInfo)

theorem Visible.vars_bind (g : Visible) (vs : List VarId) :
    (g.bind vars vs).map Prod.snd = vs.reverse ++ g.map Prod.snd := by
  induction vs generalizing g with
  | nil => rfl
  | cons v vs ih =>
    rw [Visible.bind, List.foldl_cons]
    simpa [Visible.bind] using ih ((Visible.nameOf vars v, v) :: g)

def Env.Shows (env : Env P) (g : Visible) : Prop := env.map Prod.fst = g.map Prod.snd

variable {vars}

theorem Env.Shows.lookup {env : Env P} {g : Visible} (h : env.Shows g) {v : VarId}
    (hv : g.Denotes vars v) : ∃ x, env.lookup v = some x := by
  have hmem : (Visible.nameOf vars v, v) ∈ g := by
    obtain ⟨l, r, hg, -⟩ := List.lookup_eq_some_iff.mp hv
    rw [hg]
    exact List.mem_append_right l List.mem_cons_self
  have hkey : v ∈ env.map Prod.fst := by
    rw [h]
    exact List.mem_map_of_mem hmem
  obtain ⟨⟨w, x⟩, hp, rfl⟩ := List.mem_map.mp hkey
  cases hl : env.lookup w with
  | none =>
    have hne := List.lookup_eq_none_iff.mp hl (w, x) hp
    simp at hne
  | some y => exact ⟨y, rfl⟩

theorem Env.Shows.extend {env env' : Env P} {g : Visible} {vs : List VarId} (h : env.Shows g)
    (hkeys : env'.map Prod.fst = vs.reverse ++ env.map Prod.fst) :
    env'.Shows (g.bind vars vs) := by
  rw [Env.Shows, hkeys, Visible.vars_bind, h]

theorem Env.Shows.nil : Env.Shows ([] : Env P) [] := rfl

theorem Env.Shows.cons {env : Env P} {g : Visible} (h : env.Shows g) (v : VarId) (x : Val P) :
    Env.Shows ((v, x) :: env) (g.bind vars [v]) := congrArg (v :: ·) h

theorem CheckedExpr.evalIn_keys : ∀ (bs : List (CheckedBinding CheckedExpr)) {env env' : Env P},
    evalIn I bs env = some env' →
      env'.map Prod.fst = (bs.map CheckedBinding.var).reverse ++ env.map Prod.fst
  | [], env, env', h => by
      cases h
      rfl
  | ⟨v, value⟩ :: bs, env, env', h => by
      obtain ⟨x, -, h⟩ := Option.bind_eq_some_iff.mp h
      rw [evalIn_keys bs h]
      simp

section Matching

variable [DecidableEq P]

mutual

theorem CheckedPattern.meet_keys : ∀ (p : CheckedPattern) {x : Val P} {env env' : Env P},
    p.meet I x env = some env' → env'.map Prod.fst = p.defined.reverse ++ env.map Prod.fst
  | .wildcard _, x, env, env', h => by
      cases h
      rfl
  | .bind _ v, x, env, env', h => by
      cases h
      rfl
  | .bindAs _ v sub, x, env, env', h => by
      rw [sub.meet_keys h]
      simp [defined]
  | .equal _ v, x, env, env', h => by
      obtain ⟨bound, -, h⟩ := Option.bind_eq_some_iff.mp h
      split_ifs at h
      cases h
      rfl
  | .int _ n, x, env, env', h => by
      simp only [meet] at h
      split_ifs at h
      cases h
      rfl
  | .bool _ b, x, env, env', h => by
      simp only [meet] at h
      split_ifs at h
      cases h
      rfl
  | .variant _ t args, x, env, env', h => by
      cases x with
      | variant ref fields =>
        simp only [meet] at h
        split_ifs at h
        exact meetAll_keys args h
      | _ => simp only [meet, reduceCtorEq] at h
  | .extractor _ t args, x, env, env', h => by
      obtain ⟨found, -, h⟩ := Option.bind_eq_some_iff.mp h
      exact meetAll_keys args h
  | .all _ parts, x, env, env', h => meetAll_keys parts h

theorem CheckedPattern.meetAll_keys : ∀ (ps : List CheckedPattern) {xs : List (Val P)}
    {env env' : Env P}, meetAll I ps xs env = some env' →
      env'.map Prod.fst = (definedAll ps).reverse ++ env.map Prod.fst
  | [], [], env, env', h => by
      cases h
      rfl
  | p :: ps, x :: xs, env, env', h => by
      obtain ⟨mid, hmid, h⟩ := Option.bind_eq_some_iff.mp h
      rw [meetAll_keys ps h, p.meet_keys hmid]
      simp [definedAll]

end

theorem CheckedGuard.passAll_keys (gs : List CheckedGuard) {env env' : Env P}
    (h : passAll I gs env = some env') :
    env'.map Prod.fst = (boundAll gs).reverse ++ env.map Prod.fst := by
  induction gs generalizing env with
  | nil =>
    cases h
    rfl
  | cons g gs ih =>
    obtain ⟨x, -, h⟩ := Option.bind_eq_some_iff.mp h
    obtain ⟨mid, hmid, h⟩ := Option.bind_eq_some_iff.mp h
    rw [ih h, g.pattern.meet_keys hmid]
    simp [boundAll]

end Matching

end Variables

end TermRules

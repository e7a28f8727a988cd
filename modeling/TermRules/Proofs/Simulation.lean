import TermRules.Proofs.SimulatedSteps

/-!
# Lowered code does what rules mean

Lowering a pattern or an expression simulates its meaning. The statements that
it appends run through where the meaning has a result, and the draft then stands
for this result; they leave the block where it has none. The values of variables
are not computed again, so a draft knows for each variable a value that yields
what the variable means.
-/

namespace TermRules.Zig

open Lower

section Patterns

variable {rs : RuleSet} {P : Type} [DecidableEq P] {I : Interpretation rs P}
variable {d : Draft} {σ : Store P} {env : Env P}
variable {vars : Array VarInfo}

theorem simulates_equal (hc : rs.Coherent) {g : Visible} {site : Site} {var : VarId} {v : Value}
    {x : Val P} (hscoped : g.Denotes vars var) (hvar : HasVar vars var site.type)
    (hx : Val.HasType rs x site.type) (hv : v.eval I σ = some x) (ht : Tracks I d σ env)
    (hg : env.Shows g) (henv : Env.Typed rs vars env) :
    Simulates I (matchPattern rs (.equal site var) v) d σ
      ((CheckedPattern.equal site var).meet I x env) (Matches I σ) := by
  obtain ⟨y, hy⟩ := hg.lookup hscoped
  obtain ⟨w, hw, hweval⟩ := ht.vars hy
  have hbound : d.getVar var = w := by rw [Draft.getVar, hw, Option.getD_some]
  have hmeet : (CheckedPattern.equal site var).meet I x env =
      if decide (x ≠ y) then none else some env := by
    simp [CheckedPattern.meet, hy]
  rw [hmeet]
  refine .silent rfl ?_
  rw [run_getVar, hbound]
  refine simulates_use (simulates_use ?_)
  apply simulates_test ((ht.mark v).mark w)
  cases he : (rs.typeInfo site.type).shape.isEnum with
  | true => simp [Condition.eval, hv, hweval]
  | false => simp [Condition.eval, hv, hweval, differ_eq hc hx (henv hy hvar) he]

theorem simulates_int (hc : rs.Coherent) {site : Site} {n : IntLiteral} {v : Value} {x : Val P}
    (hprim : (rs.typeInfo site.type).shape.isPrimitive = true) (hx : Val.HasType rs x site.type)
    (hv : v.eval I σ = some x) (ht : Tracks I d σ env) :
    Simulates I (matchPattern rs (.int site n) v) d σ ((CheckedPattern.int site n).meet I x env)
      (Matches I σ) := by
  have hmeet : (CheckedPattern.int site n).meet I x env =
      if decide (x ≠ .prim (I.numeral n.value)) then none else some env := by
    simp [CheckedPattern.meet]
  have hn : Val.HasType rs (.prim (I.numeral n.value)) site.type := hprim
  have heval : (Value.int n).eval I σ = some (.prim (I.numeral n.value)) := rfl
  rw [hmeet]
  refine simulates_use ?_
  apply simulates_test (ht.mark v)
  simp [Condition.eval, hv, heval, differ_eq hc hx hn (isEnum_of_isPrimitive hprim)]

theorem simulates_bool (hc : rs.Coherent) {site : Site} {b : Bool} {v : Value} {x : Val P}
    (hx : Val.HasType rs x boolType) (hv : v.eval I σ = some x) (ht : Tracks I d σ env) :
    Simulates I (matchPattern rs (.bool site b) v) d σ ((CheckedPattern.bool site b).meet I x env)
      (Matches I σ) := by
  obtain ⟨a, rfl⟩ := hx.of_bool hc
  have hmeet : (CheckedPattern.bool site b).meet I (.bool a) env =
      if a != b then none else some env := by
    cases a <;> cases b <;> simp [CheckedPattern.meet]
  rw [hmeet]
  refine simulates_use ?_
  apply simulates_test (ht.mark v)
  cases b <;> simp [Condition.eval, hv]

theorem meet_variant {site : Site} {t : TermId} {args : List CheckedPattern}
    {found ref : VariantRef} {fields : List (Val P)}
    (he : (rs.termInfo t).extractor = .variant ref) (hfound : found.type = ref.type) :
    (CheckedPattern.variant site t args).meet I (.variant found fields) env =
      (if found.index != ref.index then none else some ()).bind fun _ =>
        CheckedPattern.meetAll I args fields env := by
  obtain ⟨_, i⟩ := found
  obtain ⟨_, j⟩ := ref
  cases hfound
  simp only [CheckedPattern.meet, he, Extractor.variant.injEq, VariantRef.mk.injEq, true_and]
  by_cases hij : i = j
  · simp [hij]
  · simp [hij, Ne.symm hij]

theorem simulates_tag (ht : Tracks I d σ env) {v : Value} {found ref : VariantRef}
    {fields : List (Val P)} (hv : v.eval I σ = some (.variant found fields))
    (hfound : found.type = ref.type) :
    Simulates I (emit (.breakIf (.otherTag v ref))) d σ
      (if found.index != ref.index then none else some ())
      (fun _ _ d' τ => Tracks I d' τ env ∧ τ = σ ∧ found = ref) := by
  refine simulates_breakIf ?_ fun hstay => ⟨ht.emit _, rfl, ?_⟩
  · simp [Condition.eval, hv, hfound]
  · obtain ⟨_, i⟩ := found
    obtain ⟨_, j⟩ := ref
    cases hfound
    simpa using hstay

mutual

theorem simulates_matchPattern (hc : rs.Coherent) : ∀ (p : CheckedPattern) {v : Value} {x : Val P}
    {d : Draft} {σ : Store P} {env : Env P} {g : Visible}, p.Scoped vars g → p.Typed rs vars →
      Val.HasType rs x p.type → v.eval I σ = some x → Tracks I d σ env → env.Shows g →
      Env.Typed rs vars env →
      Simulates I (matchPattern rs p v) d σ (p.meet I x env) (Matches I σ)
  | .wildcard _, v, x, d, σ, env, g, _, _, _, _, ht, _, _ => .pure ⟨ht, .refl σ⟩
  | .bind _ var, v, x, d, σ, env, g, _, _, _, hv, ht, _, _ =>
      ⟨[], (List.append_nil d.body).symm, σ, rfl, ht.setVar hv, .refl σ⟩
  | .bindAs s var sub, v, x, d, σ, env, g, hscoped, ⟨hvar, htype, hsub⟩, hx, hv, ht, hg, henv => by
      refine .silent rfl ?_
      exact simulates_matchPattern hc sub hscoped hsub (htype ▸ hx) hv (ht.setVar hv)
        (hg.cons var x) (henv.cons hvar hx)
  | .equal _ _, v, x, d, σ, env, g, hscoped, hvar, hx, hv, ht, hg, henv =>
      simulates_equal hc hscoped hvar hx hv ht hg henv
  | .int _ _, v, x, d, σ, env, g, _, hprim, hx, hv, ht, _, _ => simulates_int hc hprim hx hv ht
  | .bool _ _, v, x, d, σ, env, g, _, htype, hx, hv, ht, _, _ =>
      simulates_bool hc (htype ▸ hx) hv ht
  | .variant s t args, v, x, d, σ, env, g, hscoped, ⟨ha, hargs⟩, hx, hv, ht, hg, henv => by
      obtain ⟨hget, -, hret, ref, he⟩ := RuleSet.termInfo_of_applies ha
      obtain ⟨htype, info, hinfo, -⟩ := hc.extractors hget he
      have hsite : s.type = ref.type := hret.symm.trans htype
      have hx' : Val.HasType rs x ref.type := hsite ▸ hx
      obtain ⟨found, fields, rfl⟩ := exists_variant hc hinfo hx'
      rw [meet_variant he hx'.1, matchPattern, variantOf_eq he]
      refine simulates_use ?_
      refine .bind (simulates_tag (ht.mark v) hv hx'.1)
        (fun _ => effect_matchAll rs args (length_payloads _ _ _).symm) ?_
      rintro _ _ d' τ - ⟨ht', rfl, rfl⟩
      have hfields := hx.fields hc ha he
      have hlength := hfields.length_eq
      rw [List.length_map] at hlength
      exact simulates_matchAll hc args hscoped hargs hfields (evalAll_payloads hv hlength) ht' hg
        henv
  | .extractor s t args, v, x, d, σ, env, g, hscoped, ⟨ha, hargs⟩, hx, hv, ht, hg, henv => by
      obtain ⟨hget, htypes, hret, function, infallible, loc, he⟩ := RuleSet.termInfo_of_applies ha
      have hx' : Val.HasType rs x (rs.termInfo t).ret := hret ▸ hx
      have ht' := ht.markContext.mark v
      refine .silent rfl (simulates_use ?_)
      cases args with
      | nil => exact simulates_matchCall ht' hget he htypes hv hx'
      | cons p ps =>
        have hempty : (rs.termInfo t).args.isEmpty = false := by
          rw [htypes]
          rfl
        have hmeet : (CheckedPattern.extractor s t (p :: ps)).meet I x env =
            ((I.find t x).map pack).bind fun _ => (I.find t x).bind fun found =>
              CheckedPattern.meetAll I (p :: ps) found env := by
          rw [CheckedPattern.meet]
          cases I.find t x <;> rfl
        rw [hmeet]
        refine .bind (simulates_matchResults ht' hget he hempty hv hx')
          (fun w => effect_matchAll rs (p :: ps) (length_results w (p :: ps).length).symm) ?_
        rintro w y d' τ hy ⟨hw, ht', hle⟩
        obtain ⟨found, hfound, rfl⟩ := Option.map_eq_some_iff.mp hy
        have htyped := I.find_typed hget he hx' hfound
        rw [htypes] at htyped
        have hlength := htyped.length_eq
        rw [List.length_map] at hlength
        rw [hfound, Option.bind_some]
        exact .later hle (simulates_matchAll hc (p :: ps) hscoped hargs htyped
          (evalAll_results hw hlength) ht' hg henv)
  | .all s parts, v, x, d, σ, env, g, hscoped, ⟨htypes, hparts⟩, hx, hv, ht, hg, henv =>
      simulates_matchAll hc parts hscoped hparts (Val.haveTypes_const hx htypes)
        (evalAll_const hv parts) ht hg henv

theorem simulates_matchAll (hc : rs.Coherent) : ∀ (ps : List CheckedPattern) {vs : List Value}
    {xs : List (Val P)} {d : Draft} {σ : Store P} {env : Env P} {g : Visible},
      CheckedPattern.ScopedAll vars ps g → CheckedPattern.TypedAll rs vars ps →
      Val.HaveTypes rs xs (ps.map CheckedPattern.type) → Value.evalAll I σ vs = some xs →
      Tracks I d σ env → env.Shows g → Env.Typed rs vars env →
      Simulates I (matchAll rs ps vs) d σ (CheckedPattern.meetAll I ps xs env) (Matches I σ)
  | [], vs, [], d, σ, env, g, _, _, _, hvs, ht, _, _ => by
      rw [Value.evalAll_eq_some_iff] at hvs
      cases vs with
      | nil => exact .pure ⟨ht, .refl σ⟩
      | cons v vs => cases hvs
  | p :: ps, [], x :: xs, d, σ, env, g, _, _, _, hvs, _, _, _ => by
      rw [Value.evalAll_eq_some_iff] at hvs
      cases hvs
  | p :: ps, v :: vs, x :: xs, d, σ, env, g, ⟨hp, hps⟩, ⟨hpt, hpst⟩, ⟨hx, hxs⟩, hvs, ht, hg,
      henv => by
      have hlength : ps.length = vs.length := by
        have hvs' := congrArg List.length (Value.evalAll_eq_some_iff.mp hvs)
        have hxs' := hxs.length_eq
        simp only [List.length_map, List.length_cons, Nat.add_right_cancel_iff] at hvs' hxs'
        rw [hvs', hxs']
      obtain ⟨hv, hvs⟩ := Value.evalAll_cons.mp hvs
      refine .bind (simulates_matchPattern hc p hp hpt hx hv ht hg henv)
        (fun _ => effect_matchAll rs ps hlength) ?_
      rintro _ mid d' τ hmid ⟨ht', hle⟩
      have hvs' : Value.evalAll I τ vs = some xs := Value.evalAll_mono hle vs hvs
      exact .later hle (simulates_matchAll hc ps hps hpst hxs hvs' ht'
        (hg.extend (p.meet_keys hmid)) (p.meet_typed hc hpt hx henv hmid))

end

end Patterns

section Expressions

variable {rs : RuleSet} {P : Type} [DecidableEq P] {I : Interpretation rs P}
  {vars : Array VarInfo}

variable (I) in
def ReadsAll (σ : Store P) (env : Env P) (vs : List Value) (xs : List (Val P)) (d : Draft)
    (τ : Store P) : Prop :=
  Value.evalAll I τ vs = some xs ∧ Tracks I d τ env ∧ σ.Le τ

def Env.Free (env : Env P) (vs : List VarId) : Prop :=
  vs.Nodup ∧ ∀ v ∈ vs, v ∉ env.map Prod.fst

omit [DecidableEq P] in
theorem Env.Free.left {env : Env P} {vs ws : List VarId} (h : Env.Free env (vs ++ ws)) :
    Env.Free env vs :=
  ⟨(List.nodup_append.mp h.1).1, fun v hv => h.2 v (List.mem_append_left ws hv)⟩

omit [DecidableEq P] in
theorem Env.Free.right {env : Env P} {vs ws : List VarId} (h : Env.Free env (vs ++ ws)) :
    Env.Free env ws :=
  ⟨(List.nodup_append.mp h.1).2.1, fun v hv => h.2 v (List.mem_append_right vs hv)⟩

omit [DecidableEq P] in
theorem Env.Free.extend {env env' : Env P} {vs ws : List VarId} (h : Env.Free env (vs ++ ws))
    {us : List VarId} (hsub : us ⊆ vs)
    (hkeys : env'.map Prod.fst = us.reverse ++ env.map Prod.fst) : Env.Free env' ws := by
  refine ⟨h.right.1, fun v hv hmem => ?_⟩
  rw [hkeys, List.mem_append, List.mem_reverse] at hmem
  rcases hmem with hu | henv
  · exact (List.nodup_append.mp h.1).2.2 v (hsub hu) v hv rfl
  · exact h.right.2 v hv henv

omit [DecidableEq P] in
theorem Env.Free.cons {env : Env P} {v : VarId} {vs ws : List VarId}
    (h : Env.Free env (vs ++ [v] ++ ws)) (x : Val P) : Env.Free ((v, x) :: env) ws :=
  have hsub : [v] ⊆ vs ++ [v] := List.subset_append_right vs [v]
  h.extend hsub rfl

theorem simulates_call {d : Draft} {σ : Store P} {env : Env P} (ht : Tracks I d σ env) {t : TermId}
    {w : Value} {xs : List (Val P)} (hget : rs.terms.get? t = some (rs.termInfo t))
    (hcalled : (rs.termInfo t).constructor.isCalled = true)
    (hxs : Val.HaveTypes rs xs (rs.termInfo t).args) (hw : w.yield I σ = yieldBuild I t xs) :
    Simulates I (call (rs.termInfo t) w) d σ (I.build t xs) (Reads I σ env) := by
  refine .silent rfl ?_
  simp only [run_useContext]
  rw [yieldBuild] at hw
  cases hpartial : (rs.termInfo t).isPartial with
  | true =>
    rw [if_pos hpartial] at hw
    exact simulates_unwrap ht.markContext none hw
  | false =>
    rw [if_neg (by simp [hpartial])] at hw
    obtain ⟨y, hy⟩ := Option.isSome_iff_exists.mp (I.build_total hget hcalled hpartial hxs)
    rw [hy] at hw ⊢
    exact .pure ⟨Value.eval_eq_some.mpr hw, ht.markContext, .refl σ⟩

theorem simulates_build {d : Draft} {σ : Store P} {env : Env P} (ht : Tracks I d σ env) {t : TermId}
    {vs : List Value} {xs : List (Val P)} (hget : rs.terms.get? t = some (rs.termInfo t))
    (hpresent : (rs.termInfo t).constructor ≠ .missing)
    (hxs : Val.HaveTypes rs xs (rs.termInfo t).args) (hvs : Value.evalAll I σ vs = some xs) :
    Simulates I (build rs t vs) d σ
      (match (rs.termInfo t).constructor with
        | .variant ref => some (.variant ref xs)
        | _ => I.build t xs) (Reads I σ env) := by
  unfold build
  cases hk : (rs.termInfo t).constructor with
  | missing => exact absurd hk hpresent
  | variant ref =>
    refine .pure ⟨?_, ht, .refl σ⟩
    rw [Value.eval, Value.yield, hvs]
    rfl
  | internal loc =>
    refine simulates_call ht hget (by rw [hk]; rfl) hxs ?_
    rw [Value.yield, hvs, hk]
    rfl
  | external function loc =>
    refine simulates_call ht hget (by rw [hk]; rfl) hxs ?_
    rw [Value.yield, hvs, hk]
    rfl

mutual

theorem simulates_expr (hc : rs.Coherent) : ∀ (e : CheckedExpr) {d : Draft} {σ : Store P}
    {env : Env P} {g : Visible}, e.Scoped vars g → e.Typed rs vars → Env.Free env e.defined →
      Tracks I d σ env → env.Shows g → Env.Typed rs vars env →
      Simulates I (expr rs e) d σ (e.eval I env) (Reads I σ env)
  | .var _ var, d, σ, env, g, hscoped, _, _, ht, hg, _ => by
      obtain ⟨x, hx⟩ := hg.lookup hscoped
      obtain ⟨w, hw, heval⟩ := ht.vars hx
      rw [CheckedExpr.eval, hx]
      refine ⟨[], (List.append_nil d.body).symm, σ, rfl, ?_, ht, .refl σ⟩
      rw [expr, run_getVar, Draft.getVar, hw]
      exact heval
  | .int _ n, d, σ, env, g, _, _, _, ht, _, _ => .pure ⟨rfl, ht, .refl σ⟩
  | .bool _ b, d, σ, env, g, _, _, _, ht, _, _ => .pure ⟨rfl, ht, .refl σ⟩
  | .call s t args, d, σ, env, g, hscoped, ⟨ha, hargs⟩, hfree, ht, hg, henv => by
      obtain ⟨hget, htypes, -, hpresent⟩ := RuleSet.termInfo_of_applies ha
      refine .bind (simulates_exprs hc args hscoped hargs hfree ht hg henv)
        (effect_build rs t) ?_
      rintro vs xs d' τ hxs ⟨hvs, ht', hle⟩
      have htyped := CheckedExpr.evalAll_typed hc args hargs henv hxs
      rw [← htypes] at htyped
      exact (simulates_build ht' hget hpresent htyped hvs).imp fun _ _ _ hq =>
        ⟨hq.1, hq.2.1, hle.trans hq.2.2⟩
  | .letIn s bs body, d, σ, env, g, ⟨hbs, hbody⟩, ⟨_, hbst, hbodyt⟩, hfree, ht, hg, henv => by
      have hinner : Simulates I (expr rs (.letIn s bs body)) d σ
          ((CheckedExpr.letIn s bs body).eval I env)
          (fun w x d' τ => w.eval I τ = some x ∧ Backs d' τ ∧ σ.Le τ) := by
        refine .bind (simulates_bindings hc bs hbs hbst hfree.left ht hg henv)
          (fun _ => effect_expr rs body) ?_
        rintro _ inner d' τ hinner ⟨ht', hle⟩
        have hkeys := CheckedExpr.evalIn_keys bs hinner
        have hsub : bs.map CheckedBinding.var ⊆ CheckedExpr.definedIn bs :=
          CheckedExpr.vars_subset_definedIn bs
        refine (simulates_expr hc body hbody hbodyt (hfree.extend hsub hkeys) ht'
          (hg.extend hkeys) (CheckedExpr.evalIn_typed hc bs hbst henv hinner)).imp ?_
        exact fun _ _ _ hq => ⟨hq.1, hq.2.1.toBacks, hle.trans hq.2.2⟩
      -- The variables of the `let` are out of sight again, and no other variable was set.
      refine hinner.imp fun x τ _ hq => ⟨hq.1, ?_, hq.2.2⟩
      refine ht.later hq.2.2 hq.2.1 fun v hv => ?_
      exact (effect_expr rs (.letIn s bs body)).keeps d fun hmem => hfree.2 v hmem hv

theorem simulates_exprs (hc : rs.Coherent) : ∀ (es : List CheckedExpr) {d : Draft} {σ : Store P}
    {env : Env P} {g : Visible}, CheckedExpr.ScopedAll vars es g →
      CheckedExpr.TypedAll rs vars es → Env.Free env (CheckedExpr.definedAll es) →
      Tracks I d σ env → env.Shows g → Env.Typed rs vars env →
      Simulates I (exprs rs es) d σ (CheckedExpr.evalAll I es env) (ReadsAll I σ env)
  | [], d, σ, env, g, _, _, _, ht, _, _ => .pure ⟨rfl, ht, .refl σ⟩
  | e :: es, d, σ, env, g, ⟨he, hes⟩, ⟨het, hest⟩, hfree, ht, hg, henv => by
      refine .bind (simulates_expr hc e he het hfree.left ht hg henv)
        (fun v => (effect_use v).then fun _ =>
          (effect_exprs rs es).before fun _ => effect_pure _) ?_
      rintro v x d' τ - ⟨hv, ht', hle⟩
      refine simulates_use ?_
      refine .bind (simulates_exprs hc es hes hest hfree.right (ht'.mark v) hg henv)
        (fun _ => effect_pure _) ?_
      rintro vs xs d'' υ - ⟨hvs, ht'', hle'⟩
      exact .pure ⟨Value.evalAll_cons.mpr ⟨Value.eval_mono hle' hv, hvs⟩, ht'', hle.trans hle'⟩

theorem simulates_bindings (hc : rs.Coherent) : ∀ (bs : List (CheckedBinding CheckedExpr))
    {d : Draft} {σ : Store P} {env : Env P} {g : Visible}, CheckedExpr.ScopedIn vars bs g →
      CheckedExpr.TypedIn rs vars bs → Env.Free env (CheckedExpr.definedIn bs) →
      Tracks I d σ env → env.Shows g → Env.Typed rs vars env →
      Simulates I (bindings rs bs) d σ (CheckedExpr.evalIn I bs env) (Matches I σ)
  | [], d, σ, env, g, _, _, _, ht, _, _ => .pure ⟨ht, .refl σ⟩
  | ⟨var, value⟩ :: bs, d, σ, env, g, ⟨hvalue, hbs⟩, ⟨hvar, hvaluet, hbst⟩, hfree, ht, hg,
      henv => by
      refine .bind (simulates_expr hc value hvalue hvaluet hfree.left ht hg henv)
        (fun v => (effect_use v).then fun _ => (effect_newLocal _ _ _).then fun temp =>
          (effect_setVar var temp).bind fun _ => effect_bindings rs bs) ?_
      rintro v x d' τ hx ⟨hv, ht', hle⟩
      refine simulates_use ?_
      -- To keep a value in a local is a step of its own, which the meaning does not have.
      rw [← Option.bind_some (a := x) (f := fun x => CheckedExpr.evalIn I bs ((var, x) :: env))]
      refine .bind (simulates_keep (ht'.mark v) (some value.type) hv)
        (fun temp => (effect_setVar var temp).bind fun _ => effect_bindings rs bs) ?_
      rintro temp _ d'' υ ⟨rfl⟩ ⟨htemp, ht'', hle'⟩
      refine .silent rfl ?_
      have hfree' : Env.Free ((var, x) :: env) (CheckedExpr.definedIn bs) := by
        rw [CheckedExpr.definedIn, List.append_cons] at hfree
        exact hfree.cons x
      refine (simulates_bindings hc bs hbs hbst hfree' (ht''.setVar htemp)
        (hg.cons var x)
        (henv.cons hvar (value.eval_typed hc hvaluet henv hx))).imp ?_
      exact fun _ _ _ hq => ⟨hq.1, (hle.trans hle').trans hq.2⟩

end

end Expressions

end TermRules.Zig

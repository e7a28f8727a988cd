import TermRules.Proofs.EmittedNames

/-!
# Lowering keeps drafts tidy

Behind a pattern nothing is pending but what was. Behind an expression the names
in its value are pending, and behind a guard those in the arguments of its value,
which need not be written.
-/

namespace TermRules.Zig

namespace Lower

variable (rs : RuleSet) {first : Nat} {before : Binder → Prop}

def Tidies (first : Nat) (before : Binder → Prop) (xs : List Binder) (d d' : Draft) : Prop :=
  d'.Tidy first before xs ∧ d.Later d'

section Writing

variable {d d' d'' : Draft} {xs : List Binder} {v : Value}

theorem Tidies.trans (h : Tidies first before xs d d') (h' : Tidies first before xs d' d'') :
    Tidies first before xs d d'' := ⟨h'.1, h.2.trans h'.2⟩

theorem tidies_write (h : d.Tidy first before xs) (hv : d.Knows v) {t : Statement}
    (hreads : t.reads = v.names) (hdeclared : t.declared? = none)
    (hdiscarded : t.discarded? = none) :
    Tidies first before xs d ((d.mark v).emit t) := by
  refine ⟨?_, (Draft.later_mark d v).trans (Draft.later_emit _ t)⟩
  refine Draft.Tidy.emit (by rw [hreads]; exact h.mark hv) (fun hi => ?_) hdeclared hdiscarded
  rw [hreads] at hi
  rw [Draft.mark_locals]
  exact hv.temps hi

theorem knows_payloads {ref : VariantRef} {count : Nat} (hv : d.Knows v) :
    ∀ w ∈ payloads v ref count, d.Knows w := by
  intro w hw
  obtain ⟨i, -, rfl⟩ := List.mem_map.mp hw
  exact ⟨hv.inner, hv.temps⟩

theorem knows_results {count : Nat} (hv : d.Knows v) : ∀ w ∈ results v count, d.Knows w := by
  intro w hw
  unfold results at hw
  split_ifs at hw
  · rwa [List.mem_singleton.mp hw]
  · obtain ⟨i, -, rfl⟩ := List.mem_map.mp hw
    exact ⟨hv.inner, hv.temps⟩

theorem tidy_matchCall (h : d.Tidy first before xs) (hv : d.Knows v) (t : TermId) :
    (d.markContext.mark v).Tidy first before (xs ++ (Value.contextMatch t v).names) := by
  have hmarked := h.markContext.mark (hv.later (Draft.later_markContext d))
  refine hmarked.pending fun z => ?_
  simp only [Value.names, List.mem_append, List.mem_cons]
  tauto

end Writing

mutual

theorem tidies_matchPattern : ∀ (p : CheckedPattern) {v : Value} {d : Draft} {xs : List Binder},
    d.Tidy first before xs → d.Knows v →
      Tidies first before xs d ((matchPattern rs p v).run d).2
  | .wildcard _, v, d, xs, h, hv => ⟨h, .refl d⟩
  | .bind _ x, v, d, xs, h, hv => ⟨h.setVar x hv, Draft.later_setVar d x v⟩
  | .bindAs _ x sub, v, d, xs, h, hv => by
      have hlater := Draft.later_setVar d x v
      have hsub := tidies_matchPattern sub (h.setVar x hv) (hv.later hlater)
      rw [matchPattern, run_bind, run_setVar]
      exact ⟨hsub.1, hlater.trans hsub.2⟩
  | .equal s x, v, d, xs, h, hv => by
      -- Both values are pending until the test is written.
      have hx := h.getVar x
      have hlater := Draft.later_mark d v
      have hboth := (h.mark hv).mark (hx.later hlater)
      rw [matchPattern, run_bind, run_getVar, run_bind, run_use, run_bind, run_use, run_emit]
      refine ⟨Draft.Tidy.emit ?_ (fun {i} hi => ?_) rfl rfl,
        (hlater.trans (Draft.later_mark _ _)).trans (Draft.later_emit _ _)⟩
      · rw [List.append_assoc] at hboth
        cases (rs.typeInfo s.type).shape.isEnum <;> exact hboth
      · rw [Draft.mark_locals, Draft.mark_locals]
        have hmem : .temp i ∈ v.names ++ (d.getVar x).names := by
          cases he : (rs.typeInfo s.type).shape.isEnum <;> rw [he] at hi <;> exact hi
        exact (List.mem_append.mp hmem).elim hv.temps hx.temps
  | .int _ n, v, d, xs, h, hv => by
      rw [matchPattern, run_bind, run_use, run_emit]
      exact tidies_write h hv (List.append_nil v.names) rfl rfl
  | .bool _ b, v, d, xs, h, hv => by
      rw [matchPattern, run_bind, run_use, run_emit]
      cases b <;> exact tidies_write h hv rfl rfl rfl
  | .variant _ t args, v, d, xs, h, hv => by
      have htest := tidies_write h hv (t := .breakIf (.otherTag v (variantOf rs t))) rfl rfl rfl
      rw [matchPattern, run_bind, run_use, run_bind, run_emit]
      exact htest.trans (tidies_matchAll args htest.1 (knows_payloads (hv.later htest.2)))
  | .extractor _ t args, v, d, xs, h, hv => by
      have hcall := tidy_matchCall h hv t
      have hlater := (Draft.later_markContext d).trans (Draft.later_mark d.markContext v)
      have htemps : ∀ {i}, .temp i ∈ (Value.contextMatch t v).names →
          i ∈ (d.markContext.mark v).locals := by
        intro i hi
        rw [Value.names, List.mem_cons] at hi
        exact hlater.locals (hv.temps (hi.resolve_left (by simp)))
      cases args with
      | nil =>
        rw [run_extractor_nil]
        refine ⟨?_, hlater.trans (Draft.later_emit _ _)⟩
        cases isInfallible rs t <;> exact Draft.Tidy.emit hcall htemps rfl rfl
      | cons p ps =>
        let kept := (d.markContext.mark v).keep none (.contextMatch t v) (!isInfallible rs t)
        have hkept : Tidies first before xs d kept :=
          ⟨hcall.keep htemps, hlater.trans (Draft.later_keep _ _ _ _)⟩
        have hfound : kept.Knows (.temp (d.markContext.mark v).nextTemp) :=
          Draft.knows_temp (List.mem_append_right _ List.mem_cons_self)
        rw [run_extractor_cons]
        exact hkept.trans (tidies_matchAll (p :: ps) hkept.1 (knows_results hfound))
  | .all _ parts, v, d, xs, h, hv => by
      rw [matchPattern]
      refine tidies_matchAll parts h fun w hw => ?_
      obtain ⟨-, -, rfl⟩ := List.mem_map.mp hw
      exact hv

theorem tidies_matchAll : ∀ (ps : List CheckedPattern) {vs : List Value} {d : Draft}
    {xs : List Binder}, d.Tidy first before xs → (∀ v ∈ vs, d.Knows v) →
      Tidies first before xs d ((matchAll rs ps vs).run d).2
  | [], vs, d, xs, h, _ => ⟨h, .refl d⟩
  | p :: ps, [], d, xs, h, _ => ⟨h, .refl d⟩
  | p :: ps, v :: vs, d, xs, h, hvs => by
      have hp := tidies_matchPattern p h (hvs v List.mem_cons_self)
      rw [matchAll, run_bind]
      exact hp.trans (tidies_matchAll ps hp.1 fun w hw =>
        (hvs w (List.mem_cons_of_mem v hw)).later hp.2)

end

def Yields (first : Nat) (before : Binder → Prop) (xs : List Binder) (d : Draft)
    (r : Value × Draft) : Prop :=
  r.2.Tidy first before (xs ++ r.1.inner) ∧ d.Later r.2 ∧ r.2.Knows r.1

section Values

variable {d d' : Draft} {xs : List Binder} {v : Value}

theorem Yields.later {r : Value × Draft} (h : Yields first before xs d' r) (hl : d.Later d') :
    Yields first before xs d r := ⟨h.1, hl.trans h.2.1, h.2.2⟩

theorem Yields.mark {r : Value × Draft} (h : Yields first before xs d r) :
    (r.2.mark r.1).Tidy first before (xs ++ r.1.names) := by
  refine (h.1.mark h.2.2).pending fun z => ?_
  have hsub : z ∈ r.1.inner → z ∈ r.1.names := Value.inner_subset
  simp only [List.mem_append]
  tauto

theorem yields_pure (h : d.Tidy first before xs) (hv : d.Knows v) :
    Yields first before xs d (v, d) := by
  refine ⟨h.pending fun z => ?_, .refl d, hv⟩
  have hmarked : z ∈ v.inner → before z ∨ z ∈ xs ∨ z ∈ d.reads := fun hz =>
    (h.marked z).mp (hv.inner hz)
  simp only [List.mem_append]
  tauto

theorem yields_kept (type : Option TypeId) (orBreak : Bool)
    (h : d.Tidy first before (xs ++ v.names)) (htemps : ∀ {i}, .temp i ∈ v.names → i ∈ d.locals) :
    Yields first before xs d (.temp d.nextTemp, d.keep type v orBreak) := by
  refine (yields_pure (h.keep htemps) ?_).later (Draft.later_keep d type v orBreak)
  exact Draft.knows_temp (List.mem_append_right _ List.mem_cons_self)

theorem yields_waiting (h : d.Tidy first before (xs ++ v.names)) (hv : v.root? = none)
    (htemps : ∀ {i}, .temp i ∈ v.names → i ∈ d.locals) : Yields first before xs d (v, d) := by
  have hinner := Value.inner_of_root_none hv
  refine ⟨by rwa [hinner], .refl d, fun {z} hz => ?_, htemps⟩
  rw [hinner] at hz
  exact (h.marked z).mpr (.inr (.inl (List.mem_append_right xs hz)))

theorem yields_call (term : TermInfo) {args : List Value}
    (hnames : v.names = .context :: Value.namesAll args) (hroot : v.root? = none)
    (h : d.Tidy first before (xs ++ Value.namesAll args))
    (htemps : ∀ {i}, .temp i ∈ Value.namesAll args → i ∈ d.locals) :
    Yields first before xs d ((call term v).run d) := by
  have hcontext : d.markContext.Tidy first before (xs ++ v.names) := by
    refine h.markContext.pending fun z => ?_
    rw [hnames]
    simp only [List.mem_append, List.mem_cons]
    tauto
  have htemps' : ∀ {i}, .temp i ∈ v.names → i ∈ d.markContext.locals := by
    intro i hi
    rw [hnames, List.mem_cons] at hi
    exact htemps (hi.resolve_left (by simp))
  rw [call, run_bind, run_useContext]
  split_ifs
  · exact (yields_kept none true hcontext htemps').later (Draft.later_markContext d)
  · exact (yields_waiting hcontext hroot htemps').later (Draft.later_markContext d)

theorem yields_build (t : TermId) {args : List Value}
    (h : d.Tidy first before (xs ++ Value.namesAll args))
    (htemps : ∀ {i}, .temp i ∈ Value.namesAll args → i ∈ d.locals) :
    Yields first before xs d ((build rs t args).run d) := by
  unfold build
  split
  · exact yields_waiting (v := .variant _ args) h rfl htemps
  · exact yields_call _ rfl rfl h htemps
  · exact yields_call _ rfl rfl h htemps

end Values

mutual

theorem yields_expr : ∀ (e : CheckedExpr) {d : Draft} {xs : List Binder},
    d.Tidy first before xs → Yields first before xs d ((expr rs e).run d)
  | .var _ x, d, xs, h => yields_pure h (h.getVar x)
  | .int _ n, d, xs, h => yields_pure h ⟨fun hz => (by cases hz), fun hi => (by cases hi)⟩
  | .bool _ b, d, xs, h => yields_pure h ⟨fun hz => (by cases hz), fun hi => (by cases hi)⟩
  | .call _ t args, d, xs, h => by
      obtain ⟨hargs, hlater, htemps⟩ := yields_exprs args h
      rw [expr_call, run_bind]
      exact (yields_build rs t hargs htemps).later hlater
  | .letIn _ bs body, d, xs, h => by
      have hbs := tidies_bindings bs h
      rw [expr, run_bind]
      exact (yields_expr body hbs.1).later hbs.2

theorem yields_exprs : ∀ (es : List CheckedExpr) {d : Draft} {xs : List Binder},
    d.Tidy first before xs →
      ((exprs rs es).run d).2.Tidy first before (xs ++ Value.namesAll ((exprs rs es).run d).1) ∧
        d.Later ((exprs rs es).run d).2 ∧
        ∀ {i}, .temp i ∈ Value.namesAll ((exprs rs es).run d).1 →
          i ∈ ((exprs rs es).run d).2.locals
  | [], d, xs, h => by
      refine ⟨?_, .refl d, fun hi => by cases hi⟩
      rw [exprs, run_pure, Value.namesAll, List.append_nil]
      exact h
  | e :: es, d, xs, h => by
      have he := yields_expr e h
      let first := (expr rs e).run d
      have hmark := Draft.later_mark first.2 first.1
      obtain ⟨hes, hlater, htemps⟩ := yields_exprs es he.mark
      rw [exprs, run_bind, run_bind, run_use, run_bind, run_pure]
      refine ⟨?_, (he.2.1.trans hmark).trans hlater, fun hi => ?_⟩
      · rw [List.append_assoc] at hes
        exact hes
      · rw [Value.namesAll, List.mem_append] at hi
        exact hi.elim (fun hi => (hmark.trans hlater).locals (he.2.2.temps hi)) htemps

theorem tidies_bindings : ∀ (bs : List (CheckedBinding CheckedExpr)) {d : Draft}
    {xs : List Binder}, d.Tidy first before xs →
      Tidies first before xs d ((bindings rs bs).run d).2
  | [], d, xs, h => ⟨h, .refl d⟩
  | ⟨x, value⟩ :: bs, d, xs, h => by
      have hvalue := yields_expr value h
      let first := (expr rs value).run d
      have hlater := hvalue.2.1.trans (Draft.later_mark first.2 first.1)
      have htemps : ∀ {i}, .temp i ∈ first.1.names → i ∈ (first.2.mark first.1).locals := by
        intro i hi
        rw [Draft.mark_locals]
        exact hvalue.2.2.temps hi
      obtain ⟨hkept, hlater', htemp⟩ :=
        (yields_kept (some value.type) false hvalue.mark htemps).later hlater
      have hnone : (Value.temp (first.2.mark first.1).nextTemp).inner = [] := rfl
      rw [hnone, List.append_nil] at hkept
      have hset := hkept.setVar x htemp
      have hbs := tidies_bindings bs hset
      rw [bindings, run_bind, run_bind, run_use, run_bind, run_newLocal, run_bind, run_setVar]
      exact ⟨hbs.1, (hlater'.trans (Draft.later_setVar _ x _)).trans hbs.2⟩

end

def guardNames : List CheckedGuard → Draft → List Binder
  | [], _ => []
  | g :: gs, d => ((expr rs g.value).run d).1.inner ++ guardNames gs ((guard rs g).run d).2

def ruleNames (r : CheckedRule) (d : Draft) : List Binder :=
  guardNames rs r.guards ((matchAll rs r.args ((List.range r.args.length).map .param)).run d).2

theorem root_call (term : TermInfo) {v : Value} (hv : v.root? = none) (d : Draft) (i : Nat) :
    ((call term v).run d).1.root? ≠ some (.param i) := by
  rw [call, run_bind]
  split_ifs
  · rw [run_newLocal]
    simp [Value.root?]
  · rw [run_pure, hv]
    simp

theorem root_of_isCall {e : CheckedExpr} (hcall : isCall e = true) {d : Draft}
    (htemp : isTemp ((expr rs e).run d).1 = false) : ((expr rs e).run d).1.root? = none := by
  have hparam : ∀ i, ((expr rs e).run d).1.root? ≠ some (.param i) := by
    intro i
    cases e with
    | call s t args =>
      rw [expr_call, run_bind]
      unfold build
      split
      · simp [Value.root?]
      · exact root_call _ rfl _ i
      · exact root_call _ rfl _ i
    | _ => cases hcall
  cases hroot : ((expr rs e).run d).1.root? with
  | none => rfl
  | some r =>
    cases r with
    | param i => exact absurd hroot (hparam i)
    | temp i =>
      rw [isTemp, hroot] at htemp
      cases htemp

theorem discarded_of_root_none {v : Value} (h : v.root? = none) :
    (Statement.discard v).discarded? = none := by
  cases v with
  | param i => cases h
  | temp i => cases h
  | _ => rfl

theorem tidies_matchGuard (g : CheckedGuard) {v : Value} {d : Draft} {xs : List Binder}
    (h : d.Tidy first before xs) (hv : d.Knows v)
    (hroot : isCall g.value = true → isTemp v = false → v.root? = none) :
    Tidies first before xs d ((matchGuard rs g v).run d).2 := by
  unfold matchGuard
  split_ifs with hdiscard
  · simp only [Bool.and_eq_true, Bool.not_eq_true'] at hdiscard
    have hnone := discarded_of_root_none (hroot hdiscard.1.2 hdiscard.2)
    rw [run_bind, run_use, run_emit]
    refine tidies_write h hv ?_ rfl hnone
    rw [Statement.reads, hnone]
    rfl
  · exact tidies_matchPattern rs g.pattern h hv

theorem tidies_guard (g : CheckedGuard) {d : Draft} {xs : List Binder}
    (h : d.Tidy first before xs) :
    ((guard rs g).run d).2.Tidy first before (xs ++ ((expr rs g.value).run d).1.inner) ∧
      d.Later ((guard rs g).run d).2 ∧
      ∀ {i}, .temp i ∈ ((expr rs g.value).run d).1.inner → i ∈ ((guard rs g).run d).2.locals := by
  -- Nothing makes the pattern write the value, so that its names are pending still.
  obtain ⟨hvalue, hlater, hknows⟩ := yields_expr rs g.value h
  have hpattern := tidies_matchGuard rs g hvalue hknows fun hcall htemp =>
    root_of_isCall rs hcall htemp
  rw [guard_eq, run_bind]
  exact ⟨hpattern.1, hlater.trans hpattern.2, fun hi =>
    hpattern.2.locals (hknows.temps (Value.inner_subset hi))⟩

theorem tidies_guards (gs : List CheckedGuard) {d : Draft} {xs : List Binder}
    (h : d.Tidy first before xs) :
    ((guards rs gs).run d).2.Tidy first before (xs ++ guardNames rs gs d) ∧
      d.Later ((guards rs gs).run d).2 ∧
      ∀ {i}, .temp i ∈ guardNames rs gs d → i ∈ ((guards rs gs).run d).2.locals := by
  induction gs generalizing d xs with
  | nil =>
    refine ⟨?_, .refl d, fun hi => by cases hi⟩
    rw [guards, run_pure, guardNames, List.append_nil]
    exact h
  | cons g gs ih =>
    obtain ⟨hg, hlater, htemps⟩ := tidies_guard rs g h
    obtain ⟨hgs, hlater', htemps'⟩ := ih hg
    rw [guards, run_bind]
    refine ⟨?_, hlater.trans hlater', fun hi => ?_⟩
    · rw [List.append_assoc] at hgs
      exact hgs
    · rw [guardNames, List.mem_append] at hi
      exact hi.elim (fun hi => hlater'.locals (htemps hi)) htemps'

theorem yields_ruleValue (r : CheckedRule) {d : Draft} {xs : List Binder}
    (h : d.Tidy first before xs) :
    Yields first before (xs ++ ruleNames rs r d) d ((ruleValue rs r).run d) ∧
      ∀ {i}, .temp i ∈ ruleNames rs r d → i ∈ ((ruleValue rs r).run d).2.locals := by
  have hparams : ∀ v ∈ (List.range r.args.length).map Value.param, d.Knows v := by
    intro v hv
    obtain ⟨i, -, rfl⟩ := List.mem_map.mp hv
    refine ⟨fun hz => (by cases hz), fun hi => ?_⟩
    rw [Value.names, List.mem_singleton] at hi
    cases hi
  have hargs := tidies_matchAll rs r.args h hparams
  obtain ⟨hguards, hlater, htemps⟩ := tidies_guards rs r.guards hargs.1
  have hresult := yields_expr rs r.result hguards
  rw [ruleValue, run_bind, run_bind]
  exact ⟨hresult.later (hargs.2.trans hlater), fun hi => hresult.2.1.locals (htemps hi)⟩

end Lower

end TermRules.Zig

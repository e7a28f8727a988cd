import TermRules.Proofs.Binders
import TermRules.Proofs.Environments
import TermRules.Proofs.SafeDrafts

/-!
# Lowering with guarded reads

The lowering of a rule reads types, terms and variants by number, variables by
slot, and it marks parameters and locals by position. Here each of these reads
fails if there is nothing to read. For checked rules none fails: a visible
variable has a value, and the numbers in checked patterns and expressions are
numbers of entries.
-/

namespace TermRules

namespace Zig

namespace Guarded

section Checked

variable {rs : RuleSet} {vars : Array VarInfo} {arity : Nat}

def Known (rs : RuleSet) (vars : Array VarInfo) : Prop :=
  ∀ info ∈ vars, info.type < rs.types.size

theorem lt_size_of_hasVar {v : VarId} {type : TypeId} (h : HasVar vars v type) :
    v < vars.size := by
  obtain ⟨info, hinfo, -⟩ := Option.map_eq_some_iff.mp h
  exact (Array.getElem?_eq_some_iff.mp hinfo).1

theorem Known.type (h : Known rs vars) {v : VarId} {type : TypeId} (hv : HasVar vars v type) :
    ∃ info, rs.types.get? type = some info := by
  obtain ⟨info, hinfo, rfl⟩ := Option.map_eq_some_iff.mp hv
  have hlt := h info (Array.mem_of_getElem? hinfo)
  exact ⟨_, Array.getElem?_eq_getElem hlt⟩

theorem variant?_of_linked (h : rs.Linked) {id : TermId} {info : TermInfo} {ref : VariantRef}
    (hinfo : rs.terms.get? id = some info) (hc : info.constructor = .variant ref) :
    ∃ variant, rs.variant? ref = some variant ∧ info.args.length = variant.fields.length := by
  obtain ⟨type, variant, htype, hvariant, -, hargs, -⟩ := (h.infos hinfo).variant ref hc
  refine ⟨variant, ?_, by rw [hargs, List.length_map]⟩
  rw [RuleSet.variant?, htype]
  exact hvariant

theorem legible_payloads {locals : List Nat} {v : Value} {ref : VariantRef} {count : Nat}
    {variant : VariantInfo} (hvariant : rs.variant? ref = some variant)
    (hcount : count ≤ variant.fields.length) (hv : v.Legible rs arity locals) :
    ∀ w ∈ Lower.payloads v ref count, w.Legible rs arity locals := by
  intro w hw
  obtain ⟨i, hi, rfl⟩ := List.mem_map.mp hw
  exact ⟨⟨variant, hvariant, Nat.lt_of_lt_of_le (List.mem_range.mp hi) hcount⟩, hv⟩

theorem legible_results {locals : List Nat} {v : Value} {count : Nat}
    (hv : v.Legible rs arity locals) :
    ∀ w ∈ Lower.results v count, w.Legible rs arity locals := by
  intro w hw
  unfold Lower.results at hw
  split_ifs at hw
  · rwa [List.mem_singleton.mp hw]
  · obtain ⟨i, -, rfl⟩ := List.mem_map.mp hw
    exact hv

mutual

theorem follows_matchPattern (hrs : rs.Linked) (hvars : Known rs vars) :
  ∀ (p : CheckedPattern) {g : Visible} {v : Value} {d : Draft},
    p.Typed rs vars → p.Scoped vars g → d.Safe rs arity → d.Shows g →
      v.Legible rs arity d.locals →
        Follows rs arity d (matchPattern rs arity vars.size p v) (Lower.matchPattern rs p v)
  | .wildcard _, g, v, d, _, _, h, _, _ => follows_pure h ()
  | .bind _ x, g, v, d, ht, _, h, _, hv => follows_setVar h (lt_size_of_hasVar ht) hv
  | .bindAs _ x sub, g, v, d, ⟨hx, _, hsub⟩, hscope, h, hg, hv => by
      have hset := follows_setVar h (lt_size_of_hasVar hx) hv
      refine hset.bind
        (follows_matchPattern hrs hvars sub hsub hscope hset.safe ?_ (hv.mono hset.later))
      exact (Lower.effect_setVar x v).shows hg vars (List.Subset.refl _)
  | .equal s x, g, v, d, ht, hx, h, hg, hv => by
      obtain ⟨info, hinfo⟩ := hvars.type ht
      obtain ⟨hget, hbound⟩ := gives_getVar h (lt_size_of_hasVar ht) (hg.mem hx)
      have hboth := (h.mark v).mark (d.getVar x)
      refine hget.bind (.use h hv (.use (h.mark v) (by rwa [Draft.mark_locals]) (.found hinfo ?_)))
      rw [RuleSet.typeInfo_of_get? hinfo]
      refine follows_emit hboth ?_ (by cases info.shape.isEnum <;> rfl)
      rw [Draft.mark_locals, Draft.mark_locals]
      cases info.shape.isEnum <;> exact ⟨hv, hbound⟩
  | .int _ n, g, v, d, _, _, h, _, hv => by
      refine .use h hv (follows_emit (h.mark v) ?_ rfl)
      rw [Draft.mark_locals]
      exact ⟨hv, trivial⟩
  | .bool _ b, g, v, d, _, _, h, _, hv => by
      refine .use h hv (follows_emit (h.mark v) ?_ rfl)
      rw [Draft.mark_locals]
      cases b <;> exact hv
  | .variant _ t args, g, v, d, ⟨⟨info, hinfo, htypes, _, ref, hextractor⟩, hargs⟩, hscope, h, hg,
      hv => by
      have hc := ((hrs.infos hinfo).paired ref).mpr hextractor
      obtain ⟨variant, hvariant, hfields⟩ := variant?_of_linked hrs hinfo hc
      have hcount : args.length ≤ variant.fields.length := by
        rw [← hfields, htypes, List.length_map]
      have href : Lower.variantOf rs t = ref :=
        Lower.variantOf_eq (by rw [RuleSet.termInfo_of_get? hinfo, hextractor])
      have hmarked : v.Legible rs arity (d.mark v).locals := by rwa [Draft.mark_locals]
      have htest := follows_emit (h.mark v) (t := .breakIf (.otherTag v ref))
        ⟨hmarked, variant, hvariant⟩ rfl
      rw [matchPattern, Lower.matchPattern, href]
      refine .found hinfo (.found (a := ref) (by rw [hextractor]; rfl) (.found hvariant
        (.use h hv (htest.bind (.ensure hcount ?_)))))
      exact follows_matchAll hrs hvars args hargs hscope htest.safe (hg.mark v)
        (Lower.length_payloads _ _ _).symm (legible_payloads hvariant hcount hmarked)
  | .extractor _ t args, g, v, d,
      ⟨⟨info, hinfo, _, _, function, infallible, loc, hextractor⟩, hargs⟩, hscope, h, hg, hv => by
      have hinfallible : Lower.isInfallible rs t = infallible :=
        Lower.isInfallible_eq (by rw [RuleSet.termInfo_of_get? hinfo, hextractor])
      let marked := d.markContext.mark v
      have hmarked : marked.Safe rs arity := h.markContext.mark v
      have hcall : (Value.contextMatch t v).Legible rs arity marked.locals := by
        refine ⟨⟨info, function, infallible, loc, hinfo, hextractor⟩, ?_⟩
        rwa [Draft.mark_locals]
      rw [matchPattern, Lower.matchPattern, hinfallible]
      refine .found hinfo (.found (a := infallible) (by rw [hextractor]; rfl)
        ((follows_useContext h).bind (.use h.markContext hv ?_)))
      cases args with
      | nil =>
        refine follows_emit hmarked ?_ (by cases infallible <;> rfl)
        cases infallible <;> exact hcall
      | cons p ps =>
        have hkept := follows_newLocal hmarked none (!infallible) (by simp) hcall
        refine hkept.bind ?_
        refine follows_matchAll hrs hvars (p :: ps) hargs hscope hkept.safe ?_
          (Lower.length_results _ _).symm (legible_results ?_)
        · exact Draft.Shows.mark (d := d.markContext) hg v
        · exact List.mem_append_right _ List.mem_cons_self
  | .all _ parts, g, v, d, ⟨_, hparts⟩, hscope, h, hg, hv => by
      refine follows_matchAll hrs hvars parts hparts hscope h hg (List.length_map _).symm ?_
      intro w hw
      obtain ⟨-, -, rfl⟩ := List.mem_map.mp hw
      exact hv

theorem follows_matchAll (hrs : rs.Linked) (hvars : Known rs vars) :
  ∀ (ps : List CheckedPattern) {g : Visible} {vs : List Value} {d : Draft},
    CheckedPattern.TypedAll rs vars ps → CheckedPattern.ScopedAll vars ps g →
      d.Safe rs arity → d.Shows g → ps.length = vs.length →
        (∀ v ∈ vs, v.Legible rs arity d.locals) →
          Follows rs arity d (matchAll rs arity vars.size ps vs) (Lower.matchAll rs ps vs)
  | [], g, [], d, _, _, h, _, _, _ => follows_pure h ()
  | p :: ps, g, v :: vs, d, ⟨hp, hps⟩, ⟨hscope, hscopes⟩, h, hg, hlength, hvs => by
      obtain ⟨hv, hvs⟩ := List.forall_mem_cons.mp hvs
      have hfirst := follows_matchPattern hrs hvars p hp hscope h hg hv
      refine hfirst.bind (follows_matchAll hrs hvars ps hps hscopes hfirst.safe ?_
        (Nat.succ.inj hlength) fun w hw => (hvs w hw).mono hfirst.later)
      exact (Lower.effect_matchPattern rs p v).shows hg vars (List.Subset.refl _)

end

theorem gives_build (hrs : rs.Linked) {d : Draft} (h : d.Safe rs arity) {t : TermId}
    {types : List TypeId} {ret : TypeId}
    (happlies : rs.Applies t types ret fun info => info.constructor ≠ .missing)
    {args : List Value} (hlength : args.length = types.length)
    (hargs : Value.LegibleAll rs arity d.locals args) :
    Gives rs arity d (build rs t args) (Lower.build rs t args) := by
  obtain ⟨info, hinfo, rfl, rfl, hmissing⟩ := happlies
  have hcall : ∀ {v : Value}, v.Legible rs arity d.locals →
      Gives rs arity d (lift (Lower.call info v)) (Lower.call info v) := by
    intro v hv
    unfold Gives Lower.call
    cases info.isPartial with
    | false => exact ⟨follows_lift h.markContext (List.Subset.refl _), hv⟩
    | true =>
      have hkept := follows_newLocal h.markContext none true (by simp) hv
      exact ⟨follows_lift hkept.safe hkept.later, List.mem_append_right _ List.mem_cons_self⟩
  unfold Gives build Lower.build
  rw [RuleSet.termInfo_of_get? hinfo]
  cases hc : info.constructor with
  | missing => exact absurd hc hmissing
  | variant ref =>
    obtain ⟨variant, hvariant, hfields⟩ := variant?_of_linked hrs hinfo hc
    have hcount : args.length ≤ variant.fields.length := by rw [hlength, hfields]
    refine ⟨.found hinfo ?_, ⟨variant, hvariant, hcount⟩, hargs⟩
    rw [hc]
    exact .found hvariant (.ensure hcount (follows_pure h _))
  | external function loc =>
    have hbuilt := hcall (v := .contextBuild t args) ⟨⟨info, function, loc, hinfo, hc⟩, hargs⟩
    refine ⟨.found hinfo ?_, hbuilt.2⟩
    rw [hc]
    exact hbuilt.1
  | internal loc =>
    have hbuilt := hcall (v := .construct t args) ⟨⟨info, hinfo⟩, hargs⟩
    refine ⟨.found hinfo ?_, hbuilt.2⟩
    rw [hc]
    exact hbuilt.1

mutual

theorem gives_expr (hrs : rs.Linked) (hvars : Known rs vars) : ∀ (e : CheckedExpr) {g : Visible}
    {d : Draft}, e.Typed rs vars → e.Scoped vars g → d.Safe rs arity → d.Shows g →
      Gives rs arity d (expr rs arity vars.size e) (Lower.expr rs e)
  | .var _ x, g, d, ht, hx, h, hg => gives_getVar h (lt_size_of_hasVar ht) (hg.mem hx)
  | .int _ n, g, d, _, _, h, _ => ⟨follows_pure h _, trivial⟩
  | .bool _ b, g, d, _, _, h, _ => ⟨follows_pure h _, trivial⟩
  | .call _ t args, g, d, ⟨happlies, hargs⟩, hscope, h, hg => by
      obtain ⟨hfollows, hlength, hlegible⟩ := gives_exprs hrs hvars args hargs hscope h hg
      have hbuilt := gives_build hrs hfollows.safe happlies
        (by rw [hlength, List.length_map]) hlegible
      exact ⟨hfollows.bind hbuilt.1, hbuilt.2⟩
  | .letIn _ bs body, g, d, ⟨_, hbs, hbody⟩, ⟨hscopes, hscope⟩, h, hg => by
      have hbindings := follows_bindings hrs hvars bs hbs hscopes h hg
      have hshows := (Lower.effect_bindings rs bs).shows hg vars
        (CheckedExpr.vars_subset_definedIn bs)
      have hvalue := gives_expr hrs hvars body hbody hscope hbindings.safe hshows
      exact ⟨hbindings.bind hvalue.1, hvalue.2⟩

theorem gives_exprs (hrs : rs.Linked) (hvars : Known rs vars) : ∀ (es : List CheckedExpr)
    {g : Visible} {d : Draft}, CheckedExpr.TypedAll rs vars es → CheckedExpr.ScopedAll vars es g →
      d.Safe rs arity → d.Shows g →
        Follows rs arity d (exprs rs arity vars.size es) (Lower.exprs rs es) ∧
          ((Lower.exprs rs es).run d).1.length = es.length ∧
          Value.LegibleAll rs arity ((Lower.exprs rs es).run d).2.locals
            ((Lower.exprs rs es).run d).1
  | [], g, d, _, _, h, _ => ⟨follows_pure h _, rfl, trivial⟩
  | e :: es, g, d, ⟨he, hes⟩, ⟨hscope, hscopes⟩, h, hg => by
      obtain ⟨hfirst, hv⟩ := gives_expr hrs hvars e he hscope h hg
      have hshows := (Lower.effect_expr rs e).shows hg vars (List.nil_subset _)
      let first := (Lower.expr rs e).run d
      obtain ⟨hrest, hlength, hvs⟩ := gives_exprs hrs hvars es hes hscopes
        (hfirst.safe.mark first.1) (hshows.mark first.1)
      have hrun : (Lower.exprs rs (e :: es)).run d =
          (first.1 :: ((Lower.exprs rs es).run (first.2.mark first.1)).1,
            ((Lower.exprs rs es).run (first.2.mark first.1)).2) := by
        rw [Lower.exprs, Lower.run_bind, Lower.run_bind, Lower.run_use, Lower.run_bind,
          Lower.run_pure]
      refine ⟨hfirst.bind (.use hfirst.safe hv (hrest.bind (follows_pure hrest.safe _))), ?_, ?_⟩
      · rw [hrun]
        exact congrArg (· + 1) hlength
      · rw [hrun]
        refine ⟨hv.mono ?_, hvs⟩
        rw [← Draft.mark_locals first.2 first.1]
        exact hrest.later

theorem follows_bindings (hrs : rs.Linked) (hvars : Known rs vars) :
    ∀ (bs : List (CheckedBinding CheckedExpr)) {g : Visible} {d : Draft},
      CheckedExpr.TypedIn rs vars bs → CheckedExpr.ScopedIn vars bs g → d.Safe rs arity →
        d.Shows g →
          Follows rs arity d (bindings rs arity vars.size bs) (Lower.bindings rs bs)
  | [], g, d, _, _, h, _ => follows_pure h ()
  | ⟨x, value⟩ :: bs, g, d, ⟨hx, htyped, hbs⟩, ⟨hscope, hscopes⟩, h, hg => by
      obtain ⟨info, hinfo⟩ := hvars.type hx
      obtain ⟨hfirst, hv⟩ := gives_expr hrs hvars value htyped hscope h hg
      have hshows := (Lower.effect_expr rs value).shows hg vars (List.nil_subset _)
      let first := (Lower.expr rs value).run d
      let marked := first.2.mark first.1
      have hmarked : marked.Safe rs arity := hfirst.safe.mark first.1
      have hkept := follows_newLocal hmarked (some value.type) (v := first.1) false
        (fun id hid => Option.some.inj hid ▸ ⟨info, hinfo⟩) (by rwa [Draft.mark_locals])
      let kept := marked.keep (some value.type) first.1 false
      have htemp : (Value.temp marked.nextTemp).Legible rs arity kept.locals :=
        List.mem_append_right _ List.mem_cons_self
      have hset := follows_setVar hkept.safe (lt_size_of_hasVar hx) htemp
      have hshows' : kept.Shows g := Draft.Shows.mark hshows first.1
      refine hfirst.bind (.use hfirst.safe hv (.found hinfo (hkept.bind (hset.bind
        (follows_bindings hrs hvars bs hbs hscopes hset.safe ?_)))))
      exact (Lower.effect_setVar x (.temp marked.nextTemp)).shows hshows' vars
        (List.Subset.refl _)

end

theorem follows_guard (hrs : rs.Linked) (hvars : Known rs vars) {c : CheckedGuard} {g : Visible}
    {d : Draft} (ht : c.Typed rs vars) (hvalue : c.value.Scoped vars g)
    (hpattern : c.pattern.Scoped vars g) (h : d.Safe rs arity) (hg : d.Shows g) :
    Follows rs arity d (guard rs arity vars.size c) (Lower.guard rs c) := by
  obtain ⟨hfirst, hv⟩ := gives_expr hrs hvars c.value ht.1 hvalue h hg
  have hshows := (Lower.effect_expr rs c.value).shows hg vars (List.nil_subset _)
  rw [Lower.guard_eq]
  refine hfirst.bind ?_
  unfold Lower.matchGuard
  split_ifs
  · refine .use hfirst.safe hv (follows_emit (hfirst.safe.mark _) ?_ rfl)
    rwa [Draft.mark_locals]
  · exact follows_matchPattern hrs hvars c.pattern ht.2.1 hpattern hfirst.safe hshows hv

theorem follows_guards (hrs : rs.Linked) (hvars : Known rs vars) (gs : List CheckedGuard)
    {g : Visible} {d : Draft} (ht : ∀ c ∈ gs, c.Typed rs vars)
    (hscope : CheckedGuard.ScopedAll vars gs g) (h : d.Safe rs arity) (hg : d.Shows g) :
    Follows rs arity d (guards rs arity vars.size gs) (Lower.guards rs gs) := by
  induction gs generalizing g d with
  | nil => exact follows_pure h ()
  | cons c gs ih =>
    obtain ⟨hc, hgs⟩ := List.forall_mem_cons.mp ht
    obtain ⟨hvalue, hpattern, hscopes⟩ := hscope
    have hfirst := follows_guard hrs hvars hc hvalue hpattern h hg
    refine hfirst.bind (ih hgs hscopes hfirst.safe ?_)
    exact (Lower.effect_guard rs c).shows hg vars (List.subset_append_right _ _)

theorem safe_discards {d : Draft} (h : d.Safe rs arity) :
    Draft.Safe rs arity { d with body := d.body ++ d.discards } where
  vars := h.vars
  declared := by
    dsimp only
    rw [List.filterMap_append, Lower.discards_declared, List.append_nil]
    exact h.declared
  body := by
    have hdiscards : ∀ temps : List Nat, temps ⊆ d.locals →
        LegibleFrom rs arity d.locals (temps.map fun temp => .discard (.temp temp)) := by
      intro temps hsub
      induction temps with
      | nil => trivial
      | cons temp temps ih =>
        have hrest := ih fun i hi => hsub (List.mem_cons_of_mem temp hi)
        refine ⟨hsub List.mem_cons_self, ?_⟩
        have hlocals : d.locals ++ (Statement.discard (.temp temp)).declared?.toList = d.locals :=
          List.append_nil d.locals
        rwa [hlocals]
    dsimp only
    rw [legibleFrom_append, h.declared]
    exact ⟨h.body, hdiscards _ (List.filter_subset_self _)⟩

theorem follows_return {d : Draft} (h : d.Safe rs arity) {v : Value}
    (hv : v.Legible rs arity d.locals) :
    Follows rs arity d (lift Lower.discardUnused >>= fun _ => lift (Lower.emit (.ret v)))
      (Lower.discardUnused >>= fun _ => Lower.emit (.ret v)) := by
  have hdiscards := safe_discards h
  exact (follows_lift hdiscards (List.Subset.refl _)).bind (follows_emit hdiscards hv rfl)

theorem follows_rule (hrs : rs.Linked) {r : CheckedRule} (hwf : r.WellFormed rs)
    (hvars : Known rs r.vars) (harity : r.args.length ≤ arity) {d : Draft} (h : d.Safe rs arity) :
    Follows rs arity d (rule rs arity r) (Lower.rule rs r) := by
  obtain ⟨-, hargs, hguards, hresult⟩ := hwf.wellTyped
  obtain ⟨hscope, hscopes, hscoped⟩ := hwf.wellScoped
  have hlength : r.args.length = ((List.range r.args.length).map Value.param).length := by
    rw [List.length_map, List.length_range]
  have hmatched := follows_matchAll hrs hvars r.args hargs hscope h (fun p hp => by cases hp)
    hlength (by
      intro v hv
      obtain ⟨i, hi, rfl⟩ := List.mem_map.mp hv
      exact Nat.lt_of_lt_of_le (List.mem_range.mp hi) harity)
  have hshows := (Lower.effect_matchAll rs r.args hlength).shows (d := d) (g := [])
    (fun p hp => by cases hp) r.vars (List.Subset.refl _)
  have hguarded := follows_guards hrs hvars r.guards hguards hscopes hmatched.safe hshows
  have hbound : CheckedGuard.boundAll r.guards ⊆ r.guards.flatMap CheckedGuard.defined := by
    intro v hv
    obtain ⟨c, hc, hv⟩ := List.mem_flatMap.mp hv
    exact List.mem_flatMap.mpr ⟨c, hc, List.mem_append_right _ hv⟩
  have hshows' := (Lower.effect_guards rs r.guards).shows hshows r.vars hbound
  obtain ⟨hvalue, hv⟩ := gives_expr hrs hvars r.result hresult hscoped hguarded.safe hshows'
  refine hmatched.bind (hguarded.bind (hvalue.bind (.use hvalue.safe hv ?_)))
  exact follows_return (hvalue.safe.mark _) (by rwa [Draft.mark_locals])

theorem run_block (hrs : rs.Linked) {r : CheckedRule} (hwf : r.WellFormed rs)
    (hvars : Known rs r.vars) (harity : r.args.length ≤ arity) (index : Nat) (d : Draft) :
    (block rs arity index r).run d = some ((Lower.block rs index r).run d) ∧
      LegibleFrom rs arity [] ((Lower.block rs index r).run d).1.body := by
  have hrestart : d.restart.Safe rs arity := Draft.safe_restart d
  have hrule := follows_rule hrs hwf hvars harity hrestart
  refine ⟨?_, hrule.safe.body⟩
  have hrun : (block rs arity index r).run d =
      (rule rs arity r >>= fun _ => do return ⟨index, r.name, (← get).body⟩).run d.restart := rfl
  rw [hrun, run_bind_of_eq hrule.run]
  rfl

theorem run_blocks (hrs : rs.Linked) (rules : List CheckedRule)
    (hrules : ∀ r ∈ rules, r.WellFormed rs ∧ Known rs r.vars ∧ r.args.length ≤ arity)
    (index : Nat) (d : Draft) :
    (blocks rs arity index rules).run d = some ((Lower.blocks rs index rules).run d) ∧
      ∀ b ∈ ((Lower.blocks rs index rules).run d).1.1, LegibleFrom rs arity [] b.body := by
  induction rules generalizing index d with
  | nil => exact ⟨rfl, fun b hb => by cases hb⟩
  | cons r rules ih =>
    obtain ⟨⟨hwf, hvars, harity⟩, hrest⟩ := List.forall_mem_cons.mp hrules
    obtain ⟨hfirst, hlegible⟩ := run_block hrs hwf hvars harity index d
    rw [blocks, Lower.blocks, run_bind_of_eq hfirst, Lower.run_bind]
    split_ifs
    · obtain ⟨hmore, hmoreLegible⟩ := ih hrest (index + 1) ((Lower.block rs index r).run d).2
      rw [run_bind_of_eq hmore, Lower.run_bind]
      exact ⟨rfl, List.forall_mem_cons.mpr ⟨hlegible, hmoreLegible⟩⟩
    · exact ⟨rfl, fun b hb => by rwa [List.mem_singleton.mp hb]⟩

end Checked

end Guarded

end Zig

end TermRules

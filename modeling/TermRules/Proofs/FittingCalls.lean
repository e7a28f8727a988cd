import TermRules.Proofs.Binders
import TermRules.Proofs.CallUses
import TermRules.Proofs.Meaning

/-!
# Lowering writes fitting calls

All uses in the statements of a draft fit, and so do those that its variables may
still have. The lowering of a pattern, an expression or a rule keeps this up,
since what it lowers is well typed.
-/

namespace TermRules

namespace Zig

namespace Draft

variable (rs : RuleSet) (vars : Array VarInfo)

structure Offers (d : Draft) (v : Value) (type : TypeId) : Prop where
  read : Fit rs d.body (v.uses .read)
  negated : type = boolType → v.Fits rs d.body .negated

/-- All uses in the draft fit, and those that its variables may still have. -/
structure Closed (d : Draft) : Prop where
  body : Fit rs d.body (d.body.flatMap Statement.uses)
  vars : ∀ p ∈ d.vars, ∀ type, HasVar vars p.1 type → d.Offers rs p.2 type

variable {rs vars} {d d' : Draft} {v : Value} {type : TypeId}

theorem Offers.later (h : d.Offers rs v type) (hsub : d.body ⊆ d'.body) : d'.Offers rs v type :=
  ⟨h.read.mono hsub, fun htype => (h.negated htype).mono hsub⟩

theorem Offers.fit_negated (h : d.Offers rs v boolType) : Fit rs d.body (v.uses .negated) :=
  fit_uses.mpr ⟨h.negated rfl, (fit_uses.mp h.read).2⟩

theorem offers_plain (h : Fit rs d.body (v.uses .read))
    (plain : v.Fits rs d.body .read → v.Fits rs d.body .negated) : d.Offers rs v type :=
  ⟨h, fun _ => plain (fit_uses.mp h).1⟩

theorem offers_leaf (hfits : ∀ use, v.Fits rs d.body use) (hparts : v.parts = []) :
    d.Offers rs v type :=
  ⟨fit_leaf (hfits .read) hparts, fun _ => hfits .negated⟩

theorem offers_temp (i : Nat) : d.Offers rs (.temp i) type := offers_leaf (fun _ => trivial) rfl

theorem Closed.congr (h : d.Closed rs vars) (hbody : d'.body = d.body) (hvars : d'.vars = d.vars) :
    d'.Closed rs vars where
  body := by
    rw [hbody]
    exact h.body
  vars p hp type htype := by
    rw [hvars] at hp
    exact (h.vars p hp type htype).later (by rw [hbody]; exact List.Subset.refl _)

theorem Closed.getVar (h : d.Closed rs vars) {x : VarId} (hx : HasVar vars x type) :
    d.Offers rs (d.getVar x) type := by
  unfold Draft.getVar
  cases hlookup : d.vars.lookup x with
  | none => exact offers_leaf (fun _ => trivial) rfl
  | some v =>
    obtain ⟨l, r, hvars, -⟩ := List.lookup_eq_some_iff.mp hlookup
    refine h.vars (x, v) ?_ type hx
    rw [hvars]
    simp

end Draft

namespace Lower

variable (rs : RuleSet) (vars : Array VarInfo)

def Closes (d d' : Draft) : Prop := d'.Closed rs vars ∧ d.body ⊆ d'.body

variable {rs vars}

section Writing

variable {d d' d'' : Draft} {v : Value} {type : TypeId}

theorem Closes.trans (h : Closes rs vars d d') (h' : Closes rs vars d' d'') :
    Closes rs vars d d'' := ⟨h'.1, List.Subset.trans h.2 h'.2⟩

theorem closes_of_eq (h : d.Closed rs vars) (hbody : d'.body = d.body)
    (hvars : d'.vars = d.vars) : Closes rs vars d d' :=
  ⟨h.congr hbody hvars, by rw [hbody]; exact List.Subset.refl _⟩

theorem closes_mark (h : d.Closed rs vars) (v : Value) : Closes rs vars d (d.mark v) :=
  closes_of_eq h (Draft.mark_body d v) (Draft.mark_vars d v)

theorem closes_markContext (h : d.Closed rs vars) (v : Value) :
    Closes rs vars d (d.markContext.mark v) :=
  closes_of_eq h (Draft.mark_body d.markContext v) (Draft.mark_vars d.markContext v)

theorem closes_emit (h : d.Closed rs vars) {t : Statement} (ht : Fit rs d.body t.uses) :
    Closes rs vars d (d.emit t) := by
  have hsub : d.body ⊆ (d.emit t).body := List.subset_append_left _ _
  refine ⟨⟨?_, fun p hp type htype => (h.vars p hp type htype).later hsub⟩, hsub⟩
  rw [Draft.emit_body, List.flatMap_append, List.flatMap_singleton]
  exact fit_append.mpr ⟨h.body.mono hsub, ht.mono hsub⟩

theorem closes_keep (h : d.Closed rs vars) (type : Option TypeId) (orBreak : Bool)
    (hv : Fit rs d.body (v.uses (if orBreak then .unwrapped else .read))) :
    Closes rs vars d (d.keep type v orBreak) := by
  have hemit := closes_emit h (t := .const d.nextTemp type v orBreak) hv
  exact hemit.trans (closes_of_eq hemit.1 rfl rfl)

theorem closes_write (h : d.Closed rs vars) (v : Value) {t : Statement}
    (ht : Fit rs d.body t.uses) : Closes rs vars d ((d.mark v).emit t) := by
  have hmark := closes_mark h v
  exact hmark.trans (closes_emit hmark.1 (ht.mono hmark.2))

theorem closes_setVar (h : d.Closed rs vars) {x : VarId} (hx : HasVar vars x type)
    (hv : d.Offers rs v type) : Closes rs vars d (d.setVar x v) := by
  have hsub : d.body ⊆ (d.setVar x v).body := List.Subset.refl _
  refine ⟨⟨h.body, fun p hp type' hx' => ?_⟩, hsub⟩
  rw [Draft.setVar_vars, List.mem_cons] at hp
  rcases hp with rfl | hp
  · rw [hasVar_inj hx' hx]
    exact hv.later hsub
  · exact (h.vars p hp type' hx').later hsub

theorem offers_payloads {ref : VariantRef} {count : Nat} (hv : Fit rs d.body (v.uses .read)) :
    ∀ w ∈ payloads v ref count, d.Offers rs w type := by
  intro w hw
  obtain ⟨i, -, rfl⟩ := List.mem_map.mp hw
  refine Draft.offers_plain (fit_uses.mpr ⟨trivial, ?_⟩) id
  exact List.forall_mem_cons.mpr (fit_uses.mp hv)

theorem offers_results {temp : Nat} {found : Option TypeId} {term : TermId} {arg : Value}
    {orBreak : Bool} {info : TermInfo}
    (hmem : .const temp found (.contextMatch term arg) orBreak ∈ d.body)
    (hget : rs.terms.get? term = some info)
    (hextractor : ∃ function infallible loc, info.extractor = .external function infallible loc) :
    ∀ w ∈ results (.temp temp) info.args.length, d.Offers rs w type := by
  intro w hw
  unfold results at hw
  split_ifs at hw with hone
  · rw [List.mem_singleton.mp hw]
    exact Draft.offers_temp temp
  · obtain ⟨i, hi, rfl⟩ := List.mem_map.mp hw
    refine Draft.offers_plain (fit_uses.mpr ⟨?_, ?_⟩) id
    · exact ⟨temp, found, term, arg, orBreak, info, rfl, hmem, hget, hextractor, hone,
        List.mem_range.mp hi⟩
    · exact List.forall_mem_cons.mpr (fit_uses.mp (fit_leaf trivial rfl))

section Calls

variable {t : TermId} {info : TermInfo} {function : Bytes} {infallible : Bool} {loc : Loc}
variable (hget : rs.terms.get? t = some info)
variable (he : info.extractor = .external function infallible loc)

include hget he

theorem fit_contextMatch {body : List Statement} (hv : Fit rs body (v.uses .read)) {use : Use}
    (hunwrapped : use = .unwrapped ↔ infallible = false ∧ info.args ≠ [])
    (hnegated : use = .negated → info.args = []) :
    Fit rs body ((Value.contextMatch t v).uses use) := by
  refine fit_uses.mpr ⟨?_, List.forall_mem_cons.mpr (fit_uses.mp hv)⟩
  exact ⟨info, function, infallible, loc, hget, he, hunwrapped, hnegated⟩

theorem closes_matchCall (hnone : info.args = []) (h : d.Closed rs vars)
    (hv : Fit rs d.body (v.uses .read)) :
    Closes rs vars d ((d.markContext.mark v).emit
      (if infallible then .discard (.contextMatch t v)
        else .breakIf (.isFalse (.contextMatch t v)))) := by
  have hcall := closes_markContext h v
  have hread := hv.mono hcall.2
  refine hcall.trans (closes_emit hcall.1 ?_)
  cases infallible with
  | true => exact fit_contextMatch hget he hread (by simp) (by simp)
  | false => exact fit_contextMatch hget he hread (by simp [hnone]) fun _ => hnone

theorem closes_matchResults (hsome : info.args ≠ []) (h : d.Closed rs vars)
    (hv : Fit rs d.body (v.uses .read)) :
    Closes rs vars d ((d.markContext.mark v).keep none (.contextMatch t v) (!infallible)) := by
  have hcall := closes_markContext h v
  have hread := hv.mono hcall.2
  refine hcall.trans (closes_keep hcall.1 none (!infallible) ?_)
  cases infallible with
  | true => exact fit_contextMatch hget he hread (by simp) (by simp)
  | false => exact fit_contextMatch hget he hread (by simp [hsome]) (by simp)

end Calls

end Writing

mutual

theorem closes_matchPattern : ∀ (p : CheckedPattern) {v : Value} {d : Draft}, p.Typed rs vars →
    d.Closed rs vars → d.Offers rs v p.type → Closes rs vars d ((matchPattern rs p v).run d).2
  | .wildcard _, v, d, _, h, _ => ⟨h, List.Subset.refl _⟩
  | .bind _ x, v, d, ht, h, hv => closes_setVar h ht hv
  | .bindAs s x sub, v, d, ⟨hx, htype, hsub⟩, h, hv => by
      have hset := closes_setVar h hx hv
      rw [matchPattern, run_bind, run_setVar]
      refine hset.trans (closes_matchPattern sub hsub hset.1 ?_)
      rw [htype]
      exact hv.later hset.2
  | .equal s x, v, d, ht, h, hv => by
      have hx := h.getVar ht
      have hboth := closes_mark h v
      rw [matchPattern, run_bind, run_getVar, run_bind, run_use, run_bind, run_use, run_emit]
      refine hboth.trans (closes_write hboth.1 _ ?_)
      rw [Draft.mark_body]
      have huses := fit_append.mpr ⟨hv.read, hx.read⟩
      cases (rs.typeInfo s.type).shape.isEnum <;> exact huses
  | .int _ n, v, d, _, h, hv => by
      rw [matchPattern, run_bind, run_use, run_emit]
      apply closes_write h
      exact fit_append.mpr ⟨hv.read, fit_leaf trivial rfl⟩
  | .bool s b, v, d, ht, h, hv => by
      have htype : s.type = boolType := ht
      rw [CheckedPattern.type, CheckedPattern.site, htype] at hv
      rw [matchPattern, run_bind, run_use, run_emit]
      apply closes_write h
      cases b with
      | true => exact hv.fit_negated
      | false => exact hv.read
  | .variant _ t args, v, d, ⟨_, hargs⟩, h, hv => by
      have htest := closes_write h v (t := .breakIf (.otherTag v (variantOf rs t))) hv.read
      rw [matchPattern, run_bind, run_use, run_bind, run_emit]
      refine htest.trans (closes_matchAll args hargs htest.1 fun p _ => ?_)
      exact offers_payloads (hv.read.mono htest.2)
  | .extractor s t args, v, d, ⟨⟨info, hget, htypes, hret, hextractor⟩, hargs⟩, h, hv => by
      obtain ⟨function, infallible, loc, he⟩ := hextractor
      have hinfallible : isInfallible rs t = infallible :=
        isInfallible_eq (by rw [RuleSet.termInfo_of_get? hget, he])
      cases args with
      | nil =>
        rw [run_extractor_nil, hinfallible]
        exact closes_matchCall hget he htypes h hv.read
      | cons p ps =>
        have hlength : (p :: ps).length = info.args.length := by rw [htypes, List.length_map]
        have hkept := closes_matchResults hget he (by simp [htypes]) h hv.read
        rw [run_extractor_cons, hinfallible, hlength]
        refine hkept.trans (closes_matchAll (p :: ps) hargs hkept.1 fun q _ => ?_)
        apply offers_results (List.mem_append_right _ List.mem_cons_self) hget
        exact ⟨function, infallible, loc, he⟩
  | .all s parts, v, d, ⟨htypes, hparts⟩, h, hv => by
      rw [matchPattern]
      refine closes_matchAll parts hparts h fun p hp w hw => ?_
      obtain ⟨-, -, rfl⟩ := List.mem_map.mp hw
      rw [htypes p hp]
      exact hv

theorem closes_matchAll : ∀ (ps : List CheckedPattern) {vs : List Value} {d : Draft},
    CheckedPattern.TypedAll rs vars ps → d.Closed rs vars →
      (∀ p ∈ ps, ∀ v ∈ vs, d.Offers rs v p.type) →
        Closes rs vars d ((matchAll rs ps vs).run d).2
  | [], vs, d, _, h, _ => ⟨h, List.Subset.refl _⟩
  | p :: ps, [], d, _, h, _ => ⟨h, List.Subset.refl _⟩
  | p :: ps, v :: vs, d, ⟨hp, hps⟩, h, hvs => by
      have hfirst := closes_matchPattern p hp h (hvs p List.mem_cons_self v List.mem_cons_self)
      rw [matchAll, run_bind]
      refine hfirst.trans (closes_matchAll ps hps hfirst.1 fun q hq w hw => ?_)
      exact (hvs q (List.mem_cons_of_mem p hq) w (List.mem_cons_of_mem v hw)).later hfirst.2

end

variable (rs vars) in
def Gives (type : TypeId) (d : Draft) (r : Value × Draft) : Prop :=
  Closes rs vars d r.2 ∧ r.2.Offers rs r.1 type

section Values

variable {d d' : Draft} {v : Value} {type : TypeId}

theorem Gives.later {r : Value × Draft} (h : Gives rs vars type d' r)
    (hd : Closes rs vars d d') : Gives rs vars type d r := ⟨hd.trans h.1, h.2⟩

theorem gives_pure (h : d.Closed rs vars) (hv : d.Offers rs v type) :
    Gives rs vars type d (v, d) := ⟨⟨h, List.Subset.refl _⟩, hv⟩

theorem gives_call (h : d.Closed rs vars) {term : TermInfo}
    (hv : ∀ use, (use = .unwrapped ↔ term.isPartial = true) →
      (use = .negated → type = boolType) → Fit rs d.body (v.uses use)) :
    Gives rs vars type d ((call term v).run d) := by
  rw [call, run_bind, run_useContext]
  split_ifs with hpartial
  · have hkept := closes_keep (d := d.markContext) (h.congr rfl rfl) none true
      (hv .unwrapped (by simp [hpartial]) (by simp))
    exact ⟨hkept, Draft.offers_temp _⟩
  · have hread := hv .read (by simp [hpartial]) (by simp)
    refine ⟨⟨h.congr rfl rfl, List.Subset.refl _⟩, hread, fun htype => ?_⟩
    exact (fit_uses.mp (hv .negated (by simp [hpartial]) fun _ => htype)).1

theorem gives_build (h : d.Closed rs vars) {t : TermId} {types : List TypeId}
    (happlies : rs.Applies t types type fun info => info.constructor ≠ .missing)
    {args : List Value} (hlength : args.length = types.length)
    (hargs : ∀ v ∈ args, Fit rs d.body (v.uses .read)) :
    Gives rs vars type d ((build rs t args).run d) := by
  obtain ⟨info, hget, rfl, rfl, hmissing⟩ := happlies
  have hparts := fit_partsAll.mpr hargs
  unfold build
  rw [RuleSet.termInfo_of_get? hget]
  cases hc : info.constructor with
  | missing => exact absurd hc hmissing
  | variant ref =>
    exact gives_pure h (Draft.offers_plain (fit_uses.mpr ⟨trivial, hparts⟩) id)
  | external function loc =>
    refine gives_call h fun use hunwrapped hnegated => fit_uses.mpr ⟨?_, hparts⟩
    exact ⟨info, hget, ⟨function, loc, hc⟩, hlength, hunwrapped, hnegated⟩
  | internal loc =>
    refine gives_call h fun use hunwrapped _ => fit_uses.mpr ⟨?_, hparts⟩
    exact ⟨info, hget, ⟨loc, hc⟩, hlength, hunwrapped⟩

end Values

mutual

theorem gives_expr : ∀ (e : CheckedExpr) {d : Draft}, e.Typed rs vars → d.Closed rs vars →
    Gives rs vars e.type d ((expr rs e).run d)
  | .var _ x, d, ht, h => gives_pure h (h.getVar ht)
  | .int _ n, d, _, h => gives_pure h (Draft.offers_leaf (fun _ => trivial) rfl)
  | .bool _ b, d, _, h => gives_pure h (Draft.offers_leaf (fun _ => trivial) rfl)
  | .call s t args, d, ⟨happlies, htyped⟩, h => by
      obtain ⟨hargs, hlength, hread⟩ := gives_exprs args htyped h
      rw [expr_call, run_bind]
      refine (gives_build hargs.1 happlies ?_ hread).later hargs
      rw [hlength, List.length_map]
  | .letIn s bs body, d, ⟨htype, hbs, hbody⟩, h => by
      have hbindings := closes_bindings bs hbs h
      have hvalue := gives_expr body hbody hbindings.1
      rw [htype] at hvalue
      rw [expr, run_bind]
      exact hvalue.later hbindings

theorem gives_exprs : ∀ (es : List CheckedExpr) {d : Draft}, CheckedExpr.TypedAll rs vars es →
    d.Closed rs vars →
      Closes rs vars d ((exprs rs es).run d).2 ∧
        ((exprs rs es).run d).1.length = es.length ∧
        ∀ v ∈ ((exprs rs es).run d).1, Fit rs ((exprs rs es).run d).2.body (v.uses .read)
  | [], d, _, h => ⟨⟨h, List.Subset.refl _⟩, rfl, fun v hv => by cases hv⟩
  | e :: es, d, ⟨he, hes⟩, h => by
      obtain ⟨hfirst, hoffers⟩ := gives_expr e he h
      let first := (expr rs e).run d
      have hmark := closes_mark hfirst.1 first.1
      obtain ⟨hrest, hlength, hread⟩ := gives_exprs es hes hmark.1
      rw [exprs, run_bind, run_bind, run_use, run_bind, run_pure]
      refine ⟨(hfirst.trans hmark).trans hrest, congrArg (· + 1) hlength, ?_⟩
      exact List.forall_mem_cons.mpr
        ⟨hoffers.read.mono (List.Subset.trans hmark.2 hrest.2), hread⟩

theorem closes_bindings : ∀ (bs : List (CheckedBinding CheckedExpr)) {d : Draft},
    CheckedExpr.TypedIn rs vars bs → d.Closed rs vars →
      Closes rs vars d ((bindings rs bs).run d).2
  | [], d, _, h => ⟨h, List.Subset.refl _⟩
  | ⟨x, value⟩ :: bs, d, ⟨hx, htyped, hbs⟩, h => by
      obtain ⟨hvalue, hoffers⟩ := gives_expr value htyped h
      let first := (expr rs value).run d
      have hmark := closes_mark hvalue.1 first.1
      have hkept := closes_keep hmark.1 (some value.type) false (hoffers.read.mono hmark.2)
      have hset := closes_setVar hkept.1 hx (Draft.offers_temp (first.2.mark first.1).nextTemp)
      have hrest := closes_bindings bs hbs hset.1
      rw [bindings, run_bind, run_bind, run_use, run_bind, run_newLocal, run_bind, run_setVar]
      exact (((hvalue.trans hmark).trans hkept).trans hset).trans hrest

end

theorem closes_matchGuard (g : CheckedGuard) {v : Value} {d : Draft}
    (hp : g.pattern.Typed rs vars) (h : d.Closed rs vars) (hv : d.Offers rs v g.pattern.type) :
    Closes rs vars d ((matchGuard rs g v).run d).2 := by
  unfold matchGuard
  split_ifs
  · rw [run_bind, run_use, run_emit]
    exact closes_write h v hv.read
  · exact closes_matchPattern g.pattern hp h hv

theorem closes_guards (gs : List CheckedGuard) {d : Draft} (hgs : ∀ g ∈ gs, g.Typed rs vars)
    (h : d.Closed rs vars) : Closes rs vars d ((guards rs gs).run d).2 := by
  induction gs generalizing d with
  | nil => exact ⟨h, List.Subset.refl _⟩
  | cons g gs ih =>
    obtain ⟨⟨hvalue, hpattern, htype⟩, hrest⟩ := List.forall_mem_cons.mp hgs
    obtain ⟨hclosed, hoffers⟩ := gives_expr g.value hvalue h
    rw [← htype] at hoffers
    have hguard := closes_matchGuard g hpattern hclosed.1 hoffers
    rw [guards, run_bind, guard_eq, run_bind]
    exact (hclosed.trans hguard).trans (ih hrest hguard.1)

theorem gives_ruleValue {r : CheckedRule} (hr : r.Typed rs) {d : Draft}
    (h : d.Closed rs r.vars) : Gives rs r.vars r.result.type d ((ruleValue rs r).run d) := by
  obtain ⟨-, hargs, hguards, hresult⟩ := hr
  have hmatched : Closes rs r.vars d
      ((matchAll rs r.args ((List.range r.args.length).map .param)).run d).2 := by
    apply closes_matchAll r.args hargs h
    intro p _ v hv
    obtain ⟨i, -, rfl⟩ := List.mem_map.mp hv
    exact Draft.offers_leaf (fun _ => trivial) rfl
  have hguarded := closes_guards r.guards hguards hmatched.1
  rw [ruleValue, run_bind, run_bind]
  exact (gives_expr r.result hresult hguarded.1).later (hmatched.trans hguarded)

theorem closed_restart (d : Draft) (vars : Array VarInfo) : d.restart.Closed rs vars where
  body o ho := by cases ho
  vars p hp := by cases hp

theorem fit_discards (d : Draft) (body : List Statement) :
    Fit rs body (d.discards.flatMap Statement.uses) := by
  intro o ho
  obtain ⟨t, ht, ho⟩ := List.mem_flatMap.mp ho
  obtain ⟨i, -, rfl⟩ := List.mem_map.mp ht
  rw [List.mem_singleton.mp ho]
  trivial

theorem fit_block {r : CheckedRule} (hr : r.Typed rs) (index : Nat) (d : Draft) :
    Fit rs ((block rs index r).run d).1.body ((block rs index r).run d).1.uses := by
  obtain ⟨hclosed, hoffers⟩ := gives_ruleValue hr (closed_restart d r.vars)
  have hbody : (ruleDraft rs r d.restart).body = ((ruleValue rs r).run d.restart).2.body :=
    Draft.mark_body _ _
  rw [Block.uses, body_block, hbody, List.flatMap_append, List.flatMap_append, List.append_assoc]
  have hsub := List.subset_append_left ((ruleValue rs r).run d.restart).2.body
    ((ruleDraft rs r d.restart).discards ++ [.ret ((ruleValue rs r).run d.restart).1])
  rw [List.flatMap_singleton]
  refine fit_append.mpr ⟨fit_append.mpr ⟨hclosed.1.body.mono hsub, fit_discards _ _⟩, ?_⟩
  exact hoffers.read.mono hsub

end Lower

end Zig

end TermRules

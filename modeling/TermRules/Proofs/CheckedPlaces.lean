import TermRules.Proofs.RecursionFree
import TermRules.Proofs.SyntaxPlaces

/-!
# Places of checked rules

A check of a pattern, an expression or a rule fails at a place of what it checks
or of a template. What it answers has no other places.
-/

namespace TermRules

mutual

def CheckedPattern.places : CheckedPattern → List Loc
  | .wildcard s | .bind s _ | .equal s _ | .int s _ | .bool s _ => [s.loc]
  | .bindAs s _ sub => s.loc :: sub.places
  | .variant s _ args | .extractor s _ args | .all s args => s.loc :: placesAll args

def CheckedPattern.placesAll : List CheckedPattern → List Loc
  | [] => []
  | p :: ps => p.places ++ placesAll ps

end

mutual

def CheckedExpr.places : CheckedExpr → List Loc
  | .var s _ | .int s _ | .bool s _ => [s.loc]
  | .call s _ args => s.loc :: placesAll args
  | .letIn s bindings body => s.loc :: (placesIn bindings ++ body.places)

def CheckedExpr.placesAll : List CheckedExpr → List Loc
  | [] => []
  | e :: es => e.places ++ placesAll es

def CheckedExpr.placesIn : List (CheckedBinding CheckedExpr) → List Loc
  | [] => []
  | ⟨_, value⟩ :: bs => value.places ++ placesIn bs

end

def CheckedGuard.places (g : CheckedGuard) : List Loc := g.pattern.places ++ g.value.places

def CheckedRule.places (r : CheckedRule) : List Loc :=
  r.loc :: (CheckedPattern.placesAll r.args ++
    (r.guards.flatMap CheckedGuard.places ++ r.result.places))

namespace Check

/-- The check fails at one of the places, or its answer has the property. -/
def ReportsIn {α : Type} (L : List Loc) (Q : α → Prop) (x : Check α) : Prop :=
  ∀ s, match x.run s with
    | .ok a _ => Q a
    | .error e _ => e.loc ∈ L

section ReportsIn

variable {α β : Type} {L : List Loc} {Q : α → Prop} {R : β → Prop} {loc : Loc}

theorem reportsIn_pure {a : α} (h : Q a) : ReportsIn L Q (pure a) := fun _ => h

theorem reportsIn_failAt (h : loc ∈ L) (fault : SemanticFault) :
    ReportsIn L Q (failAt loc fault) := fun _ => h

theorem ReportsIn.bind {x : Check α} {k : α → Check β} (hx : ReportsIn L Q x)
    (hk : ∀ a, Q a → ReportsIn L R (k a)) : ReportsIn L R (x >>= k) := by
  intro s
  have hs := hx s
  rw [EStateM.run_bind]
  cases hrun : x.run s with
  | ok a t =>
    rw [hrun] at hs
    exact hk a hs t
  | error e t =>
    rw [hrun] at hs
    exact hs

theorem reportsIn_get {k : Scope → Check β} (h : ∀ scope, ReportsIn L R (k scope)) :
    ReportsIn L R (get >>= k) := fun s => h s s

theorem reportsIn_modify {f : Scope → Scope} {k : Unit → Check β} (h : ReportsIn L R (k ())) :
    ReportsIn L R (modify f >>= k) := fun s => h (f s)

theorem reportsIn_bindVar {name : Bytes} {type : TypeId} {k : VarId → Check β}
    (h : ∀ v, ReportsIn L R (k v)) : ReportsIn L R (bindVar name type >>= k) :=
  fun s => h s.vars.size (s.bind name type)

theorem reportsIn_require {k : Unit → Check β} (condition : Bool) (hloc : loc ∈ L)
    (fault : SemanticFault) (h : ReportsIn L R (k ())) :
    ReportsIn L R (require condition loc fault >>= k) := by
  cases condition with
  | true => exact h
  | false => exact fun _ => hloc

theorem reportsIn_ensureTypeIf {k : Unit → Check β} (rs : RuleSet) (hloc : loc ∈ L)
    (subject : Subject) (found : TypeId) (expected : Option TypeId) (h : ReportsIn L R (k ())) :
    ReportsIn L R (ensureTypeIf rs loc subject found expected >>= k) := by
  cases expected with
  | none => exact h
  | some type => exact reportsIn_require _ hloc _ h

theorem reportsIn_findTerm {k : TermId → Check β} {rs : RuleSet} (hloc : loc ∈ L) {name : Bytes}
    (h : ∀ id info, rs.terms.get? id = some info → ReportsIn L R (k id)) :
    ReportsIn L R (findTerm rs loc name >>= k) := by
  rw [findTerm]
  cases hfind : rs.terms.find? name with
  | none => exact fun _ => hloc
  | some id =>
    obtain ⟨info, hinfo, -⟩ := Table.get?_of_find? hfind
    exact h id info hinfo

end ReportsIn

section Patterns

variable {rs : RuleSet} {ts : List Template} {L : List Loc}

def ExpandsIn (L : List Loc) (expand : Loc → TermId → Pattern → TypeId → Check CheckedPattern) :
    Prop :=
  ∀ loc id p type, loc ∈ L → p.places ⊆ L →
    ReportsIn L (fun c => c.places ⊆ L) (expand loc id p type)

mutual

theorem reportsIn_patternWith (hts : Templated rs ts) (hplaces : ∀ t ∈ ts, t.places ⊆ L)
    {expand : Loc → TermId → Pattern → TypeId → Check CheckedPattern}
    (hexpand : ExpandsIn L expand) : ∀ (p : Pattern) (type : TypeId), p.places ⊆ L →
      ReportsIn L (fun c => c.places ⊆ L) (patternWith rs expand p type)
  | .wildcard loc, type, h => reportsIn_pure h
  | .bool loc value, type, h => reportsIn_require _ (List.cons_subset.mp h).1 _ (reportsIn_pure h)
  | .int loc value, type, h => reportsIn_require _ (List.cons_subset.mp h).1 _ (reportsIn_pure h)
  | .var loc name, type, h => by
    refine reportsIn_get fun scope => ?_
    cases scope.find? name with
    | some v => exact reportsIn_require _ (List.cons_subset.mp h).1 _ (reportsIn_pure h)
    | none => exact reportsIn_bindVar fun v => reportsIn_pure h
  | .bind loc name sub, type, h => by
    rw [Pattern.places, List.cons_subset] at h
    refine reportsIn_get fun scope => reportsIn_require _ h.1 _ ?_
    refine reportsIn_bindVar fun v => ?_
    refine (reportsIn_patternWith hts hplaces hexpand sub type h.2).bind fun c hc => ?_
    refine reportsIn_pure ?_
    exact List.cons_subset.mpr ⟨h.1, hc⟩
  | .all loc parts, type, h => by
    rw [Pattern.places, List.cons_subset] at h
    refine (reportsIn_patternsWith hts hplaces hexpand parts _ h.2).bind fun cs hcs => ?_
    refine reportsIn_pure ?_
    exact List.cons_subset.mpr ⟨h.1, hcs⟩
  | .term loc name args, type, h => by
    rw [Pattern.places, List.cons_subset] at h
    obtain ⟨hloc, hargs⟩ := h
    refine reportsIn_findTerm hloc fun id info hinfo => ?_
    refine reportsIn_require _ hloc _ (reportsIn_require _ hloc _ ?_)
    have hcheck := reportsIn_patternsWith hts hplaces hexpand args (rs.termInfo id).args hargs
    rw [RuleSet.termInfo_of_get? hinfo] at hcheck ⊢
    cases hextractor : info.extractor with
    | missing => exact reportsIn_failAt hloc _
    | template index place =>
      obtain ⟨t, ht, hindex, -⟩ := hts id info index place hinfo hextractor
      dsimp only
      rw [hindex]
      refine hexpand loc id _ type hloc (Template.places_instantiate (hplaces t ht) ?_)
      exact Pattern.placesAll_subset_iff.mp hargs
    | variant ref =>
      exact hcheck.bind fun cs hcs => reportsIn_pure (List.cons_subset.mpr ⟨hloc, hcs⟩)
    | external function infallible place =>
      exact hcheck.bind fun cs hcs => reportsIn_pure (List.cons_subset.mpr ⟨hloc, hcs⟩)

theorem reportsIn_patternsWith (hts : Templated rs ts) (hplaces : ∀ t ∈ ts, t.places ⊆ L)
    {expand : Loc → TermId → Pattern → TypeId → Check CheckedPattern}
    (hexpand : ExpandsIn L expand) : ∀ (ps : List Pattern) (types : List TypeId),
      Pattern.placesAll ps ⊆ L →
      ReportsIn L (fun cs => CheckedPattern.placesAll cs ⊆ L) (patternsWith rs expand ps types)
  | p :: ps, type :: types, h => by
    rw [Pattern.placesAll, List.append_subset] at h
    refine (reportsIn_patternWith hts hplaces hexpand p type h.1).bind fun c hc => ?_
    refine (reportsIn_patternsWith hts hplaces hexpand ps types h.2).bind fun cs hcs => ?_
    refine reportsIn_pure ?_
    exact List.append_subset.mpr ⟨hc, hcs⟩
  | [], _, _ => reportsIn_pure (List.nil_subset L)
  | _ :: _, [], _ => reportsIn_pure (List.nil_subset L)

end

variable (hts : Templated rs ts) (hplaces : ∀ t ∈ ts, t.places ⊆ L)
include hts hplaces

theorem reportsIn_patternInside (room : Nat) (expanding : List TermId) (p : Pattern)
    (type : TypeId) (h : p.places ⊆ L) :
    ReportsIn L (fun c => c.places ⊆ L) (patternInside rs room expanding p type) := by
  induction room generalizing expanding p type with
  | zero =>
    exact reportsIn_patternWith hts hplaces
      (fun loc id p type hloc _ => reportsIn_failAt hloc _) p type h
  | succ room ih =>
    refine reportsIn_patternWith hts hplaces (fun loc id q type hloc hq => ?_) p type h
    split_ifs
    · exact reportsIn_failAt hloc _
    · exact ih (id :: expanding) q type hq

theorem reportsIn_pattern {p : Pattern} (type : TypeId) (h : p.places ⊆ L) :
    ReportsIn L (fun c => c.places ⊆ L) (pattern rs p type) :=
  reportsIn_patternInside hts hplaces rs.terms.size [] p type h

end Patterns

section Expressions

variable (rs : RuleSet) {L : List Loc}

mutual

theorem reportsIn_expr : ∀ (e : Expr) (expected : Option TypeId), e.places ⊆ L →
    ReportsIn L (fun c => c.places ⊆ L) (expr rs e expected)
  | .var loc name, expected, h => by
    refine reportsIn_get fun scope => ?_
    cases scope.find? name with
    | some v => exact reportsIn_ensureTypeIf rs (List.cons_subset.mp h).1 _ _ _ (reportsIn_pure h)
    | none => exact reportsIn_failAt (List.cons_subset.mp h).1 _
  | .bool loc value, expected, h =>
    reportsIn_ensureTypeIf rs (List.cons_subset.mp h).1 _ _ _ (reportsIn_pure h)
  | .int loc value, some type, h =>
    reportsIn_require _ (List.cons_subset.mp h).1 _ (reportsIn_pure h)
  | .int loc value, none, h => reportsIn_failAt (List.cons_subset.mp h).1 _
  | .term loc name args, expected, h => by
    rw [Expr.places, List.cons_subset] at h
    obtain ⟨hloc, hargs⟩ := h
    refine reportsIn_findTerm hloc fun id info _ => ?_
    refine reportsIn_require _ hloc _ (reportsIn_ensureTypeIf rs hloc _ _ _ ?_)
    refine reportsIn_require _ hloc _ ?_
    refine (reportsIn_exprs args _ hargs).bind fun cs hcs => reportsIn_pure ?_
    exact List.cons_subset.mpr ⟨hloc, hcs⟩
  | .letIn loc bs body, expected, h => by
    rw [Expr.places, List.cons_subset, List.append_subset] at h
    obtain ⟨hloc, hbs, hbody⟩ := h
    refine reportsIn_get fun scope => ?_
    refine (reportsIn_bindings bs hbs).bind fun checked hchecked => ?_
    refine (reportsIn_expr body expected hbody).bind fun c hc => ?_
    refine reportsIn_modify (reportsIn_pure ?_)
    exact List.cons_subset.mpr ⟨hloc, List.append_subset.mpr ⟨hchecked, hc⟩⟩

theorem reportsIn_exprs : ∀ (es : List Expr) (types : List TypeId), Expr.placesAll es ⊆ L →
    ReportsIn L (fun cs => CheckedExpr.placesAll cs ⊆ L) (exprs rs es types)
  | e :: es, type :: types, h => by
    rw [Expr.placesAll, List.append_subset] at h
    refine (reportsIn_expr e (some type) h.1).bind fun c hc => ?_
    refine (reportsIn_exprs es types h.2).bind fun cs hcs => reportsIn_pure ?_
    exact List.append_subset.mpr ⟨hc, hcs⟩
  | [], _, _ => reportsIn_pure (List.nil_subset L)
  | _ :: _, [], _ => reportsIn_pure (List.nil_subset L)

theorem reportsIn_bindings : ∀ bs : List (Binding Expr), Expr.placesIn bs ⊆ L →
    ReportsIn L (fun cs => CheckedExpr.placesIn cs ⊆ L) (bindings rs bs)
  | [], _ => reportsIn_pure (List.nil_subset L)
  | ⟨name, typeName, value⟩ :: rest, h => by
    rw [Expr.placesIn, List.cons_subset, List.cons_subset, List.append_subset] at h
    obtain ⟨-, htype, hvalue, hrest⟩ := h
    rw [bindings]
    cases rs.types.find? typeName.name with
    | none => exact reportsIn_failAt htype _
    | some type =>
      refine (reportsIn_expr value (some type) hvalue).bind fun c hc => ?_
      refine reportsIn_bindVar fun v => ?_
      refine (reportsIn_bindings rest hrest).bind fun cs hcs => reportsIn_pure ?_
      exact List.append_subset.mpr ⟨hc, hcs⟩

end

end Expressions

def RefusedIn {α : Type} (L : List Loc) (Q : α → Prop) : Except (List SemanticError) α → Prop
  | .ok a => Q a
  | .error es => ∀ e ∈ es, e.loc ∈ L

section Rules

variable {rs : RuleSet} {ts : List Template} {L : List Loc}

theorem places_ruleRoot (rs : RuleSet) {p : Pattern} (h : p.places ⊆ L) :
    match ruleRoot rs p with
    | .ok (_, args) => ∀ a ∈ args, a.places ⊆ L
    | .error e => e.loc ∈ L := by
  have hloc : p.loc ∈ L := by
    cases p <;> exact h List.mem_cons_self
  cases hroot : ruleRoot rs p with
  | ok found =>
    obtain ⟨loc, name, info, rfl, -⟩ := ruleRoot_ok hroot
    exact Pattern.placesAll_subset_iff.mp (List.cons_subset.mp h).2
  | error e =>
    suffices he : e.loc = p.loc by rwa [← he] at hloc
    cases p with
    | term loc name args =>
      simp only [ruleRoot] at hroot
      split at hroot
      · cases hroot
        rfl
      · split at hroot
        · cases hroot
          rfl
        · cases hroot
          rfl
        · split_ifs at hroot
          cases hroot
          rfl
    | _ =>
      cases hroot
      rfl

section Templates

variable (hts : Templated rs ts) (hplaces : ∀ t ∈ ts, t.places ⊆ L)
include hts hplaces

theorem places_rootArgs (ps : List Pattern) (types : List TypeId) (scope : Scope)
    (h : ∀ p ∈ ps, p.places ⊆ L) :
    (∀ e ∈ (rootArgs rs ps types scope).1, e.loc ∈ L) ∧
      CheckedPattern.placesAll (rootArgs rs ps types scope).2.1 ⊆ L := by
  induction ps generalizing types scope with
  | nil => exact ⟨by simp [rootArgs], List.nil_subset L⟩
  | cons p ps ih =>
    obtain ⟨hp, hps⟩ := List.forall_mem_cons.mp h
    cases types with
    | nil => exact ⟨by simp [rootArgs], List.nil_subset L⟩
    | cons type types =>
      have hcheck := reportsIn_pattern hts hplaces type hp scope
      rw [rootArgs]
      cases hrun : (pattern rs p type).run scope with
      | ok c scope' =>
        rw [hrun] at hcheck
        obtain ⟨herrors, hcs⟩ := ih types scope' hps
        exact ⟨herrors, List.append_subset.mpr ⟨hcheck, hcs⟩⟩
      | error e scope' =>
        rw [hrun] at hcheck
        obtain ⟨herrors, hcs⟩ := ih types scope' hps
        exact ⟨List.forall_mem_cons.mpr ⟨hcheck, herrors⟩, hcs⟩

theorem reportsIn_guards (gs : List Guard) (h : gs.flatMap Guard.places ⊆ L) :
    ReportsIn L (fun cs => cs.flatMap CheckedGuard.places ⊆ L) (guards rs gs) := by
  induction gs with
  | nil => exact reportsIn_pure (List.nil_subset L)
  | cons g gs ih =>
    rw [List.flatMap_cons, List.append_subset, Guard.places, List.cons_subset,
      List.append_subset] at h
    obtain ⟨⟨-, hpattern, hvalue⟩, hgs⟩ := h
    refine (reportsIn_expr rs g.value none hvalue).bind fun value hvalue => ?_
    refine (reportsIn_pattern hts hplaces _ hpattern).bind fun pattern hpattern => ?_
    refine (ih hgs).bind fun rest hrest => reportsIn_pure ?_
    rw [List.flatMap_cons, List.append_subset]
    exact ⟨List.append_subset.mpr ⟨hpattern, hvalue⟩, hrest⟩

theorem reportsIn_ruleBody {r : Rule} (hguards : r.guards.flatMap Guard.places ⊆ L)
    (hresult : r.result.places ⊆ L) (ret : TypeId) :
    ReportsIn L (fun body => body.1.flatMap CheckedGuard.places ++ body.2.places ⊆ L)
      (ruleBody rs r ret) := by
  refine (reportsIn_guards hts hplaces r.guards hguards).bind fun gs hgs => ?_
  refine (reportsIn_expr rs r.result _ hresult).bind fun result hresult => reportsIn_pure ?_
  exact List.append_subset.mpr ⟨hgs, hresult⟩

theorem refusedIn_rule {r : Rule} (h : r.places ⊆ L) (order : Nat) :
    RefusedIn L (fun c => c.places ⊆ L) (rule rs r order) := by
  rw [Rule.places, List.cons_subset, List.append_subset, List.append_subset,
    List.append_subset] at h
  obtain ⟨hloc, -, hpattern, hguards, hresult⟩ := h
  have hroot := places_ruleRoot rs hpattern
  rw [rule]
  cases hr : ruleRoot rs r.pattern with
  | error e =>
    rw [hr] at hroot
    exact List.forall_mem_singleton.mpr hroot
  | ok found =>
    obtain ⟨root, patterns⟩ := found
    rw [hr] at hroot
    have hargs := places_rootArgs hts hplaces patterns (rs.termInfo root).args .empty hroot
    dsimp only
    rcases ha : rootArgs rs patterns (rs.termInfo root).args .empty with ⟨_ | ⟨e, es⟩, args, scope⟩
    · rw [ha] at hargs
      have hbody := reportsIn_ruleBody hts hplaces hguards hresult (rs.termInfo root).ret scope
      dsimp only
      cases hrun : (ruleBody rs r (rs.termInfo root).ret).run scope with
      | error e scope' =>
        rw [hrun] at hbody
        exact List.forall_mem_singleton.mpr hbody
      | ok body scope' =>
        rw [hrun] at hbody
        exact List.cons_subset.mpr ⟨hloc, List.append_subset.mpr ⟨hargs.2, hbody⟩⟩
    · rw [ha] at hargs
      exact hargs.1

end Templates

end Rules

end Check

end TermRules

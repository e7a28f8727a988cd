import TermRules.Proofs.Growth

/-!
# Well-formed checked rules

A checked rule is read in the order in which it is lowered: the argument
patterns, then the expression and the pattern of each guard, then the result. In
this order the rule defines its variables one after the other, every occurrence
of a variable means the innermost visible one of its name, and every node has
the type that the declarations ask for.
-/

namespace TermRules

mutual

def CheckedPattern.defined : CheckedPattern → List VarId
  | .bind _ v => [v]
  | .bindAs _ v sub => v :: sub.defined
  | .variant _ _ args | .extractor _ _ args => definedAll args
  | .all _ parts => definedAll parts
  | _ => []

def CheckedPattern.definedAll : List CheckedPattern → List VarId
  | [] => []
  | p :: ps => p.defined ++ definedAll ps

end

mutual

def CheckedExpr.defined : CheckedExpr → List VarId
  | .call _ _ args => definedAll args
  | .letIn _ bs body => definedIn bs ++ body.defined
  | _ => []

def CheckedExpr.definedAll : List CheckedExpr → List VarId
  | [] => []
  | e :: es => e.defined ++ definedAll es

def CheckedExpr.definedIn : List (CheckedBinding CheckedExpr) → List VarId
  | [] => []
  | ⟨v, value⟩ :: bs => value.defined ++ v :: definedIn bs

end

theorem CheckedExpr.vars_subset_definedIn : ∀ (bs : List (CheckedBinding CheckedExpr)),
    bs.map CheckedBinding.var ⊆ definedIn bs
  | [] => List.nil_subset _
  | ⟨v, value⟩ :: bs => by
      rw [List.map_cons, definedIn]
      refine List.Subset.trans ?_ (List.subset_append_right _ _)
      exact List.cons_subset_cons v (vars_subset_definedIn bs)

def CheckedGuard.defined (g : CheckedGuard) : List VarId := g.value.defined ++ g.pattern.defined

def CheckedRule.defined (r : CheckedRule) : List VarId :=
  CheckedPattern.definedAll r.args ++ r.guards.flatMap CheckedGuard.defined ++ r.result.defined

abbrev Visible := List (Bytes × VarId)

namespace Visible

variable (vars : Array VarInfo)

def nameOf (v : VarId) : Bytes := ((vars[v]?).getD default).name

def bind (g : Visible) (vs : List VarId) : Visible :=
  vs.foldl (fun g v => (nameOf vars v, v) :: g) g

/-- The variable is the innermost visible one of its name. -/
def Denotes (g : Visible) (v : VarId) : Prop := g.lookup (nameOf vars v) = some v

theorem bind_nil (g : Visible) : g.bind vars [] = g := rfl

theorem bind_append (g : Visible) (vs ws : List VarId) :
    g.bind vars (vs ++ ws) = (g.bind vars vs).bind vars ws := List.foldl_append

end Visible

section Scoping

variable (vars : Array VarInfo)

mutual

def CheckedPattern.Scoped : CheckedPattern → Visible → Prop
  | .bindAs _ v sub, g => sub.Scoped (g.bind vars [v])
  | .equal _ v, g => g.Denotes vars v
  | .variant _ _ args, g | .extractor _ _ args, g => ScopedAll args g
  | .all _ parts, g => ScopedAll parts g
  | _, _ => True

def CheckedPattern.ScopedAll : List CheckedPattern → Visible → Prop
  | [], _ => True
  | p :: ps, g => p.Scoped g ∧ ScopedAll ps (g.bind vars p.defined)

end

mutual

/-- The variables of a `let` are visible in its later bindings and in its body only. -/
def CheckedExpr.Scoped : CheckedExpr → Visible → Prop
  | .var _ v, g => g.Denotes vars v
  | .call _ _ args, g => ScopedAll args g
  | .letIn _ bs body, g =>
      ScopedIn bs g ∧ body.Scoped (g.bind vars (bs.map CheckedBinding.var))
  | _, _ => True

def CheckedExpr.ScopedAll : List CheckedExpr → Visible → Prop
  | [], _ => True
  | e :: es, g => e.Scoped g ∧ ScopedAll es g

def CheckedExpr.ScopedIn : List (CheckedBinding CheckedExpr) → Visible → Prop
  | [], _ => True
  | ⟨v, value⟩ :: bs, g => value.Scoped g ∧ ScopedIn bs (g.bind vars [v])

end

def CheckedGuard.ScopedAll : List CheckedGuard → Visible → Prop
  | [], _ => True
  | g :: gs, visible =>
      g.value.Scoped vars visible ∧ g.pattern.Scoped vars visible ∧
        ScopedAll gs (visible.bind vars g.pattern.defined)

end Scoping

def CheckedGuard.boundAll (gs : List CheckedGuard) : List VarId :=
  gs.flatMap fun g => g.pattern.defined

def CheckedRule.Scoped (r : CheckedRule) : Prop :=
  let visible := Visible.bind r.vars [] (CheckedPattern.definedAll r.args)
  CheckedPattern.ScopedAll r.vars r.args [] ∧ CheckedGuard.ScopedAll r.vars r.guards visible ∧
    r.result.Scoped r.vars (visible.bind r.vars (CheckedGuard.boundAll r.guards))

def CheckedPattern.type (p : CheckedPattern) : TypeId := p.site.type

def HasVar (vars : Array VarInfo) (v : VarId) (type : TypeId) : Prop :=
  (vars[v]?).map VarInfo.type = some type

theorem hasVar_inj {vars : Array VarInfo} {v : VarId} {type type' : TypeId}
    (h : HasVar vars v type) (h' : HasVar vars v type') : type = type' :=
  Option.some.inj (h.symm.trans h')

def RuleSet.Applies (rs : RuleSet) (term : TermId) (args : List TypeId) (ret : TypeId)
    (P : TermInfo → Prop) : Prop :=
  ∃ info, rs.terms.get? term = some info ∧ info.args = args ∧ info.ret = ret ∧ P info

section Typing

variable (rs : RuleSet) (vars : Array VarInfo)

mutual

def CheckedPattern.Typed : CheckedPattern → Prop
  | .wildcard _ => True
  | .bind s v => HasVar vars v s.type
  | .bindAs s v sub => HasVar vars v s.type ∧ sub.type = s.type ∧ sub.Typed
  | .equal s v => HasVar vars v s.type
  | .int s _ => (rs.typeInfo s.type).shape.isPrimitive = true
  | .bool s _ => s.type = boolType
  | .variant s t args =>
      rs.Applies t (args.map CheckedPattern.type) s.type
        (fun info => ∃ ref, info.extractor = .variant ref) ∧ TypedAll args
  | .extractor s t args =>
      rs.Applies t (args.map CheckedPattern.type) s.type
        (fun info => ∃ function infallible loc,
          info.extractor = .external function infallible loc) ∧ TypedAll args
  | .all s parts => (∀ p ∈ parts, p.type = s.type) ∧ TypedAll parts

def CheckedPattern.TypedAll : List CheckedPattern → Prop
  | [] => True
  | p :: ps => p.Typed ∧ TypedAll ps

end

mutual

def CheckedExpr.Typed : CheckedExpr → Prop
  | .var s v => HasVar vars v s.type
  | .int s _ => (rs.typeInfo s.type).shape.isPrimitive = true
  | .bool s _ => s.type = boolType
  | .call s t args =>
      rs.Applies t (args.map CheckedExpr.type) s.type (fun info => info.constructor ≠ .missing) ∧
        TypedAll args
  | .letIn s bs body => body.type = s.type ∧ TypedIn bs ∧ body.Typed

def CheckedExpr.TypedAll : List CheckedExpr → Prop
  | [] => True
  | e :: es => e.Typed ∧ TypedAll es

def CheckedExpr.TypedIn : List (CheckedBinding CheckedExpr) → Prop
  | [] => True
  | ⟨v, value⟩ :: bs => HasVar vars v value.type ∧ value.Typed ∧ TypedIn bs

end

def CheckedGuard.Typed (g : CheckedGuard) : Prop :=
  g.value.Typed rs vars ∧ g.pattern.Typed rs vars ∧ g.pattern.type = g.value.type

end Typing

def CheckedRule.TypedAt (rs : RuleSet) (r : CheckedRule) (P : TermInfo → Prop) : Prop :=
  rs.Applies r.root (r.args.map CheckedPattern.type) r.result.type P ∧
    CheckedPattern.TypedAll rs r.vars r.args ∧ (∀ g ∈ r.guards, g.Typed rs r.vars) ∧
    r.result.Typed rs r.vars

def TermInfo.TakesRules (info : TermInfo) : Prop :=
  (∀ ref, info.constructor ≠ .variant ref) ∧
    ∀ function loc, info.constructor ≠ .external function loc

/-- The root is a term that rules are written for, with one argument pattern for each of its
arguments. -/
def CheckedRule.Typed (rs : RuleSet) (r : CheckedRule) : Prop :=
  rs.Applies r.root (r.args.map CheckedPattern.type) r.result.type
      (fun info => ∃ loc, info.constructor = .internal loc) ∧
    CheckedPattern.TypedAll rs r.vars r.args ∧ (∀ g ∈ r.guards, g.Typed rs r.vars) ∧
    r.result.Typed rs r.vars

structure CheckedRule.WellFormed (rs : RuleSet) (r : CheckedRule) : Prop where
  numbered : r.defined = List.range r.vars.size
  wellScoped : r.Scoped
  wellTyped : r.Typed rs

section Growth

variable {rs rs' : RuleSet} {vars : Array VarInfo}

theorem RuleSet.Applies.mono {term : TermId} {args : List TypeId} {ret : TypeId}
    {P : TermInfo → Prop} (hg : rs.Grows rs') (h : rs.Applies term args ret P)
    (hP : ∀ info info', info.Grows info' → P info → P info') : rs'.Applies term args ret P := by
  obtain ⟨info, hget, hargs, hret, hp⟩ := h
  obtain ⟨info', hget', hinfo⟩ := hg.terms hget
  exact ⟨info', hget', hinfo.args_eq.trans hargs, hinfo.ret_eq.trans hret, hP _ _ hinfo hp⟩

mutual

theorem CheckedPattern.Typed.mono (hg : rs.Grows rs') :
    ∀ {p : CheckedPattern}, p.Typed rs vars → p.Typed rs' vars
  | .wildcard _, _ => trivial
  | .bind _ _, h => h
  | .bindAs _ _ _, ⟨hv, ht, hs⟩ => ⟨hv, ht, hs.mono hg⟩
  | .equal _ _, h => h
  | .int _ _, h => hg.isPrimitive h
  | .bool _ _, h => h
  | .variant _ _ _, ⟨ha, hs⟩ => by
      refine ⟨ha.mono hg fun info info' hi ⟨ref, hr⟩ => ⟨ref, ?_⟩, TypedAll.mono hg hs⟩
      rw [hi.extractor_eq (by simp [hr]), hr]
  | .extractor _ _ _, ⟨ha, hs⟩ => by
      refine ⟨ha.mono hg fun info info' hi ⟨f, b, l, hr⟩ => ⟨f, b, l, ?_⟩, TypedAll.mono hg hs⟩
      rw [hi.extractor_eq (by simp [hr]), hr]
  | .all _ _, ⟨ht, hs⟩ => ⟨ht, TypedAll.mono hg hs⟩

theorem CheckedPattern.TypedAll.mono (hg : rs.Grows rs') :
    ∀ {ps : List CheckedPattern}, TypedAll rs vars ps → TypedAll rs' vars ps
  | [], _ => trivial
  | _ :: _, ⟨hp, hps⟩ => ⟨hp.mono hg, TypedAll.mono hg hps⟩

end

mutual

theorem CheckedExpr.Typed.mono (hg : rs.Grows rs') :
    ∀ {e : CheckedExpr}, e.Typed rs vars → e.Typed rs' vars
  | .var _ _, h => h
  | .int _ _, h => hg.isPrimitive h
  | .bool _ _, h => h
  | .call _ _ _, ⟨ha, hs⟩ => by
      refine ⟨ha.mono hg fun info info' hi hc => ?_, TypedAll.mono hg hs⟩
      rwa [hi.constructor_eq hc]
  | .letIn _ _ _, ⟨ht, hs, hb⟩ => ⟨ht, TypedIn.mono hg hs, hb.mono hg⟩

theorem CheckedExpr.TypedAll.mono (hg : rs.Grows rs') :
    ∀ {es : List CheckedExpr}, TypedAll rs vars es → TypedAll rs' vars es
  | [], _ => trivial
  | _ :: _, ⟨he, hes⟩ => ⟨he.mono hg, TypedAll.mono hg hes⟩

theorem CheckedExpr.TypedIn.mono (hg : rs.Grows rs') :
    ∀ {bs : List (CheckedBinding CheckedExpr)}, TypedIn rs vars bs → TypedIn rs' vars bs
  | [], _ => trivial
  | ⟨_, _⟩ :: _, ⟨hv, he, hbs⟩ => ⟨hv, he.mono hg, TypedIn.mono hg hbs⟩

end

theorem CheckedRule.WellFormed.mono {r : CheckedRule} (hg : rs.Grows rs')
    (h : r.WellFormed rs) : r.WellFormed rs' := by
  obtain ⟨hroot, hargs, hguards, hresult⟩ := h.wellTyped
  refine ⟨h.numbered, h.wellScoped, ?_, hargs.mono hg, fun g hmem => ?_, hresult.mono hg⟩
  · refine hroot.mono hg fun info info' hi ⟨loc, hc⟩ => ⟨loc, ?_⟩
    rw [hi.constructor_eq (by simp [hc]), hc]
  · obtain ⟨hv, hp, ht⟩ := hguards g hmem
    exact ⟨hv.mono hg, hp.mono hg, ht⟩

end Growth

end TermRules

import Mathlib.Data.List.Basic
import TermRules.Proofs.Renumbering

/-!
# Checks under renumbering

A check reads a rule set through names and through numbers that it was given. In
a renumbered rule set it therefore takes the same turns: it answers with the
renumbered result, or it stops at the same fault.
-/

namespace TermRules

section Templates

variable (move : Loc → Loc)

def Substitution.relocate (σ : Substitution) : Substitution :=
  σ.map (Prod.map id (Pattern.relocate move))

namespace Pattern

mutual

theorem subst_relocate (σ : Substitution) : ∀ p : Pattern,
    (p.relocate move).subst (σ.relocate move) = (p.subst σ).relocate move
  | .wildcard _ | .int _ _ | .bool _ _ => rfl
  | .var loc name => by
    rw [relocate, subst, subst, Substitution.relocate, lookup_map_snd]
    cases σ.lookup name <;> rfl
  | .bind loc name sub => by
    rw [relocate, subst, subst, subst_relocate σ sub, Substitution.relocate, lookup_map_snd]
    cases σ.lookup name <;> rfl
  | .term loc name args => congrArg (term (move loc) name) (substAll_relocate σ args)
  | .all loc parts => congrArg (all (move loc)) (substAll_relocate σ parts)

theorem substAll_relocate (σ : Substitution) : ∀ ps : List Pattern,
    substAll (σ.relocate move) (relocateAll move ps) = relocateAll move (substAll σ ps)
  | [] => rfl
  | p :: ps => congrArg₂ List.cons (subst_relocate σ p) (substAll_relocate σ ps)

end

end Pattern

theorem Template.instantiate_relocate (t : Template) (args : List Pattern) :
    (t.relocate move).instantiate (args.map (Pattern.relocate move)) =
      (t.instantiate args).relocate move := by
  have hσ : (t.relocate move).substitution (args.map (Pattern.relocate move)) =
      (t.substitution args).relocate move := by
    rw [substitution, substitution, Substitution.relocate, Template.relocate, List.map_map,
      List.zip_map_right]
    rfl
  rw [instantiate, hσ]
  exact Pattern.subst_relocate move _ t.body

end Templates

def SemanticError.relocate (move : Loc → Loc) (e : SemanticError) : SemanticError :=
  { e with loc := move e.loc }

def Scope.renumber (ρ : Renumbering) (s : Scope) : Scope :=
  { s with vars := s.vars.map (VarInfo.renumber ρ) }

namespace Check

variable (ρ : Renumbering) {α α' β β' : Type}

/-- A check and the one that answers for it in the renumbered rule set. -/
def Carries (f : α → α') (x : Check α) (x' : Check α') : Prop :=
  ∀ s : Scope, x'.run (s.renumber ρ) =
    match x.run s with
    | .ok a t => .ok (f a) (t.renumber ρ)
    | .error e t => .error (e.relocate ρ.move) (t.renumber ρ)

variable {ρ} {f : α → α'} {g : β → β'}

theorem carries_pure {a : α} {a' : α'} (h : a' = f a) : Carries ρ f (pure a) (pure a') := by
  intro s
  rw [h]
  rfl

theorem Carries.bind {x : Check α} {x' : Check α'} {k : α → Check β} {k' : α' → Check β'}
    (h : Carries ρ f x x') (hk : ∀ a, Carries ρ g (k a) (k' (f a))) :
    Carries ρ g (x >>= k) (x' >>= k') := by
  intro s
  rw [EStateM.run_bind, EStateM.run_bind, h s]
  cases x.run s with
  | ok a t => exact hk a t
  | error e t => rfl

theorem carries_get : Carries ρ (Scope.renumber ρ) get get := fun _ => rfl

theorem carries_failAt (loc : Loc) (fault : SemanticFault) :
    Carries ρ f (failAt loc fault) (failAt (ρ.move loc) fault) := fun _ => rfl

theorem carries_require {c c' : Bool} (hc : c' = c) {loc : Loc} {fault fault' : SemanticFault}
    (hf : fault' = fault) :
    Carries ρ id (require c loc fault) (require c' (ρ.move loc) fault') := by
  rw [hc, hf]
  cases c <;> exact fun _ => rfl

theorem size_renumber (s : Scope) : (s.renumber ρ).vars.size = s.vars.size := Array.size_map

theorem bind_renumber (s : Scope) (name : Bytes) (type : TypeId) :
    (s.renumber ρ).bind name (ρ.type type) = (s.bind name type).renumber ρ := by
  rw [Scope.bind, size_renumber, Scope.bind, Scope.renumber, Scope.renumber, Array.map_push]
  rfl

theorem carries_bindVar (name : Bytes) (type : TypeId) :
    Carries ρ id (bindVar name type) (bindVar name (ρ.type type)) := by
  intro s
  have hrun : (bindVar name (ρ.type type)).run (s.renumber ρ) =
      .ok (s.renumber ρ).vars.size ((s.renumber ρ).bind name (ρ.type type)) := rfl
  rw [hrun, size_renumber, bind_renumber]
  rfl

theorem find?_renumber (s : Scope) (name : Bytes) : (s.renumber ρ).find? name = s.find? name := rfl

theorem typeOf_renumber (s : Scope) (v : VarId) :
    (s.renumber ρ).typeOf v = ρ.type (s.typeOf v) := by
  rw [Scope.typeOf, Scope.typeOf, Scope.renumber, Array.getElem?_map]
  cases s.vars[v]? with
  | some info => rfl
  | none => exact ρ.type_bool.symm

section RuleSets

variable {rs rs' : RuleSet} (h : rs.Renumbered ρ rs')
include h

theorem carries_ensureType (loc : Loc) (subject : Subject) (found expected : TypeId) :
    Carries ρ id (ensureType rs loc subject found expected)
      (ensureType rs' (ρ.move loc) subject (ρ.type found) (ρ.type expected)) := by
  refine carries_require ?_ ?_
  · rw [decide_eq_decide, ρ.type.apply_eq_iff_eq]
  · rw [h.typeName, h.typeName]

theorem carries_ensureTypeIf (loc : Loc) (subject : Subject) (found : TypeId) :
    ∀ expected : Option TypeId, Carries ρ id (ensureTypeIf rs loc subject found expected)
      (ensureTypeIf rs' (ρ.move loc) subject (ρ.type found) (expected.map ρ.type))
  | none => carries_pure rfl
  | some expected => carries_ensureType h loc subject found expected

theorem carries_findTerm (loc : Loc) (name : Bytes) :
    Carries ρ ρ.term (findTerm rs loc name) (findTerm rs' (ρ.move loc) name) := by
  rw [findTerm, findTerm, h.terms.find]
  cases rs.terms.find? name with
  | some id => exact carries_pure rfl
  | none => exact carries_failAt loc _

theorem carries_ensurePrimitive (loc : Loc) (type : TypeId) :
    Carries ρ id (ensurePrimitive rs loc type)
      (ensurePrimitive rs' (ρ.move loc) (ρ.type type)) := by
  refine carries_require ?_ ?_
  · rw [h.typeInfo]
    cases hs : (rs.typeInfo type).shape <;> simp [TypeInfo.renumber, hs, TypeShape.renumber,
      TypeShape.isPrimitive]
  · rw [h.typeName]

theorem carries_ensureCount (loc : Loc) (term : TermId) (found : Nat) :
    Carries ρ id (ensureCount loc (rs.termInfo term) found)
      (ensureCount (ρ.move loc) (rs'.termInfo (ρ.term term)) found) := by
  have hid := h.termInfo term
  refine carries_require ?_ ?_
  · rw [hid.args, List.length_map]
  · rw [hid.args, List.length_map, hid.name]

omit h

def CarriesExpansion (ρ : Renumbering)
    (expand expand' : Loc → TermId → Pattern → TypeId → Check CheckedPattern) : Prop :=
  ∀ loc term p type, Carries ρ (CheckedPattern.renumber ρ) (expand loc term p type)
    (expand' (ρ.move loc) (ρ.term term) (p.relocate ρ.move) (ρ.type type))

variable {expand expand' : Loc → TermId → Pattern → TypeId → Check CheckedPattern}

mutual

theorem carries_patternWith (h : rs.Renumbered ρ rs')
    (hexpand : CarriesExpansion ρ expand expand') :
    ∀ (p : Pattern) (type : TypeId), Carries ρ (CheckedPattern.renumber ρ)
      (patternWith rs expand p type) (patternWith rs' expand' (p.relocate ρ.move) (ρ.type type))
  | .wildcard loc, type => carries_pure rfl
  | .bool loc value, type => by
    have hbool := carries_ensureType h loc .boolConstant boolType type
    rw [ρ.type_bool] at hbool
    exact hbool.bind fun _ => carries_pure rfl
  | .int loc value, type => (carries_ensurePrimitive h loc type).bind fun _ => carries_pure rfl
  | .var loc name, type => by
    refine carries_get.bind fun scope => ?_
    rw [find?_renumber]
    cases scope.find? name with
    | some v =>
      have hv := carries_ensureType h loc (.variable name) (scope.typeOf v) type
      rw [← typeOf_renumber] at hv
      exact hv.bind fun _ => carries_pure rfl
    | none => exact (carries_bindVar name type).bind fun v => carries_pure rfl
  | .bind loc name sub, type => by
    refine carries_get.bind fun scope => ?_
    refine (carries_require (by rw [find?_renumber]) rfl).bind fun _ => ?_
    refine (carries_bindVar name type).bind fun v => ?_
    exact (carries_patternWith h hexpand sub type).bind fun _ => carries_pure rfl
  | .all loc parts, type => by
    have hparts := carries_patternsWith h hexpand parts (parts.map fun _ => type)
    have htypes : (parts.map fun _ => type).map ρ.type =
        (Pattern.relocateAll ρ.move parts).map fun _ => ρ.type type := by
      rw [Pattern.relocateAll_eq_map, List.map_map, List.map_map]
      rfl
    rw [htypes] at hparts
    exact hparts.bind fun _ => carries_pure rfl
  | .term loc name args, type => by
    refine (carries_findTerm h loc name).bind fun term => ?_
    have hterm := h.termInfo term
    have hargs := carries_patternsWith h hexpand args (rs.termInfo term).args
    rw [← hterm.args] at hargs
    have hcount := carries_ensureCount h loc term args.length
    have htype := carries_ensureType h loc (.term (rs.termInfo term).name)
      (rs.termInfo term).ret type
    dsimp only
    rw [hterm.name, hterm.ret, Pattern.length_relocateAll, hterm.extractor]
    refine htype.bind fun _ => hcount.bind fun _ => ?_
    cases (rs.termInfo term).extractor with
    | missing => exact carries_failAt loc _
    | template index _ =>
      have hbody := hexpand loc term
        (((rs.templates[index]?).getD default).instantiate args) type
      rw [← Template.instantiate_relocate, ← h.template, ← Pattern.relocateAll_eq_map] at hbody
      exact hbody
    | variant ref => exact hargs.bind fun _ => carries_pure rfl
    | external function infallible _ => exact hargs.bind fun _ => carries_pure rfl

theorem carries_patternsWith (h : rs.Renumbered ρ rs')
    (hexpand : CarriesExpansion ρ expand expand') :
    ∀ (ps : List Pattern) (types : List TypeId), Carries ρ (CheckedPattern.renumberAll ρ)
      (patternsWith rs expand ps types)
      (patternsWith rs' expand' (Pattern.relocateAll ρ.move ps) (types.map ρ.type))
  | p :: ps, type :: types =>
    (carries_patternWith h hexpand p type).bind fun _ =>
      (carries_patternsWith h hexpand ps types).bind fun _ => carries_pure rfl
  | [], _ => carries_pure rfl
  | _ :: _, [] => carries_pure rfl

end

theorem carries_patternInside (h : rs.Renumbered ρ rs') (room : Nat) (expanding : List TermId)
    (p : Pattern) (type : TypeId) :
    Carries ρ (CheckedPattern.renumber ρ) (patternInside rs room expanding p type)
      (patternInside rs' room (expanding.map ρ.term) (p.relocate ρ.move) (ρ.type type)) := by
  have hrefuse : ∀ loc term, Carries ρ (CheckedPattern.renumber ρ) (refuseExpansion rs loc term)
      (refuseExpansion rs' (ρ.move loc) (ρ.term term)) := by
    intro loc term
    rw [refuseExpansion, refuseExpansion, (h.termInfo term).name]
    exact carries_failAt loc _
  induction room generalizing expanding p type with
  | zero => exact carries_patternWith h (fun loc term _ _ => hrefuse loc term) p type
  | succ room ih =>
    refine carries_patternWith h (fun loc term q type => ?_) p type
    have hmem : ρ.term term ∈ expanding.map ρ.term ↔ term ∈ expanding :=
      List.mem_map_of_injective ρ.term.injective
    rw [if_congr hmem rfl rfl]
    split_ifs
    · exact hrefuse loc term
    · exact ih (term :: expanding) q type

theorem carries_pattern (h : rs.Renumbered ρ rs') (p : Pattern) (type : TypeId) :
    Carries ρ (CheckedPattern.renumber ρ) (pattern rs p type)
      (pattern rs' (p.relocate ρ.move) (ρ.type type)) := by
  rw [pattern, pattern, h.terms.size]
  exact carries_patternInside h rs.terms.size [] p type

mutual

theorem carries_expr (h : rs.Renumbered ρ rs') : ∀ (e : Expr) (expected : Option TypeId),
    Carries ρ (CheckedExpr.renumber ρ) (expr rs e expected)
      (expr rs' (e.relocate ρ.move) (expected.map ρ.type))
  | .var loc name, expected => by
    refine carries_get.bind fun scope => ?_
    rw [find?_renumber]
    cases scope.find? name with
    | some v =>
      have hv := carries_ensureTypeIf h loc (.variable name) (scope.typeOf v) expected
      rw [← typeOf_renumber] at hv
      refine hv.bind fun _ => carries_pure ?_
      rw [typeOf_renumber]
      rfl
    | none => exact carries_failAt loc _
  | .bool loc value, expected => by
    have hbool := carries_ensureTypeIf h loc .boolConstant boolType expected
    rw [ρ.type_bool] at hbool
    refine hbool.bind fun _ => carries_pure ?_
    rw [CheckedExpr.renumber, Site.renumber, ρ.type_bool]
  | .int loc value, some type =>
    (carries_ensurePrimitive h loc type).bind fun _ => carries_pure rfl
  | .int loc value, none => carries_failAt loc _
  | .term loc name args, expected => by
    refine (carries_findTerm h loc name).bind fun term => ?_
    have hterm := h.termInfo term
    have hargs := carries_exprs h args (rs.termInfo term).args
    rw [← hterm.args] at hargs
    have hcount := carries_ensureCount h loc term args.length
    have htype := carries_ensureTypeIf h loc (.term (rs.termInfo term).name)
      (rs.termInfo term).ret expected
    dsimp only
    rw [hterm.name, hterm.ret, Expr.length_relocateAll]
    refine (carries_require ?_ rfl).bind fun _ => htype.bind fun _ => hcount.bind fun _ =>
      hargs.bind fun _ => carries_pure rfl
    have hconstructor := hterm.constructor
    generalize (rs.termInfo term).constructor = c, (rs'.termInfo (ρ.term term)).constructor = c'
      at hconstructor
    cases hconstructor <;> rfl
  | .letIn loc bs body, expected => by
    refine carries_get.bind fun scope => ?_
    refine (carries_bindings h bs).bind fun checked => ?_
    refine (carries_expr h body expected).bind fun body' => ?_
    refine Carries.bind (f := id) (fun _ => rfl) fun _ => carries_pure ?_
    rw [CheckedExpr.type_renumber]
    rfl

theorem carries_exprs (h : rs.Renumbered ρ rs') : ∀ (es : List Expr) (types : List TypeId),
    Carries ρ (CheckedExpr.renumberAll ρ) (exprs rs es types)
      (exprs rs' (Expr.relocateAll ρ.move es) (types.map ρ.type))
  | e :: es, type :: types =>
    (carries_expr h e (some type)).bind fun _ =>
      (carries_exprs h es types).bind fun _ => carries_pure rfl
  | [], _ => carries_pure rfl
  | _ :: _, [] => carries_pure rfl

theorem carries_bindings (h : rs.Renumbered ρ rs') : ∀ bs : List (Binding Expr),
    Carries ρ (CheckedExpr.renumberIn ρ) (bindings rs bs)
      (bindings rs' (Expr.relocateIn ρ.move bs))
  | [] => carries_pure rfl
  | ⟨name, typeName, value⟩ :: rest => by
    rw [Expr.relocateIn, bindings, bindings]
    change Carries ρ _ _ (match rs'.types.find? typeName.name with | some type => _ | x => _)
    rw [h.types.find]
    cases rs.types.find? typeName.name with
    | none => exact carries_failAt typeName.loc _
    | some type =>
      refine (carries_expr h value (some type)).bind fun _ => ?_
      refine (carries_bindVar name.name type).bind fun _ => ?_
      exact (carries_bindings h rest).bind fun _ => carries_pure rfl

end

theorem ruleRoot_renumber (h : rs.Renumbered ρ rs') (p : Pattern) :
    ruleRoot rs' (p.relocate ρ.move) =
      match ruleRoot rs p with
      | .ok (root, args) => .ok (ρ.term root, args.map (Pattern.relocate ρ.move))
      | .error e => .error (e.relocate ρ.move) := by
  cases p with
  | term loc name args =>
    rw [Pattern.relocate, ruleRoot, ruleRoot, h.terms.find]
    cases rs.terms.find? name with
    | none => rfl
    | some term =>
      have hterm := h.termInfo term
      have hconstructor := hterm.constructor
      simp only [Option.map_some, hterm.name, hterm.args, List.length_map,
        Pattern.length_relocateAll]
      generalize (rs.termInfo term).constructor = c, (rs'.termInfo (ρ.term term)).constructor = c'
        at hconstructor
      cases hconstructor with
      | variant | external => rfl
      | missing | internal =>
        split_ifs
        · rw [Pattern.relocateAll_eq_map]
        · rfl
  | _ => rfl

theorem rootArgs_renumber (h : rs.Renumbered ρ rs') (ps : List Pattern) (types : List TypeId)
    (s : Scope) :
    rootArgs rs' (ps.map (Pattern.relocate ρ.move)) (types.map ρ.type) (s.renumber ρ) =
      ((rootArgs rs ps types s).1.map (SemanticError.relocate ρ.move),
        (rootArgs rs ps types s).2.1.map (CheckedPattern.renumber ρ),
        (rootArgs rs ps types s).2.2.renumber ρ) := by
  induction ps generalizing types s with
  | nil => rfl
  | cons p ps ih =>
    cases types with
    | nil => rfl
    | cons type types =>
      rw [List.map_cons, List.map_cons, rootArgs, rootArgs, carries_pattern h p type s]
      cases (pattern rs p type).run s with
      | ok c t =>
        dsimp only
        rw [ih]
        rfl
      | error e t =>
        dsimp only
        rw [ih]
        rfl

theorem carries_guards (h : rs.Renumbered ρ rs') (gs : List Guard) :
    Carries ρ (List.map (CheckedGuard.renumber ρ)) (guards rs gs)
      (guards rs' (gs.map (Guard.relocate ρ.move))) := by
  induction gs with
  | nil => exact carries_pure rfl
  | cons g gs ih =>
    refine (carries_expr h g.value none).bind fun value => ?_
    have hpattern := carries_pattern h g.pattern value.type
    rw [← CheckedExpr.type_renumber] at hpattern
    exact hpattern.bind fun _ => ih.bind fun _ => carries_pure rfl

theorem carries_ruleBody (h : rs.Renumbered ρ rs') (r : Rule) (ret : TypeId) :
    Carries ρ (Prod.map (List.map (CheckedGuard.renumber ρ)) (CheckedExpr.renumber ρ))
      (ruleBody rs r ret) (ruleBody rs' (r.relocate ρ.move) (ρ.type ret)) :=
  (carries_guards h r.guards).bind fun _ =>
    (carries_expr h r.result (some ret)).bind fun _ => carries_pure rfl

theorem rule_renumber (h : rs.Renumbered ρ rs') (r : Rule) (order : Nat) :
    rule rs' (r.relocate ρ.move) order =
      match rule rs r order with
      | .ok c => .ok (c.renumber ρ)
      | .error es => .error (es.map (SemanticError.relocate ρ.move)) := by
  have hpattern : (r.relocate ρ.move).pattern = r.pattern.relocate ρ.move := rfl
  rw [rule, rule, hpattern, ruleRoot_renumber h]
  rcases ruleRoot rs r.pattern with e | ⟨root, patterns⟩
  · rfl
  · have hargs := rootArgs_renumber h patterns (rs.termInfo root).args .empty
    have hempty : Scope.empty.renumber ρ = Scope.empty := by
      rw [Scope.renumber, Scope.empty, Array.map_empty]
    rw [← (h.termInfo root).args, hempty] at hargs
    dsimp only
    rw [hargs]
    rcases rootArgs rs patterns (rs.termInfo root).args .empty with ⟨_ | ⟨e, errors⟩, args, s⟩
    · have hbody := carries_ruleBody h r (rs.termInfo root).ret s
      rw [← (h.termInfo root).ret] at hbody
      simp only [List.map_nil]
      rw [hbody]
      rcases (ruleBody rs r (rs.termInfo root).ret).run s with ⟨⟨guards, result⟩, t⟩ | ⟨e, t⟩
      · have hname : (r.relocate ρ.move).name.map Ident.name = r.name.map Ident.name := by
          rw [Rule.relocate, Option.map_map]
          rfl
        dsimp only
        rw [hname]
        rfl
      · rfl
    · rfl

end RuleSets

end Check

end TermRules

import TermRules.Proofs.VariableNames

/-!
# Checks under other names

Where a check succeeds, the check of the renamed pattern or expression in the
renamed scope gives the same answer. The names change by a permutation, which a
renaming that is one to one on the names of a rule can be extended to.
-/

namespace TermRules

theorem exists_perm_eq {ρ : Bytes → Bytes} {kept : Bytes → Prop} {xs : List Bytes}
    (hinj : ∀ x ∈ xs, ∀ y ∈ xs, ρ x = ρ y → x = y) (hkept : ∀ x ∈ xs, kept x → ρ x = x)
    (hfresh : ∀ x ∈ xs, kept (ρ x) → ρ x = x) :
    ∃ σ : Equiv.Perm Bytes, (∀ x ∈ xs, σ x = ρ x) ∧ ∀ x, kept x → σ x = x := by
  induction xs with
  | nil => exact ⟨.refl _, by simp, fun _ _ => rfl⟩
  | cons y xs ih =>
    obtain ⟨σ, hσ, hfixed⟩ := ih
      (fun x hx z hz => hinj x (List.mem_cons_of_mem _ hx) z (List.mem_cons_of_mem _ hz))
      (fun x hx => hkept x (List.mem_cons_of_mem _ hx))
      (fun x hx => hfresh x (List.mem_cons_of_mem _ hx))
    -- The image of the new name changes places with the one that it is to have.
    refine ⟨σ.trans (Equiv.swap (σ y) (ρ y)), fun x hx => ?_, fun x hx => ?_⟩
    · rw [Equiv.trans_apply]
      by_cases hxy : x = y
      · rw [hxy, Equiv.swap_apply_left]
      · have hmem := (List.mem_cons.mp hx).resolve_left hxy
        have himage : σ x ≠ ρ y := by
          rw [hσ x hmem]
          exact fun h => hxy (hinj x hx y List.mem_cons_self h)
        exact (Equiv.swap_apply_of_ne_of_ne (σ.injective.ne hxy) himage).trans (hσ x hmem)
    · rw [Equiv.trans_apply, hfixed x hx]
      by_cases hy : kept y
      · rw [hfixed y hy, hkept y List.mem_cons_self hy, Equiv.swap_self, Equiv.refl_apply]
      · refine Equiv.swap_apply_of_ne_of_ne ?_ ?_
        · rintro rfl
          exact hy (by rwa [σ.injective (hfixed _ hx)] at hx)
        · rintro rfl
          exact hy (by rwa [hfresh y List.mem_cons_self hx] at hx)

def VarInfo.rename (f : Bytes → Bytes) (v : VarInfo) : VarInfo := { v with name := f v.name }

def Scope.rename (f : Bytes → Bytes) (s : Scope) : Scope :=
  ⟨s.vars.map (VarInfo.rename f), s.visible.map (Prod.map f id)⟩

namespace Scope

variable (σ : Equiv.Perm Bytes) (s : Scope)

theorem size_rename : (s.rename σ).vars.size = s.vars.size := Array.size_map

theorem bind_rename (name : Bytes) (type : TypeId) :
    (s.rename σ).bind (σ name) type = (s.bind name type).rename σ := by
  rw [bind, size_rename, bind, rename, rename, Array.map_push]
  rfl

theorem find?_rename (name : Bytes) : (s.rename σ).find? (σ name) = s.find? name := by
  rw [find?, find?, rename]
  dsimp only
  induction s.visible with
  | nil => rfl
  | cons entry visible ih =>
    have hkey : (σ name == σ entry.1) = (name == entry.1) := by
      rw [Bool.eq_iff_iff, beq_iff_eq, beq_iff_eq, σ.apply_eq_iff_eq]
    rw [List.map_cons, List.lookup_cons, List.lookup_cons, ih]
    exact congrArg (match · with | true => some entry.2 | false => visible.lookup name) hkey

theorem typeOf_rename (v : VarId) : (s.rename σ).typeOf v = s.typeOf v := by
  rw [typeOf, typeOf, rename, Array.getElem?_map]
  cases s.vars[v]? <;> rfl

end Scope

namespace Check

section Runs

variable (σ : Equiv.Perm Bytes) {α β : Type}

/-- Where the first check succeeds, the second one gives the same under the other names. -/
def Follows (x x' : Check α) : Prop :=
  ∀ s a t, x.run s = .ok a t → x'.run (s.rename σ) = .ok a (t.rename σ)

variable {σ}

theorem follows_pure (a : α) : Follows σ (pure a) (pure a) := by
  intro s b t h
  cases h
  rfl

theorem Follows.bind {x x' : Check α} {k k' : α → Check β} (h : Follows σ x x')
    (hk : ∀ s a t, x.run s = .ok a t → Follows σ (k a) (k' a)) :
    Follows σ (x >>= k) (x' >>= k') := by
  intro s b t hrun
  obtain ⟨a, u, hx, hka⟩ := run_bind_ok.mp hrun
  exact run_bind_ok.mpr ⟨a, u.rename σ, h s a u hx, hk s a u hx u b t hka⟩

theorem follows_get {k k' : Scope → Check β}
    (h : ∀ s : Scope, Follows σ (k s) (k' (s.rename σ))) :
    Follows σ (get >>= k) (get >>= k') := by
  intro s b t hrun
  exact h s s b t hrun

theorem follows_failAt (loc : Loc) (fault : SemanticFault) (x' : Check α) :
    Follows σ (failAt loc fault) x' := by
  intro s a t h
  exact (run_failAt_ok.mp h).elim

theorem follows_require (c : Bool) (loc : Loc) (fault fault' : SemanticFault) :
    Follows σ (require c loc fault) (require c loc fault') := by
  cases c with
  | true => exact follows_pure ()
  | false => exact follows_failAt loc fault _

theorem follows_bindVar (name : Bytes) (type : TypeId) :
    Follows σ (bindVar name type) (bindVar (σ name) type) := by
  intro s v t h
  obtain ⟨rfl, rfl⟩ := run_bindVar_ok.mp h
  exact run_bindVar_ok.mpr ⟨s.size_rename σ, s.bind_rename σ name type⟩

variable (rs : RuleSet)

theorem follows_ensureTypeIf (loc : Loc) (subject subject' : Subject) (found : TypeId)
    (expected : Option TypeId) :
    Follows σ (ensureTypeIf rs loc subject found expected)
      (ensureTypeIf rs loc subject' found expected) := by
  cases expected with
  | none => exact follows_pure ()
  | some type => exact follows_require _ loc _ _

theorem follows_findTerm (loc : Loc) (name : Bytes) :
    Follows σ (findTerm rs loc name) (findTerm rs loc name) := by
  rw [findTerm]
  cases rs.terms.find? name with
  | none => exact follows_failAt loc _ _
  | some id => exact follows_pure id

end Runs

section Patterns

variable {rs : RuleSet} {σ : Equiv.Perm Bytes}
  {expand expand' : Loc → TermId → Pattern → TypeId → Check CheckedPattern}

def FollowsAt (rs : RuleSet) (σ : Equiv.Perm Bytes)
    (expand expand' : Loc → TermId → Pattern → TypeId → Check CheckedPattern)
    (uses : List (Bytes × List Pattern)) : Prop :=
  ∀ name args id index place, (name, args) ∈ uses → rs.terms.find? name = some id →
    args.length = (rs.termInfo id).args.length →
    (rs.termInfo id).extractor = .template index place → ∀ loc type,
      let t := rs.templates[index]?.getD default
      Follows σ (expand loc id (t.instantiate args) type)
        (expand' loc id (t.instantiate (args.map (Pattern.rename σ))) type)

theorem FollowsAt.mono {uses uses' : List (Bytes × List Pattern)}
    (h : FollowsAt rs σ expand expand' uses) (hsub : uses' ⊆ uses) :
    FollowsAt rs σ expand expand' uses' :=
  fun name args id index place huse => h name args id index place (hsub huse)

mutual

theorem follows_patternWith : ∀ (p : Pattern) (type : TypeId),
    FollowsAt rs σ expand expand' p.uses →
      Follows σ (patternWith rs expand p type) (patternWith rs expand' (p.rename σ) type)
  | .wildcard loc, type, _ => follows_pure _
  | .bool loc value, type, _ =>
      (follows_require _ _ _ _).bind fun _ _ _ _ => follows_pure _
  | .int loc value, type, _ =>
      (follows_require _ _ _ _).bind fun _ _ _ _ => follows_pure _
  | .var loc name, type, _ => by
      apply follows_get
      intro s
      rw [Scope.find?_rename]
      cases s.find? name with
      | some v =>
        dsimp only
        rw [Scope.typeOf_rename]
        exact (follows_require _ _ _ _).bind fun _ _ _ _ => follows_pure _
      | none => exact (follows_bindVar name type).bind fun _ _ _ _ => follows_pure _
  | .bind loc name sub, type, h => by
      apply follows_get
      intro s
      rw [Scope.find?_rename]
      apply (follows_require _ _ _ _).bind
      intro _ _ _ _
      apply (follows_bindVar name type).bind
      intro _ _ _ _
      exact (follows_patternWith sub type h).bind fun _ _ _ _ => follows_pure _
  | .all loc parts, type, h => by
      have htypes : ((Pattern.renameAll σ parts).map fun _ => type) = parts.map fun _ => type := by
        rw [Pattern.renameAll_eq_map, List.map_map]
        rfl
      rw [Pattern.rename, patternWith, patternWith, htypes]
      exact (follows_patternsWith parts _ h).bind fun _ _ _ _ => follows_pure _
  | .term loc name args, type, h => by
      apply (follows_findTerm rs loc name).bind
      intro _ id _ hfind
      obtain ⟨hid, -⟩ := run_findTerm_ok.mp hfind
      have hargs (types : List TypeId) : Follows σ (patternsWith rs expand args types)
          (patternsWith rs expand' (Pattern.renameAll σ args) types) :=
        follows_patternsWith args types (h.mono (List.subset_cons_self _ _))
      apply (follows_require _ _ _ _).bind
      intro _ _ _ _
      rw [Pattern.renameAll_eq_map] at hargs ⊢
      rw [List.length_map]
      apply (follows_require _ _ _ _).bind
      intro _ _ _ hcount
      obtain ⟨hcount, -⟩ := run_ensureCount_ok.mp hcount
      cases hextractor : (rs.termInfo id).extractor with
      | missing => exact follows_failAt loc _ _
      | template index place =>
        exact h name args id index place List.mem_cons_self hid hcount hextractor loc type
      | variant ref => exact (hargs _).bind fun _ _ _ _ => follows_pure _
      | external function infallible place =>
        exact (hargs _).bind fun _ _ _ _ => follows_pure _

theorem follows_patternsWith : ∀ (ps : List Pattern) (types : List TypeId),
    FollowsAt rs σ expand expand' (Pattern.usesAll ps) →
      Follows σ (patternsWith rs expand ps types)
        (patternsWith rs expand' (Pattern.renameAll σ ps) types)
  | [], types, _ => by
      cases types <;> exact follows_pure _
  | p :: ps, [], _ => follows_pure _
  | p :: ps, type :: types, h =>
      (follows_patternWith p type (h.mono (List.subset_append_left _ _))).bind fun _ _ _ _ =>
        (follows_patternsWith ps types (h.mono (List.subset_append_right _ _))).bind
          fun _ _ _ _ => follows_pure _

end

theorem follows_patternInside {ts : List Template} (hts : Templated rs ts) (linked : rs.Linked)
    (room : Nat) (expanding : List TermId) (p : Pattern) (type : TypeId)
    (hfixed : ∀ x, p.Introduces ts x → σ x = x) :
    Follows σ (patternInside rs room expanding p type)
      (patternInside rs room expanding (p.rename σ) type) := by
  induction room generalizing expanding p type with
  | zero =>
    apply follows_patternWith
    intro name args id index place _ _ _ _ loc type
    exact follows_failAt loc _ _
  | succ room ih =>
    apply follows_patternWith
    intro name args id index place huse hid hcount hextractor loc type
    obtain ⟨info, hinfo, hname⟩ := Table.get?_of_find? hid
    rw [RuleSet.termInfo_of_get? hinfo] at hcount hextractor
    obtain ⟨t, ht, hindex, htname⟩ := hts id info index place hinfo hextractor
    have htemplate : rs.IsTemplateTerm name info t :=
      ⟨⟨id, hid, hinfo⟩, index, place, hextractor, hindex⟩
    have hlength : args.length = t.params.length :=
      hcount.trans (htemplate.length_params linked).symm
    have hfree (x : Bytes) (hx : t.Free x) : σ x = x :=
      hfixed x (.of_free huse ht (htname.trans hname) hx)
    rw [hindex, Option.getD_some]
    dsimp only
    rw [Template.instantiate_rename hlength hfree]
    split_ifs
    · exact follows_failAt loc _ _
    · exact ih (id :: expanding) (t.instantiate args) type fun x hx =>
        hfixed x (.of_instantiate huse ht (htname.trans hname) hx)

end Patterns

section Expressions

variable {rs : RuleSet} {σ : Equiv.Perm Bytes}

mutual

theorem follows_expr : ∀ (e : Expr) (expected : Option TypeId),
    Follows σ (expr rs e expected) (expr rs (e.rename σ) expected)
  | .var loc name, expected => by
    apply follows_get
    intro s
    rw [Scope.find?_rename]
    cases s.find? name with
    | some v =>
      dsimp only
      rw [Scope.typeOf_rename]
      exact (follows_ensureTypeIf rs _ _ _ _ _).bind fun _ _ _ _ => follows_pure _
    | none => exact follows_failAt loc _ _
  | .bool loc value, expected =>
    (follows_ensureTypeIf rs _ _ _ _ _).bind fun _ _ _ _ => follows_pure _
  | .int loc value, some type => (follows_require _ _ _ _).bind fun _ _ _ _ => follows_pure _
  | .int loc value, none => follows_failAt loc _ _
  | .term loc name args, expected => by
    rw [Expr.rename, expr, expr, Expr.length_renameAll]
    apply (follows_findTerm rs loc name).bind
    intro _ id _ _
    apply (follows_require _ _ _ _).bind
    intro _ _ _ _
    apply (follows_ensureTypeIf rs _ _ _ _ _).bind
    intro _ _ _ _
    apply (follows_require _ _ _ _).bind
    intro _ _ _ _
    exact (follows_exprs args _).bind fun _ _ _ _ => follows_pure _
  | .letIn loc bs body, expected => by
    apply follows_get
    intro s
    apply (follows_bindings bs).bind
    intro _ checked _ _
    apply (follows_expr body expected).bind
    intro _ body' _ _
    -- The names that were visible before the bindings are so again, on both sides.
    refine Follows.bind (fun t u t' h => ?_) fun _ _ _ _ => follows_pure _
    cases h
    rfl

theorem follows_exprs : ∀ (es : List Expr) (types : List TypeId),
    Follows σ (exprs rs es types) (exprs rs (Expr.renameAll σ es) types)
  | [], types => by
    cases types <;> exact follows_pure _
  | e :: es, [] => follows_pure _
  | e :: es, type :: types =>
    (follows_expr e (some type)).bind fun _ _ _ _ =>
      (follows_exprs es types).bind fun _ _ _ _ => follows_pure _

theorem follows_bindings : ∀ bs : List (Binding Expr),
    Follows σ (bindings rs bs) (bindings rs (Expr.renameIn σ bs))
  | [] => follows_pure _
  | ⟨name, typeName, value⟩ :: rest => by
    rw [Expr.renameIn, bindings, bindings]
    cases rs.types.find? typeName.name with
    | none => exact follows_failAt typeName.loc _ _
    | some type =>
      apply (follows_expr value (some type)).bind
      intro _ _ _ _
      apply (follows_bindVar name.name type).bind
      intro _ _ _ _
      exact (follows_bindings rest).bind fun _ _ _ _ => follows_pure _

end

end Expressions

end Check

end TermRules

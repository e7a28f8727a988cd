import TermRules.Proofs.ArgumentNodes
import TermRules.Proofs.RecursionFree

/-!
# Names of variables

The variables of a rule may get other names, place by place. An expansion
introduces names of its own, those in the body of a template that are not
parameters. Where these are left alone, renaming the arguments renames the
instance.
-/

namespace TermRules

namespace Pattern

mutual

def vars : Pattern → List Bytes
  | .var _ name => [name]
  | .bind _ name sub => name :: sub.vars
  | .term _ _ args => varsAll args
  | .all _ parts => varsAll parts
  | .wildcard _ | .int _ _ | .bool _ _ => []

def varsAll : List Pattern → List Bytes
  | [] => []
  | p :: ps => p.vars ++ varsAll ps

end

mutual

def rename (f : Bytes → Bytes) : Pattern → Pattern
  | .wildcard loc => .wildcard loc
  | .var loc name => .var loc (f name)
  | .bind loc name sub => .bind loc (f name) (sub.rename f)
  | .int loc value => .int loc value
  | .bool loc value => .bool loc value
  | .term loc name args => .term loc name (renameAll f args)
  | .all loc parts => .all loc (renameAll f parts)

def renameAll (f : Bytes → Bytes) : List Pattern → List Pattern
  | [] => []
  | p :: ps => p.rename f :: renameAll f ps

end

theorem renameAll_eq_map (f : Bytes → Bytes) (ps : List Pattern) :
    renameAll f ps = ps.map (rename f) := by
  induction ps with
  | nil => rfl
  | cons p ps ih => rw [renameAll, ih, List.map_cons]

mutual

theorem rename_congr {f g : Bytes → Bytes} :
    ∀ p : Pattern, (∀ x ∈ p.vars, f x = g x) → p.rename f = p.rename g
  | .wildcard _, _ | .int _ _, _ | .bool _ _, _ => rfl
  | .var loc name, h => by rw [rename, rename, h name List.mem_cons_self]
  | .bind loc name sub, h => by
    obtain ⟨hname, hsub⟩ := List.forall_mem_cons.mp h
    rw [rename, rename, hname, rename_congr sub hsub]
  | .term loc name args, h => congrArg (term loc name) (renameAll_congr args h)
  | .all loc parts, h => congrArg (all loc) (renameAll_congr parts h)

theorem renameAll_congr {f g : Bytes → Bytes} :
    ∀ ps : List Pattern, (∀ x ∈ varsAll ps, f x = g x) → renameAll f ps = renameAll g ps
  | [], _ => rfl
  | p :: ps, h => by
    obtain ⟨hp, hps⟩ := List.forall_mem_append.mp h
    rw [renameAll, renameAll, rename_congr p hp, renameAll_congr ps hps]

end

end Pattern

namespace Expr

mutual

def vars : Expr → List Bytes
  | .var _ name => [name]
  | .int _ _ | .bool _ _ => []
  | .term _ _ args => varsAll args
  | .letIn _ bindings body => varsIn bindings ++ body.vars

def varsAll : List Expr → List Bytes
  | [] => []
  | e :: es => e.vars ++ varsAll es

def varsIn : List (Binding Expr) → List Bytes
  | [] => []
  | ⟨name, _, value⟩ :: bs => name.name :: (value.vars ++ varsIn bs)

end

mutual

def rename (f : Bytes → Bytes) : Expr → Expr
  | .var loc name => .var loc (f name)
  | .int loc value => .int loc value
  | .bool loc value => .bool loc value
  | .term loc name args => .term loc name (renameAll f args)
  | .letIn loc bindings body => .letIn loc (renameIn f bindings) (body.rename f)

def renameAll (f : Bytes → Bytes) : List Expr → List Expr
  | [] => []
  | e :: es => e.rename f :: renameAll f es

def renameIn (f : Bytes → Bytes) : List (Binding Expr) → List (Binding Expr)
  | [] => []
  | ⟨name, type, value⟩ :: bs => ⟨⟨f name.name, name.loc⟩, type, value.rename f⟩ :: renameIn f bs

end

theorem length_renameAll (f : Bytes → Bytes) (es : List Expr) :
    (renameAll f es).length = es.length := by
  induction es with
  | nil => rfl
  | cons e es ih => rw [renameAll, List.length_cons, List.length_cons, ih]

mutual

theorem rename_congr {f g : Bytes → Bytes} :
    ∀ e : Expr, (∀ x ∈ e.vars, f x = g x) → e.rename f = e.rename g
  | .int _ _, _ | .bool _ _, _ => rfl
  | .var loc name, h => by rw [rename, rename, h name List.mem_cons_self]
  | .term loc name args, h => congrArg (term loc name) (renameAll_congr args h)
  | .letIn loc bindings body, h => by
    obtain ⟨hbindings, hbody⟩ := List.forall_mem_append.mp h
    rw [rename, rename, renameIn_congr bindings hbindings, rename_congr body hbody]

theorem renameAll_congr {f g : Bytes → Bytes} :
    ∀ es : List Expr, (∀ x ∈ varsAll es, f x = g x) → renameAll f es = renameAll g es
  | [], _ => rfl
  | e :: es, h => by
    obtain ⟨he, hes⟩ := List.forall_mem_append.mp h
    rw [renameAll, renameAll, rename_congr e he, renameAll_congr es hes]

theorem renameIn_congr {f g : Bytes → Bytes} :
    ∀ bs : List (Binding Expr), (∀ x ∈ varsIn bs, f x = g x) → renameIn f bs = renameIn g bs
  | [], _ => rfl
  | ⟨name, type, value⟩ :: bs, h => by
    obtain ⟨hname, hrest⟩ := List.forall_mem_cons.mp h
    obtain ⟨hvalue, hbs⟩ := List.forall_mem_append.mp hrest
    rw [renameIn, renameIn, hname, rename_congr value hvalue, renameIn_congr bs hbs]

end

end Expr

def Guard.vars (g : Guard) : List Bytes := g.pattern.vars ++ g.value.vars

def Guard.rename (f : Bytes → Bytes) (g : Guard) : Guard :=
  ⟨g.pattern.rename f, g.value.rename f, g.loc⟩

def Rule.vars (r : Rule) : List Bytes :=
  r.pattern.vars ++ r.guards.flatMap Guard.vars ++ r.result.vars

def Rule.rename (f : Bytes → Bytes) (r : Rule) : Rule :=
  { r with
    pattern := r.pattern.rename f
    guards := r.guards.map (Guard.rename f)
    result := r.result.rename f }

theorem Rule.rename_congr {f g : Bytes → Bytes} {r : Rule} (h : ∀ x ∈ r.vars, f x = g x) :
    r.rename f = r.rename g := by
  obtain ⟨hleft, hresult⟩ := List.forall_mem_append.mp h
  obtain ⟨hpattern, hguards⟩ := List.forall_mem_append.mp hleft
  have hmap : r.guards.map (Guard.rename f) = r.guards.map (Guard.rename g) := by
    refine List.map_congr_left fun guard hguard => ?_
    have hall (x : Bytes) (hx : x ∈ guard.vars) : f x = g x :=
      hguards x (List.mem_flatMap.mpr ⟨guard, hguard, hx⟩)
    obtain ⟨hpattern, hvalue⟩ := List.forall_mem_append.mp hall
    rw [Guard.rename, Guard.rename, guard.pattern.rename_congr hpattern,
      guard.value.rename_congr hvalue]
  rw [Rule.rename, Rule.rename, r.pattern.rename_congr hpattern, hmap,
    r.result.rename_congr hresult]

def Template.Free (t : Template) (x : Bytes) : Prop := x ∈ t.body.vars ∧ x ∉ t.names

section Introduced

variable (ts : List Template)

/-- Checking the pattern can come to the body of a template in which the name is free. -/
def Pattern.Introduces (p : Pattern) (x : Bytes) : Prop :=
  ∃ first, p.Mentions first ∧
    ∃ t ∈ ts, Relation.ReflTransGen (Calls ts) first t.term.name ∧ t.Free x

def Rule.Introduces (r : Rule) (x : Bytes) : Prop := ∃ p ∈ r.patterns, p.Introduces ts x

end Introduced

namespace Pattern.Introduces

variable {ts : List Template} {p : Pattern} {name : Bytes} {args : List Pattern} {t : Template}

theorem of_free (huse : (name, args) ∈ p.uses) (ht : t ∈ ts) (hname : t.term.name = name)
    {x : Bytes} (hx : t.Free x) : p.Introduces ts x :=
  ⟨name, ⟨args, huse⟩, t, ht, by rw [hname], hx⟩

theorem of_instantiate (huse : (name, args) ∈ p.uses) (ht : t ∈ ts) (hname : t.term.name = name)
    {x : Bytes} (hx : (t.instantiate args).Introduces ts x) : p.Introduces ts x := by
  obtain ⟨first, hfirst, t', ht', hcalls, hx⟩ := hx
  rcases Template.mentions_instantiate hfirst with hbody | ⟨a, ha, inner, hinner⟩
  · exact ⟨name, ⟨args, huse⟩, t', ht', .head ⟨t, ht, hname, hbody⟩ hcalls, hx⟩
  · have hinside : (first, inner) ∈ p.uses := Pattern.uses_of_mem_argument huse ha hinner
    exact ⟨first, ⟨inner, hinside⟩, t', ht', hcalls, hx⟩

end Pattern.Introduces

def Substitution.rename (f : Bytes → Bytes) (σ : Substitution) : Substitution :=
  σ.map (Prod.map id (Pattern.rename f))

namespace Pattern

mutual

/-- Arguments may be renamed before or after they are put in, if free names keep theirs. -/
theorem subst_rename {f : Bytes → Bytes} {σ : Substitution} : ∀ p : Pattern,
    (∀ x ∈ p.vars, σ.lookup x = none → f x = x) →
      p.subst (σ.rename f) = (p.subst σ).rename f
  | .wildcard _, _ | .int _ _, _ | .bool _ _, _ => rfl
  | .var loc name, h => by
    rw [subst, subst, Substitution.rename, lookup_map_snd]
    cases hname : σ.lookup name with
    | some a => rfl
    | none => exact congrArg (var loc) (h name List.mem_cons_self hname).symm
  | .bind loc name sub, h => by
    obtain ⟨hname, hsub⟩ := List.forall_mem_cons.mp h
    rw [subst, subst, subst_rename sub hsub, Substitution.rename, lookup_map_snd]
    cases hlookup : σ.lookup name with
    | some a => rfl
    | none =>
      dsimp only [Option.map_none]
      rw [rename, hname hlookup]
  | .term loc name args, h => congrArg (term loc name) (substAll_rename args h)
  | .all loc parts, h => congrArg (all loc) (substAll_rename parts h)

theorem substAll_rename {f : Bytes → Bytes} {σ : Substitution} : ∀ ps : List Pattern,
    (∀ x ∈ varsAll ps, σ.lookup x = none → f x = x) →
      substAll (σ.rename f) ps = renameAll f (substAll σ ps)
  | [], _ => rfl
  | p :: ps, h => by
    obtain ⟨hp, hps⟩ := List.forall_mem_append.mp h
    rw [substAll, substAll, renameAll, subst_rename p hp, substAll_rename ps hps]

end

end Pattern

theorem Template.instantiate_rename {f : Bytes → Bytes} {t : Template} {args : List Pattern}
    (hargs : args.length = t.params.length) (h : ∀ x, t.Free x → f x = x) :
    t.instantiate (args.map (Pattern.rename f)) = (t.instantiate args).rename f := by
  have hσ : t.substitution (args.map (Pattern.rename f)) = (t.substitution args).rename f := by
    rw [substitution, substitution, Substitution.rename, List.zip_map_right]
  rw [instantiate, instantiate, hσ]
  refine t.body.subst_rename fun x hx hlookup => h x ⟨hx, fun hparam => ?_⟩
  have hlength : args.length = t.names.length := by rw [hargs, names, List.length_map]
  obtain ⟨a, ha⟩ := Check.exists_lookup_zip hlength hparam
  cases hlookup.symm.trans ha

end TermRules

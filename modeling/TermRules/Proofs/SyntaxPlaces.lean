import TermRules.Proofs.RenumberedChecks
import TermRules.Proofs.Spans

/-!
# Places of syntax

The places of a pattern, an expression or a definition are those that its parts
keep. Each of them is the place of a token that it was read from, and putting
arguments into a template makes no new places.
-/

namespace TermRules

mutual

def Pattern.places : Pattern → List Loc
  | .wildcard loc | .var loc _ | .int loc _ | .bool loc _ => [loc]
  | .bind loc _ sub => loc :: sub.places
  | .term loc _ args | .all loc args => loc :: placesAll args

def Pattern.placesAll : List Pattern → List Loc
  | [] => []
  | p :: ps => p.places ++ placesAll ps

end

mutual

def Expr.places : Expr → List Loc
  | .var loc _ | .int loc _ | .bool loc _ => [loc]
  | .term loc _ args => loc :: placesAll args
  | .letIn loc bindings body => loc :: (placesIn bindings ++ body.places)

def Expr.placesAll : List Expr → List Loc
  | [] => []
  | e :: es => e.places ++ placesAll es

def Expr.placesIn : List (Binding Expr) → List Loc
  | [] => []
  | ⟨name, type, value⟩ :: bs => name.loc :: type.loc :: (value.places ++ placesIn bs)

end

def Field.places (f : Field) : List Loc := [f.name.loc, f.type.loc]

def Variant.places (v : Variant) : List Loc := v.name.loc :: v.fields.flatMap Field.places

def TypeBody.places : TypeBody → List Loc
  | .primitive spelling => [spelling.loc]
  | .enum variants => variants.flatMap Variant.places

def TypeDef.places (d : TypeDef) : List Loc := d.loc :: d.name.loc :: d.body.places

def TermDecl.places (d : TermDecl) : List Loc :=
  d.loc :: d.term.loc :: d.ret.loc :: d.args.map Ident.loc

def ExternalDef.places (d : ExternalDef) : List Loc := [d.loc, d.term.loc, d.function.loc]

def Template.places (t : Template) : List Loc :=
  t.loc :: t.term.loc :: (t.params.map Ident.loc ++ t.body.places)

def Guard.places (g : Guard) : List Loc := g.loc :: (g.pattern.places ++ g.value.places)

def Rule.places (r : Rule) : List Loc :=
  r.loc :: (r.name.toList.map Ident.loc ++
    (r.pattern.places ++ (r.guards.flatMap Guard.places ++ r.result.places)))

def Definition.places : Definition → List Loc
  | .type d => d.places
  | .decl d => d.places
  | .external d => d.places
  | .template d => d.places
  | .rule d => d.places

theorem IsList.places {loc : Loc} {inner ts : List Token} (h : IsList loc inner ts) :
    loc ∈ ts.map Token.loc ∧ inner.map Token.loc ⊆ ts.map Token.loc := by
  obtain ⟨close, rfl⟩ := h
  simp

theorem SpansEach.places {α : Type} {spans : α → List Token → Prop} {places : α → List Loc}
    (h : ∀ a ts, spans a ts → places a ⊆ ts.map Token.loc) {as : List α} {ts : List Token}
    (hspans : SpansEach spans as ts) : as.flatMap places ⊆ ts.map Token.loc := by
  induction as generalizing ts with
  | nil => exact List.nil_subset _
  | cons a as ih =>
    obtain ⟨us, vs, rfl, ha, has⟩ := hspans
    rw [List.flatMap_cons, List.map_append]
    exact List.append_subset.mpr
      ⟨List.subset_append_of_subset_left _ (h a us ha),
        List.subset_append_of_subset_right _ (ih has)⟩

mutual

theorem Pattern.Spans.places : ∀ (p : Pattern) {ts : List Token}, p.Spans ts →
    p.places ⊆ ts.map Token.loc
  | .wildcard _, _, h | .var _ _, _, h | .int _ _, _, h | .bool _ _, _, h => by
    rw [Pattern.Spans] at h
    simp [h, Pattern.places]
  | .bind loc name sub, ts, h => by
    obtain ⟨sign, us, rfl, hsub⟩ := h
    rw [Pattern.places, List.cons_subset]
    refine ⟨List.mem_cons_self, ?_⟩
    exact fun l hl => List.mem_cons_of_mem _ (List.mem_cons_of_mem _ (Spans.places sub hsub hl))
  | .term loc name args, ts, h | .all loc args, ts, h => by
    obtain ⟨head, us, hlist, hargs⟩ := h
    obtain ⟨hloc, hinner⟩ := hlist.places
    rw [Pattern.places, List.cons_subset]
    rw [List.map_cons, List.cons_subset] at hinner
    exact ⟨hloc, List.Subset.trans (SpansAll.places args hargs) hinner.2⟩

theorem Pattern.SpansAll.places : ∀ (ps : List Pattern) {ts : List Token}, SpansAll ps ts →
    placesAll ps ⊆ ts.map Token.loc
  | [], _, _ => List.nil_subset _
  | p :: ps, ts, h => by
    obtain ⟨us, vs, rfl, hp, hps⟩ := h
    rw [placesAll, List.map_append, List.append_subset]
    exact ⟨List.subset_append_of_subset_left _ (Spans.places p hp),
      List.subset_append_of_subset_right _ (SpansAll.places ps hps)⟩

end

mutual

theorem Expr.Spans.places : ∀ (e : Expr) {ts : List Token}, e.Spans ts →
    e.places ⊆ ts.map Token.loc
  | .var _ _, _, h | .int _ _, _, h | .bool _ _, _, h => by
    rw [Expr.Spans] at h
    simp [h, Expr.places]
  | .term loc name args, ts, h => by
    obtain ⟨head, us, hlist, hargs⟩ := h
    obtain ⟨hloc, hinner⟩ := hlist.places
    rw [Expr.places, List.cons_subset]
    rw [List.map_cons, List.cons_subset] at hinner
    exact ⟨hloc, List.Subset.trans (SpansAll.places args hargs) hinner.2⟩
  | .letIn loc bindings body, ts, h => by
    obtain ⟨head, first, us, inner, vs, hlist, hbindings, hin, hbody⟩ := h
    obtain ⟨hloc, hinner⟩ := hlist.places
    rw [List.map_cons, List.map_append, List.cons_subset, List.append_subset] at hinner
    rw [Expr.places, List.cons_subset, List.append_subset]
    have hbindings := List.Subset.trans (SpansIn.places bindings hin) hbindings.places.2
    exact ⟨hloc, List.Subset.trans hbindings hinner.2.1,
      List.Subset.trans (Spans.places body hbody) hinner.2.2⟩

theorem Expr.SpansAll.places : ∀ (es : List Expr) {ts : List Token}, SpansAll es ts →
    placesAll es ⊆ ts.map Token.loc
  | [], _, _ => List.nil_subset _
  | e :: es, ts, h => by
    obtain ⟨us, vs, rfl, he, hes⟩ := h
    rw [placesAll, List.map_append, List.append_subset]
    exact ⟨List.subset_append_of_subset_left _ (Spans.places e he),
      List.subset_append_of_subset_right _ (SpansAll.places es hes)⟩

theorem Expr.SpansIn.places : ∀ (bs : List (Binding Expr)) {ts : List Token}, SpansIn bs ts →
    placesIn bs ⊆ ts.map Token.loc
  | [], _, _ => List.nil_subset _
  | ⟨name, type, value⟩ :: bs, ts, h => by
    obtain ⟨first, us, inner, vs, rfl, hlist, hvalue, hbs⟩ := h
    have hhead := hlist.places.2
    simp only [List.map_cons, List.cons_subset] at hhead
    obtain ⟨hname, htype, hinner⟩ := hhead
    have hvalue := List.Subset.trans (Spans.places value hvalue) hinner
    have hbs := SpansIn.places bs hbs
    rw [placesIn, List.map_append, List.cons_subset, List.cons_subset, List.append_subset]
    exact ⟨List.mem_append_left _ hname, List.mem_append_left _ htype,
      List.subset_append_of_subset_left _ hvalue, List.subset_append_of_subset_right _ hbs⟩

end

theorem Field.Spans.places (f : Field) (ts : List Token) (h : f.Spans ts) :
    f.places ⊆ ts.map Token.loc := by
  obtain ⟨first, hlist⟩ := h
  exact hlist.places.2

theorem Variant.Spans.places (v : Variant) (ts : List Token) (h : v.Spans ts) :
    v.places ⊆ ts.map Token.loc := by
  rcases h with ⟨hfields, rfl⟩ | ⟨first, us, hlist, hfields⟩
  · simp [Variant.places, hfields, Ident.token]
  · have hinner := hlist.places.2
    rw [List.map_cons, List.cons_subset] at hinner
    rw [Variant.places, List.cons_subset]
    exact ⟨hinner.1, List.Subset.trans (SpansEach.places Field.Spans.places hfields) hinner.2⟩

theorem TypeBody.Spans.places (b : TypeBody) (ts : List Token) (h : b.Spans ts) :
    b.places ⊆ ts.map Token.loc := by
  cases b with
  | primitive spelling =>
    rcases h with rfl | ⟨first, head, hlist⟩
    · exact List.Subset.refl _
    · exact (List.cons_subset.mp hlist.places.2).2
  | enum variants =>
    obtain ⟨first, head, us, hlist, hvariants⟩ := h
    exact List.Subset.trans (SpansEach.places Variant.Spans.places hvariants)
      (List.cons_subset.mp hlist.places.2).2

theorem TypeDef.Spans.places {d : TypeDef} {ts : List Token} (h : d.Spans ts) :
    d.places ⊆ ts.map Token.loc := by
  obtain ⟨head, flags, us, hlist, hbody⟩ := h
  obtain ⟨hloc, hinner⟩ := hlist.places
  simp only [List.map_cons, List.map_append, List.cons_subset, List.append_subset] at hinner
  rw [TypeDef.places, List.cons_subset, List.cons_subset]
  exact ⟨hloc, hinner.2.1, List.Subset.trans (TypeBody.Spans.places _ _ hbody) hinner.2.2.2⟩

theorem map_loc_token (is : List Ident) : (is.map Ident.token).map Token.loc = is.map Ident.loc :=
  List.map_map

theorem TermDecl.Spans.places {d : TermDecl} {ts : List Token} (h : d.Spans ts) :
    d.places ⊆ ts.map Token.loc := by
  obtain ⟨head, flags, first, us, hlist, hargs⟩ := h
  obtain ⟨hloc, hinner⟩ := hlist.places
  simp only [List.map_cons, List.map_append, List.cons_subset, List.append_subset] at hinner
  obtain ⟨-, -, hterm, hus, hret, -⟩ := hinner
  rw [TermDecl.places, List.cons_subset, List.cons_subset, List.cons_subset, ← map_loc_token]
  exact ⟨hloc, hterm, hret, List.Subset.trans hargs.places.2 hus⟩

theorem ExternalDef.Spans.places {d : ExternalDef} {ts : List Token} (h : d.Spans ts) :
    d.places ⊆ ts.map Token.loc := by
  obtain ⟨head, us, hlist, -⟩ := h
  obtain ⟨hloc, hinner⟩ := hlist.places
  rw [List.map_cons, List.map_append, List.cons_subset, List.append_subset] at hinner
  rw [ExternalDef.places, List.cons_subset]
  exact ⟨hloc, hinner.2.2⟩

theorem Template.Spans.places {t : Template} {ts : List Token} (h : t.Spans ts) :
    t.places ⊆ ts.map Token.loc := by
  obtain ⟨head, first, us, vs, hlist, hhead, hbody⟩ := h
  obtain ⟨hloc, hinner⟩ := hlist.places
  simp only [List.map_cons, List.map_append, List.cons_subset, List.append_subset] at hinner
  have hsignature := List.Subset.trans hhead.places.2 hinner.2.1
  rw [List.map_cons, List.cons_subset, map_loc_token] at hsignature
  rw [Template.places, List.cons_subset, List.cons_subset, List.append_subset]
  exact ⟨hloc, hsignature.1, hsignature.2,
    List.Subset.trans (Pattern.Spans.places _ hbody) hinner.2.2⟩

theorem Guard.Spans.places (g : Guard) (ts : List Token) (h : g.Spans ts) :
    g.places ⊆ ts.map Token.loc := by
  rw [Guard.places, List.cons_subset, List.append_subset]
  rcases h with ⟨head, us, vs, hlist, hpattern, hvalue⟩ | ⟨head, us, hlist, hpattern, hvalue⟩
  · obtain ⟨hloc, hinner⟩ := hlist.places
    rw [List.map_cons, List.map_append, List.cons_subset, List.append_subset] at hinner
    exact ⟨hloc, List.Subset.trans (Pattern.Spans.places _ hpattern) hinner.2.1,
      List.Subset.trans (Expr.Spans.places _ hvalue) hinner.2.2⟩
  · obtain ⟨hloc, hinner⟩ := hlist.places
    rw [List.map_cons, List.cons_subset] at hinner
    rw [hpattern]
    exact ⟨hloc, List.cons_subset.mpr ⟨hinner.1, List.nil_subset _⟩,
      List.Subset.trans (Expr.Spans.places _ hvalue) hinner.2⟩

theorem Rule.Spans.places {r : Rule} {ts : List Token} (h : r.Spans ts) :
    r.places ⊆ ts.map Token.loc := by
  obtain ⟨head, number, us, vs, ws, hlist, -, hpattern, hguards, hresult⟩ := h
  obtain ⟨hloc, hinner⟩ := hlist.places
  simp only [List.map_cons, List.map_append, List.cons_subset, List.append_subset,
    map_loc_token] at hinner
  obtain ⟨-, hname, -, hus, hvs, hws⟩ := hinner
  rw [Rule.places, List.cons_subset, List.append_subset, List.append_subset, List.append_subset]
  exact ⟨hloc, hname, List.Subset.trans (Pattern.Spans.places _ hpattern) hus,
    List.Subset.trans (SpansEach.places Guard.Spans.places hguards) hvs,
    List.Subset.trans (Expr.Spans.places _ hresult) hws⟩

theorem Definition.Spans.places {d : Definition} {ts : List Token} (h : d.Spans ts) :
    d.places ⊆ ts.map Token.loc := by
  cases d with
  | type d => exact TypeDef.Spans.places h
  | decl d => exact TermDecl.Spans.places h
  | external d => exact ExternalDef.Spans.places h
  | template d => exact Template.Spans.places h
  | rule d => exact Rule.Spans.places h

namespace Pattern

theorem placesAll_subset_iff {ps : List Pattern} {L : List Loc} :
    placesAll ps ⊆ L ↔ ∀ p ∈ ps, p.places ⊆ L := by
  induction ps with
  | nil => simp [placesAll]
  | cons p ps ih => rw [placesAll, List.append_subset, ih, List.forall_mem_cons]

section Substitution

variable {L : List Loc} {σ : Substitution}

theorem places_lookup (hσ : ∀ binding ∈ σ, binding.2.places ⊆ L) {name : Bytes} {p : Pattern}
    (h : σ.lookup name = some p) : p.places ⊆ L := by
  obtain ⟨l₁, l₂, rfl, -⟩ := List.lookup_eq_some_iff.mp h
  exact hσ (name, p) (List.mem_append_right _ List.mem_cons_self)

mutual

theorem places_subst (hσ : ∀ binding ∈ σ, binding.2.places ⊆ L) :
    ∀ p : Pattern, p.places ⊆ L → (p.subst σ).places ⊆ L
  | .wildcard _, h | .int _ _, h | .bool _ _, h => h
  | .var loc name, h => by
    rw [subst]
    cases hlookup : σ.lookup name with
    | none => exact h
    | some arg => exact places_lookup hσ hlookup
  | .bind loc name sub, h => by
    rw [places, List.cons_subset] at h
    have hsub := places_subst hσ sub h.2
    rw [subst]
    cases hlookup : σ.lookup name with
    | none => exact List.cons_subset.mpr ⟨h.1, hsub⟩
    | some arg =>
      rw [places, List.cons_subset, placesAll_subset_iff]
      refine ⟨h.1, ?_⟩
      simpa using ⟨places_lookup hσ hlookup, hsub⟩
  | .term loc name args, h | .all loc args, h => by
    rw [places, List.cons_subset] at h
    rw [subst, places, List.cons_subset]
    exact ⟨h.1, places_substAll hσ args h.2⟩

theorem places_substAll (hσ : ∀ binding ∈ σ, binding.2.places ⊆ L) :
    ∀ ps : List Pattern, placesAll ps ⊆ L → placesAll (substAll σ ps) ⊆ L
  | [], h => h
  | p :: ps, h => by
    rw [placesAll, List.append_subset] at h
    rw [substAll, placesAll, List.append_subset]
    exact ⟨places_subst hσ p h.1, places_substAll hσ ps h.2⟩

end

end Substitution

end Pattern

theorem Template.places_instantiate {L : List Loc} {t : Template} (ht : t.places ⊆ L)
    {args : List Pattern} (hargs : ∀ a ∈ args, a.places ⊆ L) :
    (t.instantiate args).places ⊆ L := by
  rw [Template.places, List.cons_subset, List.cons_subset, List.append_subset] at ht
  refine Pattern.places_subst (fun binding hbinding => ?_) t.body ht.2.2.2
  exact hargs binding.2 (List.of_mem_zip hbinding).2

end TermRules

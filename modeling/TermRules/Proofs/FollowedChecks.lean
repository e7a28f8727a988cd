import TermRules.Proofs.ScopeMoves

/-!
# Checks that follow a node

A pattern or an expression that is the erasure of a node is answered by this
node, with all variables numbered on from those of the scope.
-/

namespace TermRules

namespace Check

variable {rs : RuleSet} {vars : Array VarInfo}

theorem length_eq_of_erased {cs : List CheckedPattern} {ps : List Pattern}
    (h : Pattern.relocateAll Loc.forget ps =
      Pattern.relocateAll Loc.forget (CheckedPattern.eraseAll rs vars cs)) :
    ps.length = cs.length := by
  rw [← Pattern.length_relocateAll Loc.forget ps, h, Pattern.length_relocateAll,
    CheckedPattern.length_eraseAll]

theorem term_of_erased (hlinked : rs.Linked) {id : TermId} {info : TermInfo}
    (found : rs.terms.get? id = some info) {p : Pattern} {loc : Loc} {cs : List CheckedPattern}
    (h : p.relocate Loc.forget =
      (Pattern.term loc (rs.termInfo id).name (CheckedPattern.eraseAll rs vars cs)).relocate
        Loc.forget) :
    ∃ loc ps, p = .term loc info.name ps ∧ rs.terms.find? info.name = some id ∧
      Pattern.relocateAll Loc.forget ps =
        Pattern.relocateAll Loc.forget (CheckedPattern.eraseAll rs vars cs) := by
  cases p with
  | term loc' name ps =>
    injection h with _ hname hps
    rw [RuleSet.termInfo_of_get? found] at hname
    exact ⟨loc', ps, by rw [hname], hlinked.terms.find? found, hps⟩
  | _ => cases h

section Patterns

variable {expand : Loc → TermId → Pattern → TypeId → Check CheckedPattern} {s s' : Scope}

structure ExpandsWell (rs : RuleSet)
    (expand : Loc → TermId → Pattern → TypeId → Check CheckedPattern) : Prop where
  moves : Expands rs expand
  below : ExpandsBelow rs expand

theorem expandsWell_inside (hrs : rs.Consistent) (room : Nat) (expanding : List TermId) :
    ExpandsWell rs (expandInside rs room expanding) where
  moves := expands_expandInside room expanding
  below htype hs h := by
    obtain ⟨room', expanding', h⟩ := expandInside_ok h
    exact patternInside_below hrs.bounded room' expanding' _ htype hs h

theorem moves_patternWith (hrs : rs.Consistent) (hexpand : ExpandsWell rs expand) {p : Pattern}
    {c c' : CheckedPattern} (hs : s.Serves rs vars) (htype : c.type < rs.types.size)
    (h : (patternWith rs expand p c.type).run s = .ok c' s')
    (hc : c'.renumber .forgetting = c.renumber .forgetting) (hw : s'.Within vars) :
    s.Moves rs vars s' c.defined c.defined := by
  have hextends := (patternWith_extends hexpand.moves p hs.valid h).2
  rw [CheckedPattern.defined_eq hc] at hextends
  exact hextends.moves hw (patternWith_below hrs.bounded hexpand.below p htype hs.below h)

theorem moves_patternsWith (hrs : rs.Consistent) (hexpand : ExpandsWell rs expand)
    {ps : List Pattern} {types : List TypeId} {cs cs' : List CheckedPattern}
    (hs : s.Serves rs vars) (hcount : ps.length = types.length)
    (htypes : ∀ type ∈ types, type < rs.types.size)
    (h : (patternsWith rs expand ps types).run s = .ok cs' s')
    (hcs : CheckedPattern.renumberAll .forgetting cs' = CheckedPattern.renumberAll .forgetting cs)
    (hw : s'.Within vars) :
    s.Moves rs vars s' (CheckedPattern.definedAll cs) (CheckedPattern.definedAll cs) := by
  have hextends := (patternsWith_extend hexpand.moves ps hs.valid hcount h).2
  rw [CheckedPattern.definedAll_eq hcs] at hextends
  exact hextends.moves hw (patternsWith_below hrs.bounded hexpand.below ps htypes hs.below h)

mutual

theorem exists_patternWith (hrs : rs.Consistent) (hexpand : ExpandsWell rs expand) :
    ∀ (c : CheckedPattern) {p : Pattern} {s : Scope}, s.Serves rs vars →
      s.Continues c.defined → c.Fresh vars s.visible → c.Scoped vars s.visible →
      c.Typed rs vars → c.type < rs.types.size →
      p.relocate Loc.forget = (c.erase rs vars).relocate Loc.forget →
      ∃ c' s', (patternWith rs expand p c.type).run s = .ok c' s' ∧
        c'.renumber .forgetting = c.renumber .forgetting ∧ s'.Within vars
  | .wildcard st, p, s, hs, _, _, _, _, _, hp => by
      cases p with
      | wildcard loc => exact ⟨_, s, rfl, rfl, hs.within⟩
      | _ => cases hp
  | .int st value, p, s, hs, _, _, _, htyped, _, hp => by
      cases p with
      | int loc value' =>
        cases hp
        refine ⟨.int ⟨st.type, loc⟩ value, s, ?_, rfl, hs.within⟩
        simp only [patternWith, run_bind_ok, run_ensurePrimitive_ok, run_pure_ok]
        exact ⟨(), s, ⟨htyped, rfl⟩, rfl, rfl⟩
      | _ => cases hp
  | .bool st value, p, s, hs, _, _, _, htyped, _, hp => by
      cases p with
      | bool loc value' =>
        cases hp
        refine ⟨.bool ⟨st.type, loc⟩ value, s, ?_, rfl, hs.within⟩
        simp only [patternWith, run_bind_ok, run_ensureType_ok, run_pure_ok]
        exact ⟨(), s, ⟨htyped.symm, rfl⟩, rfl, rfl⟩
      | _ => cases hp
  | .equal st v, p, s, hs, _, _, hscoped, htyped, _, hp => by
      cases p with
      | var loc name =>
        cases hp
        have hf : s.find? (Visible.nameOf vars v) = some v := hscoped
        have htype := hasVar_inj (hs.valid.of_find? hf hs.within).2 htyped
        refine ⟨.equal ⟨st.type, loc⟩ v, s, ?_, rfl, hs.within⟩
        simp only [patternWith, run_bind_ok, run_get_ok]
        refine ⟨s, s, ⟨rfl, rfl⟩, ?_⟩
        simp only [hf, run_bind_ok, run_ensureType_ok, run_pure_ok]
        exact ⟨(), s, ⟨htype, rfl⟩, rfl, rfl⟩
      | _ => cases hp
  | .bind st v, p, s, hs, hcont, hfresh, _, htyped, hlt, hp => by
      cases p with
      | var loc name =>
        cases hp
        obtain ⟨rfl, -⟩ := hcont.cons
        have hf : s.find? (Visible.nameOf vars s.vars.size) = none := hfresh
        refine ⟨.bind ⟨st.type, loc⟩ s.vars.size, s.bind _ st.type, ?_, rfl,
          (hs.bind htyped hlt).within⟩
        simp only [patternWith, run_bind_ok, run_get_ok]
        refine ⟨s, s, ⟨rfl, rfl⟩, ?_⟩
        simp only [hf, run_bind_ok, run_bindVar_ok, run_pure_ok]
        exact ⟨_, _, ⟨rfl, rfl⟩, rfl, rfl⟩
      | _ => cases hp
  | .bindAs st v sub, p, s, hs, hcont, ⟨hfree, hfresh⟩, hscoped, ⟨hv, htype, htyped⟩, hlt, hp => by
      cases p with
      | bind loc name p =>
        injection hp with _ hname hp
        cases hname
        obtain ⟨rfl, hcontSub⟩ := hcont.cons
        have hf : s.find? (Visible.nameOf vars s.vars.size) = none := hfree
        have hbind := hs.bind hv hlt
        have hsub : sub.type < rs.types.size := htype ▸ hlt
        obtain ⟨c', t, hrun, hc, hw⟩ := exists_patternWith hrs hexpand sub hbind
          (hcontSub _ (Array.size_push _)) hfresh hscoped htyped hsub hp
        rw [htype] at hrun
        refine ⟨.bindAs ⟨st.type, loc⟩ s.vars.size c', t, ?_, ?_, hw⟩
        · simp only [patternWith, run_bind_ok, run_get_ok, run_require_ok, run_bindVar_ok,
            run_pure_ok]
          exact ⟨s, s, ⟨rfl, rfl⟩, (), s, ⟨by rw [hf]; rfl, rfl⟩, _, _, ⟨rfl, rfl⟩, c', t, hrun,
            rfl, rfl⟩
        · rw [CheckedPattern.renumber, hc]
          rfl
      | _ => cases hp
  | .all st parts, p, s, hs, hcont, hfresh, hscoped, ⟨htypes, htyped⟩, hlt, hp => by
      cases p with
      | all loc ps =>
        injection hp with _ hps
        obtain ⟨cs, t, hrun, hcs, hw⟩ := exists_patternsWith hrs hexpand parts hs
          hcont hfresh hscoped htyped (fun c hc => htypes c hc ▸ hlt) hps
        refine ⟨.all ⟨st.type, loc⟩ cs, t, ?_, ?_, hw⟩
        · have hcount := length_eq_of_erased hps
          have hmap : (ps.map fun _ => st.type) = parts.map CheckedPattern.type := by
            rw [List.map_const', hcount, List.map_eq_replicate_iff.mpr htypes]
          simp only [CheckedPattern.type, CheckedPattern.site, patternWith, run_bind_ok,
            run_pure_ok, hmap]
          exact ⟨cs, t, hrun, rfl, rfl⟩
        · rw [CheckedPattern.renumber, hcs]
          rfl
      | _ => cases hp
  | .variant st id args, p, s, hs, hcont, hfresh, hscoped, ⟨happlies, htyped⟩, _, hp => by
      obtain ⟨info, found, hargs, hret, ref, he⟩ := happlies
      obtain ⟨loc, ps, rfl, hf, hps⟩ := term_of_erased hrs.linked found hp
      obtain ⟨cs, t, hrun, hcs, hw⟩ := exists_patternsWith hrs hexpand args hs hcont
        hfresh hscoped htyped (hrs.bounded.arg_lt found hargs) hps
      refine ⟨.variant ⟨info.ret, loc⟩ id cs, t, ?_, ?_, hw⟩
      · rw [CheckedPattern.type, CheckedPattern.site, ← hret]
        rw [← hargs] at hrun
        exact run_patternWith_term hf found (.variant he) (by
          rw [hargs, List.length_map, length_eq_of_erased hps]) hrun
      · rw [CheckedPattern.renumber, hcs, hret]
        rfl
  | .extractor st id args, p, s, hs, hcont, hfresh, hscoped, ⟨happlies, htyped⟩, _, hp => by
      obtain ⟨info, found, hargs, hret, _, _, _, he⟩ := happlies
      obtain ⟨loc, ps, rfl, hf, hps⟩ := term_of_erased hrs.linked found hp
      obtain ⟨cs, t, hrun, hcs, hw⟩ := exists_patternsWith hrs hexpand args hs hcont
        hfresh hscoped htyped (hrs.bounded.arg_lt found hargs) hps
      refine ⟨.extractor ⟨info.ret, loc⟩ id cs, t, ?_, ?_, hw⟩
      · rw [CheckedPattern.type, CheckedPattern.site, ← hret]
        rw [← hargs] at hrun
        exact run_patternWith_term hf found (.extractor he) (by
          rw [hargs, List.length_map, length_eq_of_erased hps]) hrun
      · rw [CheckedPattern.renumber, hcs, hret]
        rfl

theorem exists_patternsWith (hrs : rs.Consistent) (hexpand : ExpandsWell rs expand) :
    ∀ (cs : List CheckedPattern) {ps : List Pattern} {s : Scope}, s.Serves rs vars →
      s.Continues (CheckedPattern.definedAll cs) → CheckedPattern.FreshAll vars cs s.visible →
      CheckedPattern.ScopedAll vars cs s.visible → CheckedPattern.TypedAll rs vars cs →
      (∀ c ∈ cs, c.type < rs.types.size) →
      Pattern.relocateAll Loc.forget ps =
        Pattern.relocateAll Loc.forget (CheckedPattern.eraseAll rs vars cs) →
      ∃ cs' s', (patternsWith rs expand ps (cs.map CheckedPattern.type)).run s = .ok cs' s' ∧
        CheckedPattern.renumberAll .forgetting cs' = CheckedPattern.renumberAll .forgetting cs ∧
        s'.Within vars
  | [], ps, s, hs, _, _, _, _, _, hps => by
      cases ps with
      | nil => exact ⟨[], s, rfl, rfl, hs.within⟩
      | cons p ps => cases hps
  | c :: cs, ps, s, hs, hcont, ⟨hfresh, hfreshAll⟩, ⟨hscoped, hscopedAll⟩, ⟨htyped, htypedAll⟩,
      hlt, hps => by
      cases ps with
      | nil => cases hps
      | cons p ps =>
        injection hps with hp hps
        obtain ⟨hlt, hltAll⟩ := List.forall_mem_cons.mp hlt
        obtain ⟨hcont, hcontAll⟩ := hcont.append
        obtain ⟨c', t, hrun, hc, hw⟩ := exists_patternWith hrs hexpand c hs hcont
          hfresh hscoped htyped hlt hp
        have hmoves := moves_patternWith hrs hexpand hs hlt hrun hc hw
        rw [← hmoves.visible_eq] at hfreshAll hscopedAll
        obtain ⟨cs', u, hrunAll, hcs, hwAll⟩ := exists_patternsWith hrs hexpand cs
          hmoves.serves (hcontAll t hmoves.size_eq) hfreshAll hscopedAll htypedAll hltAll hps
        refine ⟨c' :: cs', u, ?_, congrArg₂ List.cons hc hcs, hwAll⟩
        simp only [List.map_cons, patternsWith, run_bind_ok, run_pure_ok]
        exact ⟨c', t, hrun, cs', u, hrunAll, rfl, rfl⟩

end

end Patterns

section Exprs

variable {s s' : Scope}

structure Expects (rs : RuleSet) (e : Expr) (c : CheckedExpr) (expected : Option TypeId) :
    Prop where
  type : ∀ type, expected = some type → type = c.type ∧ type < rs.types.size
  shown : expected = none → ¬e.EndsInInt

theorem expects_some {e : Expr} {c : CheckedExpr} (h : c.type < rs.types.size) :
    Expects rs e c (some c.type) where
  type _ ht := Option.some.inj ht ▸ ⟨rfl, h⟩
  shown h := by cases h

theorem moves_expr (hrs : rs.Consistent) {e : Expr} {c c' : CheckedExpr} {expected : Option TypeId}
    (hs : s.Serves rs vars) (hexpects : Expects rs e c expected)
    (h : (expr rs e expected).run s = .ok c' s')
    (hc : c'.renumber .forgetting = c.renumber .forgetting) (hw : s'.Within vars) :
    s.Moves rs vars s' c.defined [] := by
  have hextends := (expr_extends e hs.valid h).2
  rw [CheckedExpr.defined_eq hc] at hextends
  have hbelow := expr_below hrs.bounded e (fun type ht => (hexpects.type type ht).2) hs.below h
  exact hextends.moves hw hbelow.1

theorem moves_bindings (hrs : rs.Consistent) {bs : List (Binding Expr)}
    {cs cs' : List (CheckedBinding CheckedExpr)} (hs : s.Serves rs vars)
    (h : (bindings rs bs).run s = .ok cs' s')
    (hcs : CheckedExpr.renumberIn .forgetting cs' = CheckedExpr.renumberIn .forgetting cs)
    (hw : s'.Within vars) :
    s.Moves rs vars s' (CheckedExpr.definedIn cs) (cs.map CheckedBinding.var) := by
  have hextends := bindings_extend bs hs.valid h
  have hdefined : CheckedExpr.definedIn cs' = CheckedExpr.definedIn cs := by
    rw [← CheckedExpr.definedIn_renumberIn .forgetting cs', hcs, CheckedExpr.definedIn_renumberIn]
  have hvars : cs'.map CheckedBinding.var = cs.map CheckedBinding.var := by
    rw [← CheckedExpr.map_var_renumberIn .forgetting cs', hcs, CheckedExpr.map_var_renumberIn]
  rw [BindingsExtend, hdefined, hvars] at hextends
  exact hextends.moves hw (bindings_below hrs.bounded bs hs.below h)

mutual

theorem exists_expr (hrs : rs.Consistent) :
    ∀ (c : CheckedExpr) {e : Expr} {expected : Option TypeId} {s : Scope}, s.Serves rs vars →
      s.Continues c.defined → c.Scoped vars s.visible → c.Typed rs vars → Expects rs e c expected →
      e.relocate Loc.forget = (c.erase rs vars).relocate Loc.forget →
      ∃ c' s', (expr rs e expected).run s = .ok c' s' ∧
        c'.renumber .forgetting = c.renumber .forgetting ∧ s'.Within vars
  | .var st v, e, expected, s, hs, _, hscoped, htyped, hexpects, he => by
      cases e with
      | var loc name =>
        cases he
        have hf : s.find? (Visible.nameOf vars v) = some v := hscoped
        have htype := hasVar_inj (hs.valid.of_find? hf hs.within).2 htyped
        refine ⟨.var ⟨s.typeOf v, loc⟩ v, s, ?_, ?_, hs.within⟩
        · simp only [expr, run_bind_ok, run_get_ok]
          refine ⟨s, s, ⟨rfl, rfl⟩, ?_⟩
          simp only [hf, run_bind_ok, run_ensureTypeIf_ok, run_pure_ok]
          exact ⟨(), s, ⟨fun type ht => htype.trans (hexpects.type type ht).1.symm, rfl⟩, trivial,
            rfl⟩
        · rw [htype]
          rfl
      | _ => cases he
  | .int st value, e, expected, s, hs, _, _, htyped, hexpects, he => by
      cases e with
      | int loc value' =>
        cases he
        cases expected with
        | none => exact absurd trivial (hexpects.shown rfl)
        | some type =>
          obtain ⟨rfl, -⟩ := hexpects.type type rfl
          refine ⟨.int ⟨st.type, loc⟩ value, s, ?_, rfl, hs.within⟩
          simp only [expr, run_bind_ok, run_ensurePrimitive_ok, run_pure_ok]
          exact ⟨(), s, ⟨htyped, rfl⟩, rfl, rfl⟩
      | _ => cases he
  | .bool st value, e, expected, s, hs, _, _, htyped, hexpects, he => by
      cases e with
      | bool loc value' =>
        cases he
        have htype : st.type = boolType := htyped
        refine ⟨.bool ⟨boolType, loc⟩ value, s, ?_, ?_, hs.within⟩
        · simp only [expr, run_bind_ok, run_ensureTypeIf_ok, run_pure_ok]
          exact ⟨(), s, ⟨fun type ht => htype.symm.trans (hexpects.type type ht).1.symm, rfl⟩,
            trivial, rfl⟩
        · rw [← htype]
          rfl
      | _ => cases he
  | .call st id args, e, expected, s, hs, hcont, hscoped, ⟨happlies, htyped⟩, hexpects, he => by
      obtain ⟨info, found, hargs, hret, hpresent⟩ := happlies
      cases e with
      | term loc name es =>
        injection he with _ hname hes
        have hinfo := RuleSet.termInfo_of_get? found
        rw [hinfo] at hname
        have hf : rs.terms.find? name = some id := hname ▸ hrs.linked.terms.find? found
        obtain ⟨cs, t, hrun, hcs, hw⟩ := exists_exprs hrs args hs hcont hscoped htyped
          (hrs.bounded.arg_lt found hargs) hes
        rw [← hargs] at hrun
        refine ⟨.call ⟨info.ret, loc⟩ id cs, t, ?_, ?_, hw⟩
        · simp only [expr, run_bind_ok, run_findTerm_ok, run_require_ok, run_ensureTypeIf_ok,
            run_ensureCount_ok, run_pure_ok]
          refine ⟨id, s, ⟨hf, rfl⟩, ?_⟩
          rw [hinfo]
          have hcount : es.length = info.args.length := by
            rw [hargs, List.length_map, ← Expr.length_relocateAll Loc.forget es, hes,
              Expr.length_relocateAll, CheckedExpr.length_eraseAll]
          exact ⟨(), s, ⟨bne_iff_ne.mpr hpresent, rfl⟩, (), s,
            ⟨fun type ht => hret.trans (hexpects.type type ht).1.symm, rfl⟩, (), s, ⟨hcount, rfl⟩,
            cs, t, hrun, rfl, rfl⟩
        · rw [CheckedExpr.renumber, hcs, hret]
          rfl
      | _ => cases he
  | .letIn st bs body, e, expected, s, hs, hcont, ⟨hscopedIn, hscoped⟩, ⟨htype, htypedIn, htyped⟩,
      hexpects, he => by
      cases e with
      | letIn loc bs' body' =>
        injection he with _ hbs hbody
        obtain ⟨hcontIn, hcont⟩ := hcont.append
        obtain ⟨cs, t, hrun, hcs, hw⟩ := exists_bindings hrs bs hs hcontIn hscopedIn
          htypedIn hbs
        have hmoves := moves_bindings hrs hs hrun hcs hw
        rw [← hmoves.visible_eq] at hscoped
        have hexpectsBody : Expects rs body' body expected :=
          ⟨fun type ht => htype ▸ hexpects.type type ht, hexpects.shown⟩
        obtain ⟨c', u, hrunBody, hc, hwBody⟩ := exists_expr hrs body hmoves.serves
          (hcont t hmoves.size_eq) hscoped htyped hexpectsBody hbody
        refine ⟨.letIn ⟨c'.type, loc⟩ cs c', { u with visible := s.visible }, ?_, ?_, hwBody⟩
        · simp only [expr, run_bind_ok, run_get_ok, run_modify_ok, run_pure_ok]
          exact ⟨s, s, ⟨rfl, rfl⟩, cs, t, hrun, c', u, hrunBody, (), _, rfl, rfl, rfl⟩
        · rw [CheckedExpr.renumber, CheckedExpr.renumber, hcs, hc, CheckedExpr.type_eq hc, htype]
          rfl
      | _ => cases he

theorem exists_exprs (hrs : rs.Consistent) :
    ∀ (cs : List CheckedExpr) {es : List Expr} {s : Scope}, s.Serves rs vars →
      s.Continues (CheckedExpr.definedAll cs) → CheckedExpr.ScopedAll vars cs s.visible →
      CheckedExpr.TypedAll rs vars cs → (∀ c ∈ cs, c.type < rs.types.size) →
      Expr.relocateAll Loc.forget es =
        Expr.relocateAll Loc.forget (CheckedExpr.eraseAll rs vars cs) →
      ∃ cs' s', (exprs rs es (cs.map CheckedExpr.type)).run s = .ok cs' s' ∧
        CheckedExpr.renumberAll .forgetting cs' = CheckedExpr.renumberAll .forgetting cs ∧
        s'.Within vars
  | [], es, s, hs, _, _, _, _, hes => by
      cases es with
      | nil => exact ⟨[], s, rfl, rfl, hs.within⟩
      | cons e es => cases hes
  | c :: cs, es, s, hs, hcont, ⟨hscoped, hscopedAll⟩, ⟨htyped, htypedAll⟩, hlt, hes => by
      cases es with
      | nil => cases hes
      | cons e es =>
        injection hes with he hes
        obtain ⟨hlt, hltAll⟩ := List.forall_mem_cons.mp hlt
        obtain ⟨hcont, hcontAll⟩ := hcont.append
        have hexpects : Expects rs e c (some c.type) := expects_some hlt
        obtain ⟨c', t, hrun, hc, hw⟩ := exists_expr hrs c hs hcont hscoped htyped hexpects he
        have hmoves := moves_expr hrs hs hexpects hrun hc hw
        rw [← Visible.bind_nil vars s.visible, ← hmoves.visible_eq] at hscopedAll
        obtain ⟨cs', u, hrunAll, hcs, hwAll⟩ := exists_exprs hrs cs hmoves.serves
          (hcontAll t hmoves.size_eq) hscopedAll htypedAll hltAll hes
        refine ⟨c' :: cs', u, ?_, congrArg₂ List.cons hc hcs, hwAll⟩
        simp only [List.map_cons, exprs, run_bind_ok, run_pure_ok]
        exact ⟨c', t, hrun, cs', u, hrunAll, rfl, rfl⟩

theorem exists_bindings (hrs : rs.Consistent) :
    ∀ (cs : List (CheckedBinding CheckedExpr)) {bs : List (Binding Expr)} {s : Scope},
      s.Serves rs vars → s.Continues (CheckedExpr.definedIn cs) →
      CheckedExpr.ScopedIn vars cs s.visible → CheckedExpr.TypedIn rs vars cs →
      Expr.relocateIn Loc.forget bs =
        Expr.relocateIn Loc.forget (CheckedExpr.eraseIn rs vars cs) →
      ∃ cs' s', (bindings rs bs).run s = .ok cs' s' ∧
        CheckedExpr.renumberIn .forgetting cs' = CheckedExpr.renumberIn .forgetting cs ∧
        s'.Within vars
  | [], bs, s, hs, _, _, _, hbs => by
      cases bs with
      | nil => exact ⟨[], s, rfl, rfl, hs.within⟩
      | cons b bs => cases hbs
  | ⟨v, value⟩ :: cs, bs, s, hs, hcont, ⟨hscoped, hscopedIn⟩, ⟨hv, htyped, htypedIn⟩, hbs => by
      cases bs with
      | nil => cases hbs
      | cons b bs =>
        obtain ⟨name, typeName, e⟩ := b
        injection hbs with hb hbs
        injection hb with hname htypeName he
        have hlt := value.type_lt hrs.bounded hs.known hscoped htyped
        have hfound : rs.types.find? typeName.name = some value.type := by
          obtain ⟨info, hinfo, htype⟩ := Option.map_eq_some_iff.mp hv
          have hdeclared := congrArg Ident.name htypeName
          rw [Ident.relocate, Ident.relocate, hinfo, Option.getD_some, htype] at hdeclared
          rw [hdeclared, hrs.linked.find?_typeName hlt]
        obtain ⟨hcont, hcontIn⟩ := hcont.append
        have hexpects : Expects rs e value (some value.type) := expects_some hlt
        obtain ⟨c', t, hrun, hc, hw⟩ :=
          exists_expr hrs value hs hcont hscoped htyped hexpects he
        have hmoves := moves_expr hrs hs hexpects hrun hc hw
        obtain ⟨rfl, hcontBind⟩ := (hcontIn t hmoves.size_eq).cons
        have hbind := hmoves.serves.bind hv hlt
        have hvisible : (t.bind (Visible.nameOf vars t.vars.size) value.type).visible =
            Visible.bind vars s.visible [t.vars.size] := by
          rw [Scope.bind, hmoves.visible_eq]
          rfl
        rw [← hvisible] at hscopedIn
        obtain ⟨cs', u, hrunIn, hcs, hwIn⟩ := exists_bindings hrs cs hbind
          (hcontBind _ (Array.size_push _)) hscopedIn htypedIn hbs
        refine ⟨⟨t.vars.size, c'⟩ :: cs', u, ?_, ?_, hwIn⟩
        · have hname : name.name = Visible.nameOf vars t.vars.size := congrArg Ident.name hname
          simp only [bindings, hfound, run_bind_ok, run_bindVar_ok, run_pure_ok, hname]
          exact ⟨c', t, hrun, _, _, ⟨rfl, rfl⟩, cs', u, hrunIn, rfl, rfl⟩
        · rw [CheckedExpr.renumberIn, CheckedExpr.renumberIn, hc, hcs]

end

end Exprs

end Check

end TermRules

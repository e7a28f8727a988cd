import TermRules.Proofs.RefutableRules

/-!
# Blocks of rules that can fail

The lowering writes a statement into the block of a rule that leaves it exactly
if the rule can fail. Blocks are written up to the first that is never left.
-/

namespace TermRules

namespace Zig

namespace Lower

def Leaves (ts : List Statement) : Prop := ∃ t ∈ ts, t.breaks = true

theorem leaves_append {ts us : List Statement} : Leaves (ts ++ us) ↔ Leaves ts ∨ Leaves us := by
  simp only [Leaves, List.mem_append, or_and_right, exists_or]

theorem leaves_singleton {t : Statement} : Leaves [t] ↔ t.breaks = true := by
  simp [Leaves]

theorem breaks_eq_true_iff {b : Block} : b.breaks = true ↔ Leaves b.body := by
  rw [Block.breaks, List.any_eq_true, Leaves]

/-- The lowering adds a statement that leaves the block exactly in this case. -/
def AddsBreak {α : Type} (x : Lower α) (P : Prop) : Prop :=
  ∀ d, Leaves (x.run d).2.body ↔ Leaves d.body ∨ P

section AddsBreak

variable {α β : Type} {P Q : Prop}

theorem AddsBreak.congr {x : Lower α} (hPQ : P ↔ Q) (h : AddsBreak x P) : AddsBreak x Q := by
  intro d
  rw [h d, hPQ]

theorem AddsBreak.bind {x : Lower α} {f : α → Lower β} (hx : AddsBreak x P)
    (hf : ∀ a, AddsBreak (f a) Q) : AddsBreak (x >>= f) (P ∨ Q) := by
  intro d
  rw [run_bind, hf, hx, or_assoc]

theorem addsBreak_of_body {x : Lower α} (h : ∀ d, (x.run d).2.body = d.body) :
    AddsBreak x False := by
  intro d
  rw [h, or_false]

theorem AddsBreak.then {x : Lower α} {f : α → Lower β} (hx : AddsBreak x False)
    (hf : ∀ a, AddsBreak (f a) P) : AddsBreak (x >>= f) P :=
  .congr (by rw [false_or]) (hx.bind hf)

theorem AddsBreak.before {x : Lower α} {f : α → Lower β} (hx : AddsBreak x P)
    (hf : ∀ a, AddsBreak (f a) False) : AddsBreak (x >>= f) P :=
  .congr (by rw [or_false]) (hx.bind hf)

theorem addsBreak_pure (a : α) : AddsBreak (pure a : Lower α) False :=
  addsBreak_of_body fun _ => rfl

theorem addsBreak_use (v : Value) : AddsBreak (use v) False :=
  addsBreak_of_body fun d => by rw [run_use, Draft.mark_body]

theorem addsBreak_useContext : AddsBreak useContext False := addsBreak_of_body fun _ => rfl

theorem addsBreak_setVar (var : VarId) (v : Value) : AddsBreak (setVar var v) False :=
  addsBreak_of_body fun _ => rfl

theorem addsBreak_getVar (var : VarId) : AddsBreak (getVar var) False :=
  addsBreak_of_body fun _ => rfl

theorem addsBreak_emit (t : Statement) : AddsBreak (emit t) (t.breaks = true) := by
  intro d
  rw [run_emit, Draft.emit_body, leaves_append, leaves_singleton]

theorem addsBreak_breakIf (c : Condition) : AddsBreak (emit (.breakIf c)) True :=
  .congr (by simp [Statement.breaks]) (addsBreak_emit _)

theorem addsBreak_newLocal (type : Option TypeId) (v : Value) (orBreak : Bool) :
    AddsBreak (newLocal type v orBreak) (orBreak = true) := by
  intro d
  rw [run_newLocal, Draft.keep_body, leaves_append, leaves_singleton]
  rfl

end AddsBreak

section Patterns

variable {rs : RuleSet} {vars : Array VarInfo}

theorem refutable_iff_of_nodes {p : CheckedPattern} {ps : List CheckedPattern} {P : Prop}
    (hnodes : p.nodes = p :: ps) (hp : p.Tests rs ↔ P) :
    p.Refutable rs ↔ P ∨ ∃ q ∈ ps, q.Tests rs := by
  rw [CheckedPattern.Refutable, hnodes, List.exists_mem_cons_iff, hp]

open CheckedPattern in
mutual

theorem addsBreak_matchPattern : ∀ {p : CheckedPattern}, p.Typed rs vars → ∀ v : Value,
    AddsBreak (matchPattern rs p v) (p.Refutable rs)
  | .wildcard _, _, v =>
      .congr (by simp [Refutable, nodes, tests_iff]) (addsBreak_pure ())
  | .bind _ var, _, v =>
      .congr (by simp [Refutable, nodes, tests_iff]) (addsBreak_setVar var v)
  | .bindAs _ var sub, ⟨_, _, hsub⟩, v =>
      .congr (by simp [Refutable, nodes, tests_iff])
        ((addsBreak_setVar var v).then fun _ => addsBreak_matchPattern hsub v)
  | .equal site var, _, v =>
      .congr (by simp [Refutable, nodes, tests_iff])
        ((addsBreak_getVar var).then fun bound => (addsBreak_use v).then fun _ =>
          (addsBreak_use bound).then fun _ => addsBreak_breakIf _)
  | .int _ n, _, v =>
      .congr (by simp [Refutable, nodes, tests_iff])
        ((addsBreak_use v).then fun _ => addsBreak_breakIf _)
  | .bool _ b, _, v =>
      .congr (by cases b <;> simp [Refutable, nodes, tests_iff])
        ((addsBreak_use v).then fun _ => addsBreak_breakIf _)
  | .variant _ term args, ⟨_, hargs⟩, v =>
      .congr (by simp [Refutable, nodes, tests_iff])
        ((addsBreak_use v).then fun _ => (addsBreak_breakIf _).bind fun _ =>
          addsBreak_matchAll hargs (length_payloads _ _ _).symm)
  | .extractor s term args, ⟨⟨info, hinfo, _, _, _, _, _, hext⟩, hargs⟩, v => by
      rw [← RuleSet.termInfo_of_get? hinfo] at hext
      have hown : (extractor s term args).Tests rs ↔ (!isInfallible rs term) = true := by
        simp [tests_iff, isInfallible_eq hext, hext]
      refine .congr (refutable_iff_of_nodes rfl hown).symm ?_
      refine addsBreak_useContext.then fun _ => (addsBreak_use v).then fun _ => ?_
      cases args with
      | nil =>
        refine .congr ?_ (addsBreak_emit _)
        cases isInfallible rs term <;> simp [nodesAll, Statement.breaks]
      | cons p ps =>
        exact (addsBreak_newLocal none _ _).bind fun found =>
          addsBreak_matchAll hargs (length_results found (p :: ps).length).symm
  | .all _ parts, ⟨_, hparts⟩, v =>
      .congr (by simp [Refutable, nodes, tests_iff])
        (addsBreak_matchAll hparts (List.length_map _).symm)

theorem addsBreak_matchAll : ∀ {ps : List CheckedPattern}, TypedAll rs vars ps →
    ∀ {vs : List Value}, ps.length = vs.length →
      AddsBreak (matchAll rs ps vs) (∃ q ∈ nodesAll ps, q.Tests rs)
  | [], _, [], _ => .congr (by simp [nodesAll]) (addsBreak_pure ())
  | p :: ps, ⟨hp, hps⟩, v :: vs, hl =>
      .congr (by simp only [Refutable, nodesAll, List.mem_append, or_and_right, exists_or])
        ((addsBreak_matchPattern hp v).bind fun _ => addsBreak_matchAll hps (Nat.succ.inj hl))

end

end Patterns

section Exprs

variable {rs : RuleSet}

theorem addsBreak_call (term : TermInfo) (v : Value) :
    AddsBreak (call term v) (term.isPartial = true) := by
  refine addsBreak_useContext.then fun _ => ?_
  split_ifs with hpartial
  · exact .congr (iff_of_true rfl hpartial) (addsBreak_newLocal none v true)
  · exact .congr (iff_of_false not_false hpartial) (addsBreak_pure v)

theorem addsBreak_build (hrs : rs.VariantsTotal) (t : TermId) (args : List Value) :
    AddsBreak (build rs t args) ((rs.termInfo t).isPartial = true) := by
  unfold build
  split
  · rename_i ref href
    exact .congr (by simp [hrs.isPartial_eq href]) (addsBreak_pure _)
  · exact addsBreak_call _ _
  · exact addsBreak_call _ _

open CheckedExpr in
mutual

theorem addsBreak_expr (hrs : rs.VariantsTotal) : ∀ e : CheckedExpr,
    AddsBreak (expr rs e) (e.Refutable rs)
  | .var _ v => .congr (by simp [Refutable, nodes, callsPartial_iff]) (addsBreak_getVar v)
  | .int _ _ => .congr (by simp [Refutable, nodes, callsPartial_iff]) (addsBreak_pure _)
  | .bool _ _ => .congr (by simp [Refutable, nodes, callsPartial_iff]) (addsBreak_pure _)
  | .call _ t args =>
      .congr (by simp [Refutable, nodes, callsPartial_iff, or_comm])
        ((addsBreak_exprs hrs args).bind (addsBreak_build hrs t))
  | .letIn _ bs body =>
      .congr (by simp [Refutable, nodes, callsPartial_iff, or_and_right, exists_or])
        ((addsBreak_bindings hrs bs).bind fun _ => addsBreak_expr hrs body)

theorem addsBreak_exprs (hrs : rs.VariantsTotal) : ∀ es : List CheckedExpr,
    AddsBreak (exprs rs es) (∃ e ∈ nodesAll es, e.CallsPartial rs)
  | [] => .congr (by simp [nodesAll]) (addsBreak_pure [])
  | e :: es =>
      .congr (by simp only [Refutable, nodesAll, List.mem_append, or_and_right, exists_or])
        ((addsBreak_expr hrs e).bind fun v => (addsBreak_use v).then fun _ =>
          (addsBreak_exprs hrs es).before fun _ => addsBreak_pure _)

theorem addsBreak_bindings (hrs : rs.VariantsTotal) : ∀ bs : List (CheckedBinding CheckedExpr),
    AddsBreak (bindings rs bs) (∃ e ∈ nodesIn bs, e.CallsPartial rs)
  | [] => .congr (by simp [nodesIn]) (addsBreak_pure ())
  | ⟨v, value⟩ :: bs =>
      .congr (by simp only [Refutable, nodesIn, List.mem_append, or_and_right, exists_or])
        ((addsBreak_expr hrs value).bind fun found => (addsBreak_use found).then fun _ =>
          (AddsBreak.congr (iff_false_intro Bool.false_ne_true)
            (addsBreak_newLocal _ _ false)).then fun temp =>
              (addsBreak_setVar v temp).then fun _ => addsBreak_bindings hrs bs)

end

end Exprs

section Rules

variable {rs : RuleSet} {vars : Array VarInfo}

theorem addsBreak_matchGuard {g : CheckedGuard} (hg : g.pattern.Typed rs vars) (v : Value) :
    AddsBreak (matchGuard rs g v) (g.pattern.Refutable rs) := by
  unfold matchGuard
  split_ifs with hdiscard
  · -- Only the value behind a wildcard is discarded, which tests nothing.
    simp only [Bool.and_eq_true] at hdiscard
    cases hp : g.pattern with
    | wildcard s =>
      refine (addsBreak_use v).then fun _ => .congr ?_ (addsBreak_emit _)
      simp [CheckedPattern.Refutable, CheckedPattern.nodes, CheckedPattern.tests_iff,
        Statement.breaks]
    | _ => simp [hp, isWildcard] at hdiscard
  · exact addsBreak_matchPattern hg v

variable (hrs : rs.VariantsTotal)
include hrs

theorem addsBreak_guards {gs : List CheckedGuard} (hgs : ∀ g ∈ gs, g.Typed rs vars) :
    AddsBreak (guards rs gs)
      ((∃ p ∈ CheckedPattern.nodesAll (gs.map CheckedGuard.pattern), p.Tests rs) ∨
        ∃ e ∈ CheckedExpr.nodesAll (gs.map CheckedGuard.value), e.CallsPartial rs) := by
  induction gs with
  | nil =>
    exact .congr (by simp [CheckedPattern.nodesAll, CheckedExpr.nodesAll]) (addsBreak_pure ())
  | cons g gs ih =>
    obtain ⟨⟨-, hpattern, -⟩, hrest⟩ := List.forall_mem_cons.mp hgs
    refine .congr ?_ (((addsBreak_expr hrs g.value).bind (addsBreak_matchGuard hpattern)).bind
      fun _ => ih hrest)
    simp only [CheckedPattern.Refutable, CheckedExpr.Refutable, List.map_cons,
      CheckedPattern.nodesAll, CheckedExpr.nodesAll, List.mem_append, or_and_right, exists_or]
    exact (or_congr_left or_comm).trans or_or_or_comm

theorem addsBreak_ruleValue {r : CheckedRule} (hr : r.Typed rs) :
    AddsBreak (ruleValue rs r) (r.Refutable rs) := by
  obtain ⟨-, hargs, hguards, -⟩ := hr
  have hlength : r.args.length = ((List.range r.args.length).map Value.param).length := by
    rw [List.length_map, List.length_range]
  refine .congr ?_ ((addsBreak_matchAll hargs hlength).bind fun _ =>
    (addsBreak_guards hrs hguards).bind fun _ => addsBreak_expr hrs r.result)
  simp only [CheckedRule.Refutable, CheckedRule.patterns, CheckedRule.exprs,
    CheckedPattern.nodesAll_append, CheckedExpr.nodesAll_append, CheckedExpr.Refutable,
    CheckedExpr.nodesAll, List.append_nil, List.mem_append, or_and_right, exists_or,
    or_assoc]

/-- The block of a rule is left somewhere exactly if the rule can fail. -/
theorem breaks_block {r : CheckedRule} (hr : r.Typed rs) (index : Nat) (d : Draft) :
    ((block rs index r).run d).1.breaks = true ↔ r.Refutable rs := by
  have hdiscards : ¬ Leaves (ruleDraft rs r d.restart).discards := by
    rintro ⟨t, ht, hbreaks⟩
    obtain ⟨temp, -, rfl⟩ := List.mem_map.mp ht
    cases hbreaks
  have hret : ¬ Leaves [.ret ((ruleValue rs r).run d.restart).1] :=
    fun h => Bool.false_ne_true (leaves_singleton.mp h)
  have hbody : ¬ Leaves d.restart.body := by
    rintro ⟨t, ht, -⟩
    cases ht
  rw [run_block, breaks_eq_true_iff, body_rule, leaves_append, leaves_append, or_iff_left hret,
    or_iff_left hdiscards, addsBreak_ruleValue hrs hr, or_iff_right hbody]

end Rules

/-- Blocks are written for the first rules, up to the first block that is never left. -/
structure UpToFirstKept (rules : List CheckedRule) (bs : List Block) (fallsThrough : Bool) :
    Prop where
  length_le : bs.length ≤ rules.length
  stops : ∀ i b, bs[i]? = some b → b.breaks = false → bs.length = i + 1
  complete : (∀ b ∈ bs, b.breaks = true) → bs.length = rules.length
  fallsThrough_iff : fallsThrough = true ↔ ∀ b ∈ bs, b.breaks = true

section Blocks

variable {rules : List CheckedRule} {bs : List Block} {fallsThrough : Bool}

theorem upToFirstKept_nil : UpToFirstKept [] [] true where
  length_le := Nat.le_refl 0
  stops _ _ h := by cases h
  complete _ := rfl
  fallsThrough_iff := by simp

theorem upToFirstKept_singleton (r : CheckedRule) (rules : List CheckedRule) {b : Block}
    (hb : b.breaks = false) : UpToFirstKept (r :: rules) [b] false where
  length_le := by simp
  stops i c h _ := by
    have hi : i < [b].length := (List.getElem?_eq_some_iff.mp h).1
    rw [List.length_singleton] at hi ⊢
    omega
  complete h := absurd (h b (List.mem_singleton_self b)) (by simp [hb])
  fallsThrough_iff := by simp [hb]

theorem UpToFirstKept.cons (h : UpToFirstKept rules bs fallsThrough) (r : CheckedRule) {b : Block}
    (hb : b.breaks = true) : UpToFirstKept (r :: rules) (b :: bs) fallsThrough where
  length_le := Nat.succ_le_succ h.length_le
  stops i c hc hkept := by
    cases i with
    | zero =>
      cases hc
      exact absurd hb (by simp [hkept])
    | succ i => rw [List.length_cons, h.stops i c hc hkept]
  complete hall := by
    rw [List.length_cons, List.length_cons, h.complete (List.forall_mem_cons.mp hall).2]
  fallsThrough_iff := by rw [h.fallsThrough_iff, List.forall_mem_cons, and_iff_right hb]

theorem UpToFirstKept.fallsThrough_iff_getLast? (h : UpToFirstKept rules bs fallsThrough) :
    fallsThrough = true ↔ rules = [] ∨ ∃ b, bs.getLast? = some b ∧ b.breaks = true := by
  rw [h.fallsThrough_iff]
  cases hlast : bs.getLast? with
  | none =>
    have hnil : bs = [] := List.getLast?_eq_none_iff.mp hlast
    subst hnil
    have hrules : [].length = rules.length := h.complete (by simp)
    simp [List.eq_nil_of_length_eq_zero hrules.symm]
  | some b =>
    have hne : rules ≠ [] := by
      rintro rfl
      rw [List.eq_nil_of_length_eq_zero (Nat.le_zero.mp h.length_le)] at hlast
      cases hlast
    constructor
    · exact fun hall => .inr ⟨b, rfl, hall b (List.mem_of_getLast? hlast)⟩
    · rintro (hrules | ⟨b', hb', hbreaks⟩) c hc
      · exact absurd hrules hne
      · cases hb'
        obtain ⟨i, hi⟩ := List.mem_iff_getElem?.mp hc
        by_contra hkept
        -- A kept block is the last one.
        have hlength := h.stops i c hi (Bool.eq_false_iff.mpr hkept)
        rw [List.getLast?_eq_getElem?, hlength, Nat.add_sub_cancel, hi] at hlast
        cases hlast
        exact hkept hbreaks

theorem upToFirstKept_blocks (rs : RuleSet) (rules : List CheckedRule) (index : Nat) (d : Draft) :
    UpToFirstKept rules ((blocks rs index rules).run d).1.1
      ((blocks rs index rules).run d).1.2 := by
  induction rules generalizing index d with
  | nil => exact upToFirstKept_nil
  | cons r rules ih =>
    rw [blocks, run_bind]
    split_ifs with hbreaks
    · rw [run_bind]
      exact (ih (index + 1) _).cons r hbreaks
    · exact upToFirstKept_singleton r rules (Bool.eq_false_iff.mpr hbreaks)

end Blocks

end Lower

end Zig

end TermRules

import TermRules.Proofs.Drafts
import TermRules.Proofs.Renumbering

/-!
# Lowering under renumbering

Lowering a renumbered rule gives the renumbered statements.
-/

namespace TermRules.Zig

variable (ρ : Renumbering)

mutual

def Value.renumber : Value → Value
  | .param i => .param i
  | .temp i => .temp i
  | .int n => .int n
  | .bool b => .bool b
  | .payload base ref field => .payload base.renumber (ref.renumber ρ) field
  | .component base i => .component base.renumber i
  | .variant ref args => .variant (ref.renumber ρ) (renumberAll args)
  | .construct term args => .construct (ρ.term term) (renumberAll args)
  | .contextBuild term args => .contextBuild (ρ.term term) (renumberAll args)
  | .contextMatch term arg => .contextMatch (ρ.term term) arg.renumber
  | .undefined => .undefined

def Value.renumberAll : List Value → List Value
  | [] => []
  | v :: vs => v.renumber :: renumberAll vs

end

def Condition.renumber : Condition → Condition
  | .differ a b => .differ (a.renumber ρ) (b.renumber ρ)
  | .differDeeply a b => .differDeeply (a.renumber ρ) (b.renumber ρ)
  | .otherTag v ref => .otherTag (v.renumber ρ) (ref.renumber ρ)
  | .isTrue v => .isTrue (v.renumber ρ)
  | .isFalse v => .isFalse (v.renumber ρ)

def Statement.renumber : Statement → Statement
  | .const temp type v orBreak => .const temp (type.map ρ.type) (v.renumber ρ) orBreak
  | .breakIf c => .breakIf (c.renumber ρ)
  | .discard v => .discard (v.renumber ρ)
  | .ret v => .ret (v.renumber ρ)

def Block.renumber (b : Block) : Block := { b with body := b.body.map (Statement.renumber ρ) }

def Function.renumber (f : Function) : Function :=
  { f with term := ρ.term f.term, blocks := f.blocks.map (Block.renumber ρ) }

def Draft.renumber (d : Draft) : Draft :=
  { d with
    body := d.body.map (Statement.renumber ρ)
    vars := d.vars.map (Prod.map id (Value.renumber ρ)) }

theorem Value.renumberAll_eq_map (vs : List Value) : renumberAll ρ vs = vs.map (renumber ρ) := by
  induction vs with
  | nil => rfl
  | cons v vs ih => rw [renumberAll, ih, List.map_cons]

theorem Value.root?_renumber : ∀ v : Value, (v.renumber ρ).root? = v.root?
  | .param _ | .temp _ | .int _ | .bool _ | .undefined => rfl
  | .variant _ _ | .construct _ _ | .contextBuild _ _ | .contextMatch _ _ => rfl
  | .payload base _ _ => base.root?_renumber
  | .component base _ => base.root?_renumber

theorem Statement.breaks_renumber (t : Statement) : (t.renumber ρ).breaks = t.breaks := by
  cases t <;> rfl

theorem Block.breaks_renumber (b : Block) : (b.renumber ρ).breaks = b.breaks := by
  rw [Block.breaks, Block.renumber, List.any_map, Block.breaks]
  congr 1
  funext t
  exact t.breaks_renumber ρ

namespace Lower

variable {α α' β β' : Type}

def Carries (f : α → α') (x : Lower α) (x' : Lower α') : Prop :=
  ∀ d : Draft, x'.run (d.renumber ρ) = (f (x.run d).1, (x.run d).2.renumber ρ)

variable {ρ} {f : α → α'} {g : β → β'}

theorem carries_pure {a : α} {a' : α'} (h : a' = f a) : Carries ρ f (pure a) (pure a') := by
  intro d
  rw [h]
  rfl

theorem Carries.bind {x : Lower α} {x' : Lower α'} {k : α → Lower β} {k' : α' → Lower β'}
    (h : Carries ρ f x x') (hk : ∀ a, Carries ρ g (k a) (k' (f a))) :
    Carries ρ g (x >>= k) (x' >>= k') := by
  intro d
  rw [run_bind, run_bind, h d]
  exact hk _ _

theorem carries_emit {t t' : Statement} (h : t' = t.renumber ρ) :
    Carries ρ id (emit t) (emit t') := by
  intro d
  rw [h, run_emit, run_emit, Draft.emit, Draft.renumber, Draft.emit, Draft.renumber,
    List.map_append]
  rfl

theorem carries_use (v : Value) : Carries ρ (Value.renumber ρ) (use v) (use (v.renumber ρ)) := by
  intro d
  rw [run_use, run_use, Draft.mark, Draft.mark, Value.root?_renumber]
  rcases v.root? with _ | ⟨_ | _⟩ <;> rfl

theorem carries_useContext : Carries ρ id useContext useContext := fun _ => rfl

theorem carries_setVar (var : VarId) (v : Value) :
    Carries ρ id (setVar var v) (setVar var (v.renumber ρ)) := fun _ => rfl

theorem carries_getVar (var : VarId) :
    Carries ρ (Value.renumber ρ) (getVar var) (getVar var) := by
  intro d
  rw [run_getVar, run_getVar, Draft.getVar, Draft.getVar]
  have hlookup : (d.renumber ρ).vars.lookup var = (d.vars.lookup var).map (Value.renumber ρ) :=
    lookup_map_snd _ _ _
  rw [hlookup]
  cases d.vars.lookup var <;> rfl

theorem carries_newLocal (type : Option TypeId) (v : Value) (orBreak : Bool) :
    Carries ρ (Value.renumber ρ) (newLocal type v orBreak)
      (newLocal (type.map ρ.type) (v.renumber ρ) orBreak) := by
  intro d
  rw [run_newLocal, run_newLocal, Draft.keep, Draft.keep, Draft.emit, Draft.emit, Draft.renumber,
    Draft.renumber, List.map_append]
  rfl

section RuleSets

variable {rs rs' : RuleSet}

theorem variantOf_renumber (h : rs.Renumbered ρ rs') (term : TermId) :
    variantOf rs' (ρ.term term) = (variantOf rs term).renumber ρ := by
  rw [variantOf, variantOf, (h.termInfo term).extractor]
  have hdefault : (default : VariantRef) = VariantRef.renumber ρ default :=
    congrArg (VariantRef.mk · 0) ρ.type_bool.symm
  cases (rs.termInfo term).extractor with
  | variant ref => rfl
  | missing | external | template => exact hdefault

theorem isInfallible_renumber (h : rs.Renumbered ρ rs') (term : TermId) :
    isInfallible rs' (ρ.term term) = isInfallible rs term := by
  rw [isInfallible, isInfallible, (h.termInfo term).extractor]
  cases (rs.termInfo term).extractor <;> rfl

theorem isEnum_renumber (h : rs.Renumbered ρ rs') (type : TypeId) :
    (rs'.typeInfo (ρ.type type)).shape.isEnum = (rs.typeInfo type).shape.isEnum := by
  rw [h.typeInfo, TypeInfo.renumber]
  cases (rs.typeInfo type).shape <;> rfl

theorem payloads_renumber (v : Value) (ref : VariantRef) (count : Nat) :
    payloads (v.renumber ρ) (ref.renumber ρ) count =
      (payloads v ref count).map (Value.renumber ρ) := by
  rw [payloads, payloads, List.map_map]
  rfl

theorem results_renumber (v : Value) (count : Nat) :
    results (v.renumber ρ) count = (results v count).map (Value.renumber ρ) := by
  rw [results, results]
  split_ifs
  · rfl
  · rw [List.map_map]
    rfl

theorem length_renumberAll (ps : List CheckedPattern) :
    (CheckedPattern.renumberAll ρ ps).length = ps.length := by
  rw [CheckedPattern.renumberAll_eq_map, List.length_map]

mutual

theorem carries_matchPattern (h : rs.Renumbered ρ rs') : ∀ (p : CheckedPattern) (v : Value),
    Carries ρ id (matchPattern rs p v) (matchPattern rs' (p.renumber ρ) (v.renumber ρ))
  | .wildcard _, v => carries_pure rfl
  | .bind _ var, v => carries_setVar var v
  | .bindAs _ var sub, v => (carries_setVar var v).bind fun _ => carries_matchPattern h sub v
  | .equal site var, v => by
    refine (carries_getVar var).bind fun bound => ?_
    refine (carries_use v).bind fun a => (carries_use bound).bind fun b => carries_emit ?_
    rw [show (site.renumber ρ).type = ρ.type site.type from rfl, isEnum_renumber h]
    split_ifs <;> rfl
  | .int _ n, v => (carries_use v).bind fun _ => carries_emit rfl
  | .bool _ b, v => (carries_use v).bind fun _ => carries_emit (by cases b <;> rfl)
  | .variant _ term args, v => by
    have hargs := carries_matchAll h args (payloads v (variantOf rs term) args.length)
    rw [← payloads_renumber] at hargs
    rw [CheckedPattern.renumber, matchPattern, matchPattern, length_renumberAll,
      variantOf_renumber h]
    exact (carries_use v).bind fun a => (carries_emit rfl).bind fun _ => hargs
  | .extractor _ term args, v => by
    rw [CheckedPattern.renumber, matchPattern, matchPattern, length_renumberAll,
      isInfallible_renumber h]
    refine carries_useContext.bind fun _ => (carries_use v).bind fun a => ?_
    cases args with
    | nil =>
      refine carries_emit ?_
      split_ifs <;> rfl
    | cons p ps =>
      refine (carries_newLocal none (.contextMatch term a) _).bind fun found => ?_
      have hargs := carries_matchAll h (p :: ps) (results found (p :: ps).length)
      rw [← results_renumber] at hargs
      exact hargs
  | .all _ parts, v => by
    have hparts := carries_matchAll h parts (parts.map fun _ => v)
    have hvalues : (parts.map fun _ => v).map (Value.renumber ρ) =
        (CheckedPattern.renumberAll ρ parts).map fun _ => v.renumber ρ := by
      rw [CheckedPattern.renumberAll_eq_map, List.map_map, List.map_map]
      rfl
    rw [hvalues] at hparts
    exact hparts

theorem carries_matchAll (h : rs.Renumbered ρ rs') : ∀ (ps : List CheckedPattern) (vs : List Value),
    Carries ρ id (matchAll rs ps vs)
      (matchAll rs' (CheckedPattern.renumberAll ρ ps) (vs.map (Value.renumber ρ)))
  | p :: ps, v :: vs =>
    (carries_matchPattern h p v).bind fun _ => carries_matchAll h ps vs
  | [], _ => carries_pure rfl
  | _ :: _, [] => carries_pure rfl

end

theorem carries_call {term term' : TermInfo} (h : term'.isPartial = term.isPartial) (v : Value) :
    Carries ρ (Value.renumber ρ) (call term v) (call term' (v.renumber ρ)) := by
  rw [call, call, h]
  refine carries_useContext.bind fun _ => ?_
  split_ifs
  · exact carries_newLocal none v true
  · exact carries_pure rfl

theorem carries_build (h : rs.Renumbered ρ rs') (term : TermId) (args : List Value) :
    Carries ρ (Value.renumber ρ) (build rs term args)
      (build rs' (ρ.term term) (Value.renumberAll ρ args)) := by
  have hterm := h.termInfo term
  have hconstructor := hterm.constructor
  rw [build, build]
  generalize (rs.termInfo term).constructor = c, (rs'.termInfo (ρ.term term)).constructor = c'
    at hconstructor
  cases hconstructor with
  | variant ref => exact carries_pure rfl
  | external function loc => exact carries_call hterm.isPartial (.contextBuild term args)
  | missing => exact carries_call hterm.isPartial (.construct term args)
  | internal loc loc' => exact carries_call hterm.isPartial (.construct term args)

mutual

theorem carries_expr (h : rs.Renumbered ρ rs') : ∀ e : CheckedExpr,
    Carries ρ (Value.renumber ρ) (expr rs e) (expr rs' (e.renumber ρ))
  | .var _ var => carries_getVar var
  | .int _ _ => carries_pure rfl
  | .bool _ _ => carries_pure rfl
  | .call _ term args => (carries_exprs h args).bind fun vs => carries_build h term vs
  | .letIn _ bs body => (carries_bindings h bs).bind fun _ => carries_expr h body

theorem carries_exprs (h : rs.Renumbered ρ rs') : ∀ es : List CheckedExpr,
    Carries ρ (Value.renumberAll ρ) (exprs rs es) (exprs rs' (CheckedExpr.renumberAll ρ es))
  | [] => carries_pure rfl
  | e :: es =>
    (carries_expr h e).bind fun v => (carries_use v).bind fun _ =>
      (carries_exprs h es).bind fun _ => carries_pure rfl

theorem carries_bindings (h : rs.Renumbered ρ rs') : ∀ bs : List (CheckedBinding CheckedExpr),
    Carries ρ id (bindings rs bs) (bindings rs' (CheckedExpr.renumberIn ρ bs))
  | [] => carries_pure rfl
  | ⟨var, value⟩ :: rest => by
    refine (carries_expr h value).bind fun v => (carries_use v).bind fun v => ?_
    rw [CheckedExpr.type_renumber]
    exact (carries_newLocal (some value.type) v false).bind fun temp =>
      (carries_setVar var temp).bind fun _ => carries_bindings h rest

end

theorem carries_matchGuard (h : rs.Renumbered ρ rs') (g : CheckedGuard) (v : Value) :
    Carries ρ id (matchGuard rs g v) (matchGuard rs' (g.renumber ρ) (v.renumber ρ)) := by
  have hwildcard : isWildcard (g.renumber ρ).pattern = isWildcard g.pattern := by
    rw [CheckedGuard.renumber]
    cases g.pattern <;> rfl
  have hcall : isCall (g.renumber ρ).value = isCall g.value := by
    rw [CheckedGuard.renumber]
    cases g.value <;> rfl
  have htemp : isTemp (v.renumber ρ) = isTemp v := by
    rw [isTemp, isTemp, Value.root?_renumber]
  rw [matchGuard, matchGuard, hwildcard, hcall, htemp]
  split_ifs
  · exact (carries_use v).bind fun _ => carries_emit rfl
  · exact carries_matchPattern h g.pattern v

theorem carries_guards (h : rs.Renumbered ρ rs') (gs : List CheckedGuard) :
    Carries ρ id (guards rs gs) (guards rs' (gs.map (CheckedGuard.renumber ρ))) := by
  induction gs with
  | nil => exact carries_pure rfl
  | cons g gs ih =>
    exact ((carries_expr h g.value).bind fun v => carries_matchGuard h g v).bind fun _ => ih

theorem carries_discardUnused : Carries ρ id discardUnused discardUnused := by
  intro d
  have hdiscards : (d.renumber ρ).discards = d.discards.map (Statement.renumber ρ) := by
    rw [Draft.discards, Draft.discards, List.map_map]
    rfl
  rw [run_discardUnused, run_discardUnused, hdiscards, Draft.renumber, Draft.renumber,
    List.map_append]

theorem carries_rule (h : rs.Renumbered ρ rs') (r : CheckedRule) :
    Carries ρ id (rule rs r) (rule rs' (r.renumber ρ)) := by
  have hargs := carries_matchAll h r.args ((List.range r.args.length).map .param)
  have hparams : ((List.range r.args.length).map Value.param).map (Value.renumber ρ) =
      (List.range (r.renumber ρ).args.length).map .param := by
    rw [CheckedRule.renumber, List.length_map, List.map_map]
    rfl
  rw [hparams, CheckedPattern.renumberAll_eq_map] at hargs
  exact hargs.bind fun _ => (carries_guards h r.guards).bind fun _ =>
    (carries_expr h r.result).bind fun v => (carries_use v).bind fun _ =>
      carries_discardUnused.bind fun _ => carries_emit rfl

theorem carries_block (h : rs.Renumbered ρ rs') (index : Nat) (r : CheckedRule) :
    Carries ρ (Block.renumber ρ) (block rs index r) (block rs' index (r.renumber ρ)) :=
  Carries.bind (f := id) (fun _ => rfl) fun _ => (carries_rule h r).bind fun _ =>
    Carries.bind (f := Draft.renumber ρ) (fun _ => rfl) fun _ => carries_pure rfl

theorem carries_blocks (h : rs.Renumbered ρ rs') (index : Nat) (rules : List CheckedRule) :
    Carries ρ (Prod.map (List.map (Block.renumber ρ)) id) (blocks rs index rules)
      (blocks rs' index (rules.map (CheckedRule.renumber ρ))) := by
  induction rules generalizing index with
  | nil => exact carries_pure rfl
  | cons r rules ih =>
    refine (carries_block h index r).bind fun b => ?_
    rw [b.breaks_renumber]
    split_ifs
    · exact (ih (index + 1)).bind fun _ => carries_pure rfl
    · exact carries_pure rfl

theorem blocks_map (f : CheckedRule → CheckedRule) (hname : ∀ r, (f r).name = r.name)
    (hargs : ∀ r, (f r).args = r.args) (hguards : ∀ r, (f r).guards = r.guards)
    (hresult : ∀ r, (f r).result = r.result) (index : Nat) (rules : List CheckedRule) :
    blocks rs index (rules.map f) = blocks rs index rules := by
  have hblock (index : Nat) (r : CheckedRule) : block rs index (f r) = block rs index r := by
    rw [block, block, rule, rule, hname, hargs, hguards, hresult]
  induction rules generalizing index with
  | nil => rfl
  | cons r rules ih => rw [List.map_cons, blocks, blocks, hblock, ih]

theorem blocks_unplaced (index : Nat) (rules : List CheckedRule) :
    blocks rs index (rules.map CheckedRule.unplaced) = blocks rs index rules :=
  blocks_map CheckedRule.unplaced (fun _ => rfl) (fun _ => rfl) (fun _ => rfl) (fun _ => rfl)
    index rules

end RuleSets

end Lower

theorem ofTerm_renumber_of_blocks {rs rs' : RuleSet} (h : rs.Renumbered ρ rs') (term : TermId)
    (hblocks : Lower.blocks rs' 0 (rs'.rulesFor (ρ.term term)) =
      Lower.blocks rs' 0 ((rs.rulesFor term).map (CheckedRule.renumber ρ))) :
    Function.ofTerm rs' (ρ.term term) = (Function.ofTerm rs term).renumber ρ := by
  have hcarried := Lower.carries_blocks h 0 (rs.rulesFor term) Draft.empty
  have hempty : Draft.empty.renumber ρ = Draft.empty := rfl
  rw [hempty, ← hblocks] at hcarried
  rw [Function.ofTerm, Function.ofTerm, hcarried]
  rfl

theorem ofTerm_renumber {rs rs' : RuleSet} (h : rs.Renumbered ρ rs') (term : TermId)
    (hrules : (rs'.rulesFor (ρ.term term)).map CheckedRule.unplaced =
      (rs.rulesFor term).map fun r => (r.renumber ρ).unplaced) :
    Function.ofTerm rs' (ρ.term term) = (Function.ofTerm rs term).renumber ρ := by
  have hmap : ((rs.rulesFor term).map fun r => (r.renumber ρ).unplaced) =
      ((rs.rulesFor term).map (CheckedRule.renumber ρ)).map CheckedRule.unplaced := by
    rw [List.map_map]
    rfl
  refine ofTerm_renumber_of_blocks ρ h term ?_
  rw [← Lower.blocks_unplaced, hrules, hmap, Lower.blocks_unplaced]

end TermRules.Zig

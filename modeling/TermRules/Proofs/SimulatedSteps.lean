import TermRules.Proofs.Drafts
import TermRules.Proofs.Execution
import TermRules.Proofs.Meaning

/-!
# Steps that simulate

A lowering simulates a partial computation if the statements that it appends run
through where this has a result and leave the block where it has none. A draft
knows for each variable a value that yields what the variable means, and the
single steps of a pattern keep this up.
-/

namespace TermRules.Zig

open Lower

section Simulation

variable {rs : RuleSet} {P : Type} [DecidableEq P] {I : Interpretation rs P}
variable {α β γ δ : Type}

variable (I) in
/-- The lowering, begun with this draft and run from this store, computes what the partial
computation does. -/
def Simulates (x : Lower α) (d : Draft) (σ : Store P) (o : Option β)
    (Q : α → β → Draft → Store P → Prop) : Prop :=
  ∃ ts, (x.run d).2.body = d.body ++ ts ∧
    match o with
    | some b => ∃ τ, exec I σ ts = some (.running τ) ∧ Q (x.run d).1 b (x.run d).2 τ
    | none => exec I σ ts = some .left

variable {d : Draft} {σ : Store P}

theorem Simulates.pure {Q : α → β → Draft → Store P → Prop} {a : α} {b : β} (h : Q a b d σ) :
    Simulates I (pure a) d σ (some b) Q :=
  ⟨[], (List.append_nil d.body).symm, σ, rfl, h⟩

theorem Simulates.imp {x : Lower α} {o : Option β} {Q R : α → β → Draft → Store P → Prop}
    (h : Simulates I x d σ o Q) (hQR : ∀ b τ, o = some b →
      Q (x.run d).1 b (x.run d).2 τ → R (x.run d).1 b (x.run d).2 τ) :
    Simulates I x d σ o R := by
  obtain ⟨ts, hbody, h⟩ := h
  refine ⟨ts, hbody, ?_⟩
  cases o with
  | none => exact h
  | some b =>
    obtain ⟨τ, hexec, hq⟩ := h
    exact ⟨τ, hexec, hQR b τ rfl hq⟩

theorem Simulates.bind {x : Lower α} {f : α → Lower γ} {o : Option β} {k : β → Option δ}
    {Q : α → β → Draft → Store P → Prop} {R : γ → δ → Draft → Store P → Prop} {vs : List VarId}
    (hx : Simulates I x d σ o Q) (heffect : ∀ a, Effect vs (f a))
    (hf : ∀ a b d' τ, o = some b → Q a b d' τ → Simulates I (f a) d' τ (k b) R) :
    Simulates I (x >>= f) d σ (o.bind k) R := by
  obtain ⟨ts, hbody, hx⟩ := hx
  cases o with
  | none =>
    obtain ⟨us, hus⟩ := (heffect (x.run d).1).appends (x.run d).2
    refine ⟨ts ++ us, ?_, exec_append_of_left hx⟩
    rw [run_bind, hus, hbody, List.append_assoc]
  | some b =>
    obtain ⟨τ, hexec, hq⟩ := hx
    obtain ⟨us, hus, hrest⟩ := hf _ b _ τ rfl hq
    refine ⟨ts ++ us, ?_, ?_⟩
    · rw [run_bind, hus, hbody, List.append_assoc]
    · rw [Option.bind_some, exec_append_of_running hexec]
      exact hrest

theorem Simulates.silent {x : Lower α} {f : α → Lower γ} {o : Option δ}
    {R : γ → δ → Draft → Store P → Prop} (hbody : (x.run d).2.body = d.body)
    (hf : Simulates I (f (x.run d).1) (x.run d).2 σ o R) : Simulates I (x >>= f) d σ o R := by
  obtain ⟨ts, hts, h⟩ := hf
  refine ⟨ts, ?_, h⟩
  rw [run_bind, hts, hbody]

theorem simulates_use {f : Value → Lower γ} {v : Value} {o : Option δ}
    {R : γ → δ → Draft → Store P → Prop} (hf : Simulates I (f v) (d.mark v) σ o R) :
    Simulates I (use v >>= f) d σ o R := by
  refine .silent (by rw [run_use, Draft.mark_body]) ?_
  rwa [run_use]

theorem simulates_breakIf {Q : Unit → Unit → Draft → Store P → Prop} {c : Condition} {leave : Bool}
    (hc : c.eval I σ = some leave) (h : leave = false → Q () () (d.emit (.breakIf c)) σ) :
    Simulates I (emit (.breakIf c)) d σ (if leave then none else some ()) Q := by
  refine ⟨[.breakIf c], rfl, ?_⟩
  have hstep : exec I σ [.breakIf c] = some (if leave then .left else .running σ) := by
    rw [exec_singleton, Statement.step, hc]
    rfl
  cases leave with
  | true => exact hstep
  | false => exact ⟨σ, hstep, h rfl⟩

end Simulation

section Tracking

variable {rs : RuleSet} {P : Type} {I : Interpretation rs P}

structure Backs (d : Draft) (σ : Store P) : Prop where
  fresh : ∀ {i}, d.nextTemp ≤ i → σ.temps i = none
  declared : ∀ {i}, i ∈ d.locals → ∃ x, σ.temps i = some x

variable (I) in
structure Tracks (d : Draft) (σ : Store P) (env : Env P) : Prop extends Backs d σ where
  vars : ∀ {v x}, env.lookup v = some x → ∃ w, d.vars.lookup v = some w ∧ w.eval I σ = some x

variable {d d' : Draft} {σ τ : Store P} {env : Env P}

theorem Backs.congr (h : Backs d σ) (hlocals : d'.locals = d.locals)
    (hnext : d'.nextTemp = d.nextTemp) : Backs d' σ where
  fresh hi := h.fresh (hnext ▸ hi)
  declared hi := h.declared (hlocals ▸ hi)

theorem Backs.keep (h : Backs d σ) (type : Option TypeId) (v : Value) (orBreak : Bool)
    (x : Val P) : Backs (d.keep type v orBreak) (σ.set d.nextTemp x) where
  fresh {i} hi := by
    rw [Draft.keep_nextTemp] at hi
    rw [Store.temps_set_of_ne σ x (by omega), h.fresh (by omega)]
  declared {i} hi := by
    by_cases heq : i = d.nextTemp
    · subst heq
      exact ⟨x, Store.temps_set_self σ d.nextTemp x⟩
    · have hmem : i ∈ d.locals := by simpa [heq] using hi
      rw [Store.temps_set_of_ne σ x heq]
      exact h.declared hmem

theorem Backs.le_set (h : Backs d σ) (x : Val P) : σ.Le (σ.set d.nextTemp x) :=
  σ.le_set x (h.fresh (Nat.le_refl _))

theorem Tracks.congr (h : Tracks I d σ env) (hvars : d'.vars = d.vars)
    (hlocals : d'.locals = d.locals) (hnext : d'.nextTemp = d.nextTemp) : Tracks I d' σ env where
  toBacks := h.toBacks.congr hlocals hnext
  vars hx := by
    rw [hvars]
    exact h.vars hx

theorem Tracks.mark (h : Tracks I d σ env) (v : Value) : Tracks I (d.mark v) σ env :=
  h.congr (by simp) (by simp) (by simp)

theorem Tracks.markContext (h : Tracks I d σ env) : Tracks I d.markContext σ env :=
  h.congr rfl rfl rfl

theorem Tracks.emit (h : Tracks I d σ env) (t : Statement) : Tracks I (d.emit t) σ env :=
  h.congr rfl rfl rfl

theorem Tracks.later (h : Tracks I d σ env) (hle : σ.Le τ) (hbacks : Backs d' τ)
    (hvars : ∀ v ∈ env.map Prod.fst, d'.vars.lookup v = d.vars.lookup v) : Tracks I d' τ env where
  toBacks := hbacks
  vars {v x} hx := by
    obtain ⟨w, hw, heval⟩ := h.vars hx
    have hmem : v ∈ env.map Prod.fst := by
      obtain ⟨l, r, rfl, -⟩ := List.lookup_eq_some_iff.mp hx
      simp
    exact ⟨w, by rw [hvars v hmem, hw], w.eval_mono hle heval⟩

theorem Tracks.setVar (h : Tracks I d σ env) {v : VarId} {w : Value} {x : Val P}
    (hw : w.eval I σ = some x) : Tracks I (d.setVar v w) σ ((v, x) :: env) where
  toBacks := h.toBacks.congr rfl rfl
  vars {u y} hy := by
    rw [Draft.setVar_vars, List.lookup_cons]
    rw [List.lookup_cons] at hy
    split at hy
    · cases hy
      exact ⟨w, rfl, hw⟩
    · exact h.vars hy

end Tracking

section Patterns

variable {rs : RuleSet} {P : Type} [DecidableEq P] {I : Interpretation rs P}
variable {d : Draft} {σ : Store P} {env : Env P}

variable (I) in
def Reads (σ : Store P) (env : Env P) (v : Value) (x : Val P) (d : Draft) (τ : Store P) : Prop :=
  v.eval I τ = some x ∧ Tracks I d τ env ∧ σ.Le τ

variable (I) in
def Matches (σ : Store P) (_ : Unit) (env : Env P) (d : Draft) (τ : Store P) : Prop :=
  Tracks I d τ env ∧ σ.Le τ

theorem simulates_keep (ht : Tracks I d σ env) (type : Option TypeId) {v : Value} {x : Val P}
    (hv : v.eval I σ = some x) :
    Simulates I (newLocal type v false) d σ (some x) (Reads I σ env) := by
  refine ⟨_, rfl, σ.set d.nextTemp x, ?_, ?_, ?_, ?_⟩
  · rw [Value.eval_eq_some] at hv
    rw [exec_singleton, Statement.step, hv]
    rfl
  · rw [Value.eval, run_newLocal, Value.yield, Store.temps_set_self]
    rfl
  · exact ht.later (ht.toBacks.le_set x) (ht.toBacks.keep _ _ _ x) fun _ _ => rfl
  · exact ht.toBacks.le_set x

theorem simulates_unwrap (ht : Tracks I d σ env) (type : Option TypeId) {v : Value}
    {x : Option (Val P)} (hv : v.yield I σ = some (.optional x)) :
    Simulates I (newLocal type v true) d σ x (Reads I σ env) := by
  refine ⟨_, rfl, ?_⟩
  cases x with
  | none =>
    change exec I σ _ = _
    rw [exec_singleton, Statement.step, hv]
    rfl
  | some x =>
    refine ⟨σ.set d.nextTemp x, ?_, ?_, ?_, ?_⟩
    · rw [exec_singleton, Statement.step, hv]
      rfl
    · rw [Value.eval, run_newLocal, Value.yield, Store.temps_set_self]
      rfl
    · exact ht.later (ht.toBacks.le_set x) (ht.toBacks.keep _ _ _ x) fun _ _ => rfl
    · exact ht.toBacks.le_set x

theorem simulates_test (ht : Tracks I d σ env) {c : Condition} {leave : Bool}
    (hc : c.eval I σ = some leave) :
    Simulates I (emit (.breakIf c)) d σ (if leave then none else some env) (Matches I σ) := by
  have h := simulates_breakIf (d := d) (Q := fun _ _ d' τ => Tracks I d' τ env ∧ σ.Le τ) hc
    fun _ => ⟨ht.emit _, .refl σ⟩
  obtain ⟨ts, hbody, h⟩ := h
  cases leave with
  | true => exact ⟨ts, hbody, h⟩
  | false => exact ⟨ts, hbody, h⟩

omit [DecidableEq P] in
theorem not_prim_of_bool (hc : rs.Coherent) {b : Bool} {p : P} {type : TypeId}
    (hb : Val.HasType rs (.bool b : Val P) type) (hp : Val.HasType rs (.prim p) type) : False := by
  have htype : type = boolType := hb
  have hprim : (rs.typeInfo type).shape.isPrimitive = true := hp
  rw [htype, RuleSet.typeInfo_of_get? hc.bool] at hprim
  cases hprim

theorem differ_eq (hc : rs.Coherent) {x y : Val P} {type : TypeId} (hx : Val.HasType rs x type)
    (hy : Val.HasType rs y type) (henum : (rs.typeInfo type).shape.isEnum = false) :
    differ x y = some (decide (x ≠ y)) := by
  have hvariant : ∀ {ref fields}, ¬Val.HasType rs (.variant ref fields : Val P) type := by
    intro ref fields h
    rw [h.isEnum] at henum
    cases henum
  cases x with
  | variant => exact absurd hx hvariant
  | tuple => exact hx.elim
  | bool a =>
    cases y with
    | bool b => simp [differ]
    | prim q => exact (not_prim_of_bool hc hx hy).elim
    | variant => exact absurd hy hvariant
    | tuple => exact hy.elim
  | prim p =>
    cases y with
    | prim q => simp [differ]
    | bool b => exact (not_prim_of_bool hc hy hx).elim
    | variant => exact absurd hy hvariant
    | tuple => exact hy.elim

omit [DecidableEq P] in
theorem exists_variant (hc : rs.Coherent) {x : Val P} {type : TypeId} {i : Nat} {v : VariantInfo}
    (hv : (rs.typeInfo type).shape.variants[i]? = some v) (hx : Val.HasType rs x type) :
    ∃ ref fields, x = .variant ref fields := by
  cases x with
  | variant ref fields => exact ⟨ref, fields, rfl⟩
  | tuple => exact hx.elim
  | bool b =>
    have htype : type = boolType := hx
    rw [htype, RuleSet.typeInfo_of_get? hc.bool] at hv
    cases hv
  | prim p =>
    have hprim : (rs.typeInfo type).shape.isPrimitive = true := hx
    cases hs : (rs.typeInfo type).shape with
    | primitive => simp [hs, TypeShape.variants] at hv
    | builtin => simp [hs, TypeShape.isPrimitive] at hprim
    | enum => simp [hs, TypeShape.isPrimitive] at hprim

theorem isEnum_of_isPrimitive {shape : TypeShape} (h : shape.isPrimitive = true) :
    shape.isEnum = false := by
  cases shape with
  | primitive => rfl
  | builtin => cases h
  | enum => cases h

omit [DecidableEq P] in
theorem yield_contextMatch {t : TermId} {function : Bytes} {infallible : Bool} {loc : Loc}
    (he : (rs.termInfo t).extractor = .external function infallible loc) {v : Value} {x : Val P}
    (hv : v.eval I σ = some x) :
    (Value.contextMatch t v).yield I σ = yieldMatch I t infallible x := by
  rw [Value.eval_eq_some] at hv
  rw [Value.yield, hv, he]
  rfl

variable {vars : Array VarInfo}

theorem Simulates.later {x : Lower Unit} {o : Option (Env P)} {τ : Store P} (hle : σ.Le τ)
    (h : Simulates I x d τ o (Matches I τ)) : Simulates I x d τ o (Matches I σ) :=
  h.imp fun _ _ _ hq => ⟨hq.1, hle.trans hq.2⟩

theorem simulates_matchCall (ht : Tracks I d σ env) {t : TermId} {function : Bytes}
    {infallible : Bool} {loc : Loc} (hget : rs.terms.get? t = some (rs.termInfo t))
    (he : (rs.termInfo t).extractor = .external function infallible loc)
    (hargs : (rs.termInfo t).args = []) {v : Value} {x : Val P} (hv : v.eval I σ = some x)
    (hx : Val.HasType rs x (rs.termInfo t).ret) :
    Simulates I (emit (if isInfallible rs t then .discard (.contextMatch t v)
      else .breakIf (.isFalse (.contextMatch t v)))) d σ
      ((I.find t x).bind fun found => CheckedPattern.meetAll I [] found env) (Matches I σ) := by
  have hyield : (Value.contextMatch t v).yield I σ =
      some (.plain (.bool (I.find t x).isSome)) := by
    rw [yield_contextMatch he hv, yieldMatch, hargs]
    rfl
  rw [isInfallible_eq he]
  cases hfound : I.find t x with
  | some found =>
    have htyped := I.find_typed hget he hx hfound
    rw [hargs] at htyped
    cases found with
    | cons y ys => exact htyped.elim
    | nil =>
      refine ⟨_, rfl, σ, ?_, ht.emit _, .refl σ⟩
      cases infallible with
      | true =>
        rw [exec_singleton, if_pos rfl, Statement.step, hyield]
        rfl
      | false =>
        rw [exec_singleton, if_neg (by simp), Statement.step, Condition.eval, Value.eval, hyield,
          hfound]
        rfl
  | none =>
    cases infallible with
    | true =>
      have htotal := I.find_total hget he hx
      rw [hfound] at htotal
      cases htotal
    | false =>
      refine ⟨_, rfl, ?_⟩
      change exec I σ _ = _
      rw [exec_singleton, if_neg (by simp), Statement.step, Condition.eval, Value.eval, hyield,
        hfound]
      rfl

theorem simulates_matchResults (ht : Tracks I d σ env) {t : TermId} {function : Bytes}
    {infallible : Bool} {loc : Loc} (hget : rs.terms.get? t = some (rs.termInfo t))
    (he : (rs.termInfo t).extractor = .external function infallible loc)
    (hargs : (rs.termInfo t).args.isEmpty = false) {v : Value} {x : Val P}
    (hv : v.eval I σ = some x) (hx : Val.HasType rs x (rs.termInfo t).ret) :
    Simulates I (newLocal none (.contextMatch t v) (!isInfallible rs t)) d σ
      ((I.find t x).map pack) (Reads I σ env) := by
  have hyield := yield_contextMatch he hv
  rw [yieldMatch, hargs, if_neg (by simp)] at hyield
  rw [isInfallible_eq he]
  cases infallible with
  | false => exact simulates_unwrap ht none (by simpa using hyield)
  | true =>
    obtain ⟨found, hfound⟩ := Option.isSome_iff_exists.mp (I.find_total hget he hx)
    rw [hfound]
    refine simulates_keep ht none ?_
    rw [Value.eval_eq_some, hyield, hfound]
    rfl

end Patterns

end TermRules.Zig

import TermRules.Proofs.Values
import TermRules.Zig.Lowering

/-!
# Running generated functions

A value is computed from the parameters and the locals. A call yields an
optional value where its function may fail, and no other statement than the one
that unwraps it can use that. Statements run one after the other until one
leaves the block or returns, and blocks run until one returns. What the target
language does not accept has no run at all.
-/

namespace TermRules

namespace Zig

structure Store (P : Type) where
  params : List (Val P)
  temps : Nat → Option (Val P)

namespace Store

variable {P : Type}

def start (params : List (Val P)) : Store P := ⟨params, fun _ => none⟩

def set (σ : Store P) (i : Nat) (x : Val P) : Store P :=
  { σ with temps := fun j => if j = i then some x else σ.temps j }

end Store

/-- A value, or an optional value that is not yet unwrapped. -/
inductive Yield (P : Type)
  | plain (x : Val P)
  | optional (x : Option (Val P))
deriving Repr

def Yield.plain? {P : Type} : Yield P → Option (Val P)
  | .plain x => some x
  | .optional _ => none

def pack {P : Type} : List (Val P) → Val P
  | [x] => x
  | xs => .tuple xs

section Values

variable {rs : RuleSet} {P : Type} (I : Interpretation rs P)

def yieldBuild (t : TermId) (xs : List (Val P)) : Option (Yield P) :=
  if (rs.termInfo t).isPartial then some (.optional (I.build t xs))
  else (I.build t xs).map .plain

def yieldMatch (t : TermId) (infallible : Bool) (x : Val P) : Option (Yield P) :=
  if (rs.termInfo t).args.isEmpty then some (.plain (.bool (I.find t x).isSome))
  else if infallible then (I.find t x).map fun ys => .plain (pack ys)
  else some (.optional ((I.find t x).map pack))

variable (σ : Store P)

mutual

def Value.yield : Value → Option (Yield P)
  | .param i => σ.params[i]?.map .plain
  | .temp i => (σ.temps i).map .plain
  | .int n => some (.plain (.prim (I.numeral n.value)))
  | .bool b => some (.plain (.bool b))
  | .payload base ref field => do
      let y ← base.yield
      match y with
      | .plain (.variant found xs) => if found = ref then xs[field]?.map .plain else none
      | _ => none
  | .component base i => do
      let y ← base.yield
      match y with
      | .plain (.tuple xs) => xs[i]?.map .plain
      | _ => none
  | .variant ref args => do
      let xs ← evalAll args
      return .plain (.variant ref xs)
  | .construct t args => do
      let xs ← evalAll args
      match (rs.termInfo t).constructor with
      | .internal _ => yieldBuild I t xs
      | _ => none
  | .contextBuild t args => do
      let xs ← evalAll args
      match (rs.termInfo t).constructor with
      | .external .. => yieldBuild I t xs
      | _ => none
  | .contextMatch t arg => do
      let y ← arg.yield
      let x ← y.plain?
      match (rs.termInfo t).extractor with
      | .external _ infallible _ => yieldMatch I t infallible x
      | _ => none
  | .undefined => none

def Value.evalAll : List Value → Option (List (Val P))
  | [] => some []
  | v :: vs => do
      let y ← v.yield
      let x ← y.plain?
      let xs ← evalAll vs
      return x :: xs

end

def Value.eval (v : Value) : Option (Val P) := (v.yield I σ).bind Yield.plain?

end Values

section Statements

variable {rs : RuleSet} {P : Type} [DecidableEq P] (I : Interpretation rs P)

/-- The operator compares primitive and truth values only; variants are compared by structure. -/
def differ : Val P → Val P → Option Bool
  | .prim a, .prim b => some (decide (a ≠ b))
  | .bool a, .bool b => some (decide (a ≠ b))
  | _, _ => none

def Condition.eval (σ : Store P) : Condition → Option Bool
  | .differ a b => do
      let x ← a.eval I σ
      let y ← b.eval I σ
      Zig.differ x y
  | .differDeeply a b => do
      let x ← a.eval I σ
      let y ← b.eval I σ
      return decide (x ≠ y)
  | .otherTag v ref => do
      match ← v.eval I σ with
      | .variant found _ => if found.type = ref.type then some (found.index != ref.index) else none
      | _ => none
  | .isTrue v => do
      match ← v.eval I σ with
      | .bool b => return b
      | _ => none
  | .isFalse v => do
      match ← v.eval I σ with
      | .bool b => return !b
      | _ => none

inductive Flow (P : Type)
  | running (σ : Store P)
  | left
  | returned (x : Val P)

def Statement.step (σ : Store P) : Statement → Option (Flow P)
  | .const temp _ v orBreak => do
      match ← v.yield I σ, orBreak with
      | .plain x, false => return .running (σ.set temp x)
      | .optional (some x), true => return .running (σ.set temp x)
      | .optional none, true => return .left
      | _, _ => none
  | .breakIf c => do
      let leave ← c.eval I σ
      return if leave then .left else .running σ
  | .discard v => do
      let _ ← v.yield I σ
      return .running σ
  | .ret v => do
      let x ← v.eval I σ
      return .returned x

def exec : Store P → List Statement → Option (Flow P)
  | σ, [] => some (.running σ)
  | σ, t :: ts => do
      match ← t.step I σ with
      | .running σ => exec σ ts
      | flow => return flow

/-- The value that the first block to return gives, if any returns. -/
def runBlocks (params : List (Val P)) : List Block → Option (Option (Val P))
  | [] => some none
  | b :: bs => do
      match ← exec I (.start params) b.body with
      | .returned x => return some x
      | _ => runBlocks params bs

/-- Behind the last block stands the result for arguments that no block has returned for, unless
no run gets there. -/
def Function.run (f : Function) (params : List (Val P)) : Option (Ending P) := do
  match ← runBlocks I params f.blocks with
  | some x => return .value x
  | none =>
      if f.fallsThrough then
        return if (rs.termInfo f.term).isPartial then .null else .panic
      else none

end Statements

section Later

variable {rs : RuleSet} {P : Type} {I : Interpretation rs P} {σ τ υ : Store P}

structure Store.Le (σ τ : Store P) : Prop where
  params_eq : τ.params = σ.params
  temps : ∀ {i x}, σ.temps i = some x → τ.temps i = some x

theorem Store.Le.refl (σ : Store P) : σ.Le σ := ⟨rfl, fun h => h⟩

theorem Store.Le.trans (h : σ.Le τ) (h' : τ.Le υ) : σ.Le υ :=
  ⟨h'.params_eq.trans h.params_eq, fun hx => h'.temps (h.temps hx)⟩

theorem Store.temps_set_self (σ : Store P) (i : Nat) (x : Val P) :
    (σ.set i x).temps i = some x := if_pos rfl

theorem Store.temps_set_of_ne (σ : Store P) {i j : Nat} (x : Val P) (h : j ≠ i) :
    (σ.set i x).temps j = σ.temps j := if_neg h

theorem Store.le_set (σ : Store P) {i : Nat} (x : Val P) (h : σ.temps i = none) :
    σ.Le (σ.set i x) := by
  refine ⟨rfl, fun {j y} hy => ?_⟩
  have hne : j ≠ i := by
    rintro rfl
    rw [h] at hy
    cases hy
  rw [Store.temps_set_of_ne σ x hne, hy]

mutual

theorem Value.yield_mono (h : σ.Le τ) : ∀ (v : Value) {y : Yield P},
    v.yield I σ = some y → v.yield I τ = some y
  | .param i, y, hy => by rwa [yield, h.params_eq]
  | .temp i, y, hy => by
      obtain ⟨x, hx, rfl⟩ := Option.map_eq_some_iff.mp hy
      rw [yield, h.temps hx, Option.map_some]
  | .int n, y, hy => hy
  | .bool b, y, hy => hy
  | .payload base ref field, y, hy => by
      obtain ⟨b, hb, hy⟩ := Option.bind_eq_some_iff.mp hy
      exact Option.bind_eq_some_iff.mpr ⟨b, base.yield_mono h hb, hy⟩
  | .component base i, y, hy => by
      obtain ⟨b, hb, hy⟩ := Option.bind_eq_some_iff.mp hy
      exact Option.bind_eq_some_iff.mpr ⟨b, base.yield_mono h hb, hy⟩
  | .variant ref args, y, hy => by
      obtain ⟨xs, hxs, hy⟩ := Option.bind_eq_some_iff.mp hy
      exact Option.bind_eq_some_iff.mpr ⟨xs, evalAll_mono h args hxs, hy⟩
  | .construct t args, y, hy => by
      obtain ⟨xs, hxs, hy⟩ := Option.bind_eq_some_iff.mp hy
      exact Option.bind_eq_some_iff.mpr ⟨xs, evalAll_mono h args hxs, hy⟩
  | .contextBuild t args, y, hy => by
      obtain ⟨xs, hxs, hy⟩ := Option.bind_eq_some_iff.mp hy
      exact Option.bind_eq_some_iff.mpr ⟨xs, evalAll_mono h args hxs, hy⟩
  | .contextMatch t arg, y, hy => by
      obtain ⟨a, ha, hy⟩ := Option.bind_eq_some_iff.mp hy
      exact Option.bind_eq_some_iff.mpr ⟨a, arg.yield_mono h ha, hy⟩

theorem Value.evalAll_mono (h : σ.Le τ) : ∀ (vs : List Value) {xs : List (Val P)},
    evalAll I σ vs = some xs → evalAll I τ vs = some xs
  | [], xs, hxs => hxs
  | v :: vs, xs, hxs => by
      obtain ⟨y, hy, hxs⟩ := Option.bind_eq_some_iff.mp hxs
      obtain ⟨x, hx, hxs⟩ := Option.bind_eq_some_iff.mp hxs
      obtain ⟨ys, hys, hxs⟩ := Option.bind_eq_some_iff.mp hxs
      refine Option.bind_eq_some_iff.mpr ⟨y, v.yield_mono h hy, ?_⟩
      refine Option.bind_eq_some_iff.mpr ⟨x, hx, ?_⟩
      exact Option.bind_eq_some_iff.mpr ⟨ys, evalAll_mono h vs hys, hxs⟩

end

theorem Value.eval_eq_some {v : Value} {x : Val P} :
    v.eval I σ = some x ↔ v.yield I σ = some (.plain x) := by
  rw [eval, Option.bind_eq_some_iff]
  constructor
  · rintro ⟨y, hy, hx⟩
    cases y with
    | plain z => rw [hy, Option.some.inj hx]
    | optional => cases hx
  · intro h
    exact ⟨.plain x, h, rfl⟩

theorem Value.eval_mono (h : σ.Le τ) {v : Value} {x : Val P} (hx : v.eval I σ = some x) :
    v.eval I τ = some x := by
  rw [Value.eval_eq_some] at hx ⊢
  exact v.yield_mono h hx

theorem Value.evalAll_eq_some_iff : ∀ {vs : List Value} {xs : List (Val P)},
    evalAll I σ vs = some xs ↔ vs.map (Value.eval I σ) = xs.map some
  | [], [] => by simp [evalAll]
  | [], x :: xs => by simp [evalAll]
  | v :: vs, xs => by
      have hcons : evalAll I σ (v :: vs) = (v.eval I σ).bind fun x =>
          (evalAll I σ vs).bind fun ys => some (x :: ys) := by
        rw [evalAll, eval]
        cases v.yield I σ <;> rfl
      rw [hcons]
      cases hv : v.eval I σ with
      | none => cases xs <;> simp [hv]
      | some x =>
        cases hvs : evalAll I σ vs with
        | none =>
          cases xs with
          | nil => simp
          | cons y ys =>
            have hne : vs.map (Value.eval I σ) ≠ ys.map some := fun h => by
              rw [evalAll_eq_some_iff.mpr h] at hvs
              cases hvs
            simp [hne]
        | some zs =>
          rw [evalAll_eq_some_iff] at hvs
          cases xs with
          | nil => simp
          | cons y ys => simp [hv, hvs, List.map_inj_right]

theorem Value.evalAll_cons {v : Value} {vs : List Value} {x : Val P} {xs : List (Val P)} :
    evalAll I σ (v :: vs) = some (x :: xs) ↔ v.eval I σ = some x ∧ evalAll I σ vs = some xs := by
  rw [evalAll_eq_some_iff, evalAll_eq_some_iff, List.map_cons, List.map_cons, List.cons.injEq]

theorem Value.eval_payload {v : Value} {ref : VariantRef} {xs : List (Val P)}
    (h : v.eval I σ = some (.variant ref xs)) (i : Nat) :
    (Value.payload v ref i).eval I σ = xs[i]? := by
  rw [eval_eq_some] at h
  rw [eval, yield, h]
  simp only [Option.bind_eq_bind, Option.bind_some, if_true]
  cases xs[i]? <;> rfl

theorem Value.eval_component {v : Value} {xs : List (Val P)} (h : v.eval I σ = some (.tuple xs))
    (i : Nat) : (Value.component v i).eval I σ = xs[i]? := by
  rw [eval_eq_some] at h
  rw [eval, yield, h]
  simp only [Option.bind_eq_bind, Option.bind_some]
  cases xs[i]? <;> rfl

theorem Value.evalAll_range {part : Nat → Value} {xs : List (Val P)}
    (h : ∀ i, (part i).eval I σ = xs[i]?) :
    evalAll I σ ((List.range xs.length).map part) = some xs := by
  rw [evalAll_eq_some_iff]
  apply List.ext_getElem
  · simp
  · intro i hi hi'
    simp [h]

theorem evalAll_payloads {v : Value} {ref : VariantRef} {xs : List (Val P)}
    (h : v.eval I σ = some (.variant ref xs)) {count : Nat} (hcount : xs.length = count) :
    Value.evalAll I σ (Lower.payloads v ref count) = some xs := by
  subst hcount
  exact Value.evalAll_range (Value.eval_payload h)

theorem evalAll_results {v : Value} {xs : List (Val P)} (h : v.eval I σ = some (pack xs))
    {count : Nat} (hcount : xs.length = count) :
    Value.evalAll I σ (Lower.results v count) = some xs := by
  subst hcount
  unfold Lower.results
  split_ifs with hone
  · obtain ⟨x, rfl⟩ := List.length_eq_one_iff.mp hone
    exact Value.evalAll_cons.mpr ⟨h, rfl⟩
  · have hpack : pack xs = .tuple xs := by
      unfold pack
      split
      · exact absurd rfl hone
      · rfl
    rw [hpack] at h
    exact Value.evalAll_range (Value.eval_component h)

theorem evalAll_const {v : Value} {x : Val P} (h : v.eval I σ = some x) {ι : Type} (l : List ι) :
    Value.evalAll I σ (l.map fun _ => v) = some (l.map fun _ => x) := by
  rw [Value.evalAll_eq_some_iff]
  simp [h]

end Later

section Runs

variable {rs : RuleSet} {P : Type} [DecidableEq P] {I : Interpretation rs P}

theorem exec_append (σ : Store P) (ts us : List Statement) :
    exec I σ (ts ++ us) = (exec I σ ts).bind fun flow =>
      match flow with
      | .running τ => exec I τ us
      | flow => some flow := by
  induction ts generalizing σ with
  | nil => rfl
  | cons t ts ih =>
    rw [List.cons_append, exec, exec]
    cases t.step I σ with
    | none => rfl
    | some flow =>
      cases flow with
      | running τ => exact ih τ
      | left => rfl
      | returned x => rfl

theorem exec_append_of_running {σ τ : Store P} {ts us : List Statement}
    (h : exec I σ ts = some (.running τ)) : exec I σ (ts ++ us) = exec I τ us := by
  rw [exec_append, h]
  rfl

theorem exec_append_of_left {σ : Store P} {ts us : List Statement}
    (h : exec I σ ts = some .left) : exec I σ (ts ++ us) = some .left := by
  rw [exec_append, h]
  rfl

theorem exec_singleton (σ : Store P) (t : Statement) : exec I σ [t] = t.step I σ := by
  rw [exec]
  cases t.step I σ with
  | none => rfl
  | some flow => cases flow <;> rfl

theorem step_left_breaks {σ : Store P} {t : Statement} (h : t.step I σ = some .left) :
    t.breaks = true := by
  cases t with
  | const temp type v orBreak =>
    cases orBreak with
    | true => rfl
    | false =>
      obtain ⟨y, -, h⟩ := Option.bind_eq_some_iff.mp h
      cases y <;> simp at h
  | breakIf c => rfl
  | discard v =>
    obtain ⟨y, -, h⟩ := Option.bind_eq_some_iff.mp h
    cases h
  | ret v =>
    obtain ⟨y, -, h⟩ := Option.bind_eq_some_iff.mp h
    cases h

theorem exec_left_breaks {σ : Store P} {ts : List Statement} (h : exec I σ ts = some .left) :
    ts.any Statement.breaks = true := by
  induction ts generalizing σ with
  | nil => cases h
  | cons t ts ih =>
    rw [exec] at h
    obtain ⟨flow, hflow, h⟩ := Option.bind_eq_some_iff.mp h
    rw [List.any_cons, Bool.or_eq_true]
    cases flow with
    | running τ => exact .inr (ih h)
    | left => exact .inl (step_left_breaks hflow)
    | returned x => cases h

end Runs

end Zig

end TermRules

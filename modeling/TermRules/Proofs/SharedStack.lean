import Mathlib.Data.Finset.Card
import Mathlib.Data.Finset.Range
import TermRules.Proofs.Checking

/-!
# Checks on one stack

The terms under expansion form one stack, which all checks of a run share. The
check of a pattern on this stack agrees with the check that is given the terms
under expansion as an argument, at every depth that is large enough.
-/

namespace TermRules

structure Checker where
  scope : Scope
  expanding : List TermId
  -- All stacks that a push has made, in order.
  held : List (List TermId)

/-- A part of a run; it may fail, and it may never end. -/
abbrev Checking := ExceptT SemanticError (StateT Checker Option)

namespace Checking

section Parts

variable {α : Type}

def answer : EStateM.Result SemanticError Scope α → Except SemanticError α × Scope
  | .ok a s => (.ok a, s)
  | .error e s => (.error e, s)

def lift (x : Check α) : Checking α := fun m =>
  let (a, scope) := answer (x.run m.scope)
  some (a, { m with scope })

def endless : Checking α := fun _ => none

def push (id : TermId) : StateT Checker Option Unit := modify fun m =>
  { m with expanding := id :: m.expanding, held := m.held ++ [id :: m.expanding] }

def pop : StateT Checker Option Unit := modify fun m => { m with expanding := m.expanding.tail }

end Parts

mutual

def patternWith (rs : RuleSet)
    (expand : Loc → TermId → Pattern → TypeId → Checking CheckedPattern) :
    Pattern → TypeId → Checking CheckedPattern
  | .wildcard loc, type => return .wildcard ⟨type, loc⟩
  | .bool loc value, type => do
      lift (Check.ensureType rs loc .boolConstant boolType type)
      return .bool ⟨type, loc⟩ value
  | .int loc value, type => do
      lift (Check.ensurePrimitive rs loc type)
      return .int ⟨type, loc⟩ value
  | .var loc name, type => do
      let scope ← lift get
      match scope.find? name with
      | some v =>
          lift (Check.ensureType rs loc (.variable name) (scope.typeOf v) type)
          return .equal ⟨type, loc⟩ v
      | none => return .bind ⟨type, loc⟩ (← lift (Check.bindVar name type))
  | .bind loc name sub, type => do
      let scope ← lift get
      lift (Check.require (scope.find? name).isNone loc (.alreadyBound name))
      let v ← lift (Check.bindVar name type)
      return .bindAs ⟨type, loc⟩ v (← patternWith rs expand sub type)
  | .all loc parts, type =>
      return .all ⟨type, loc⟩ (← patternsWith rs expand parts (parts.map fun _ => type))
  | .term loc name args, type => do
      let id ← lift (Check.findTerm rs loc name)
      let term := rs.termInfo id
      lift (Check.ensureType rs loc (.term term.name) term.ret type)
      lift (Check.ensureCount loc term args.length)
      match term.extractor with
      | .missing => lift (Check.failAt loc (.noExtractor term.name))
      | .template index _ =>
          expand loc id ((rs.templates[index]?.getD default).instantiate args) type
      | .variant _ => return .variant ⟨type, loc⟩ id (← patternsWith rs expand args term.args)
      | .external .. =>
          return .extractor ⟨type, loc⟩ id (← patternsWith rs expand args term.args)

def patternsWith (rs : RuleSet)
    (expand : Loc → TermId → Pattern → TypeId → Checking CheckedPattern) :
    List Pattern → List TypeId → Checking (List CheckedPattern)
  | p :: ps, type :: types => do
      let first ← patternWith rs expand p type
      let rest ← patternsWith rs expand ps types
      return first :: rest
  | _, _ => return []

end

/-- What takes over at a term with a template, if instances may nest this deep from here on. -/
def expand (rs : RuleSet) : Nat → Loc → TermId → Pattern → TypeId → Checking CheckedPattern
  | 0, _, _, _, _ => endless
  | depth + 1, loc, id, p, type => do
      if id ∈ (← get).expanding then lift (Check.refuseExpansion rs loc id)
      else
        (do
          push id
          let answer ← (patternWith rs (expand rs depth) p type).run
          pop
          return answer : StateT Checker Option (Except SemanticError CheckedPattern))

def pattern (rs : RuleSet) (depth : Nat) (p : Pattern) (type : TypeId) :
    Checking CheckedPattern := patternWith rs (expand rs depth) p type

section Agreement

variable {α β : Type}

/-- Begun with the stack, the part ends like the check, with the stack that it began with, at
whatever depth below the bound instances end. No stack in between holds a term twice if this one
does not. -/
def Agrees (bound : Nat) (stack : List TermId) (x : Nat → Checking α) (y : Check α) : Prop :=
  ∀ m : Checker, m.expanding = stack → ∃ held, (stack.Nodup → ∀ st ∈ held, st.Nodup) ∧
    ∀ depth, bound < depth → (x depth).run.run m = some ((answer (y.run m.scope)).1,
      ⟨(answer (y.run m.scope)).2, stack, m.held ++ held⟩)

variable {bound : Nat} {stack : List TermId}

theorem agrees_lift (y : Check α) : Agrees bound stack (fun _ => lift y) y := by
  rintro m rfl
  exact ⟨[], by simp, fun _ _ => by rw [List.append_nil]; rfl⟩

theorem agrees_pure (a : α) : Agrees bound stack (fun _ => pure a) (pure a) := agrees_lift (pure a)

theorem Agrees.bind_of {x : Nat → Checking α} {y : Check α} {f : Nat → α → Checking β}
    {g : α → Check β} (h : Agrees bound stack x y)
    (hf : ∀ a s s', y.run s = .ok a s' → Agrees bound stack (fun depth => f depth a) (g a)) :
    Agrees bound stack (fun depth => x depth >>= f depth) (y >>= g) := by
  intro m hm
  obtain ⟨held, hheld, hx⟩ := h m hm
  rw [EStateM.run_bind]
  cases hy : y.run m.scope with
  | error e s =>
    rw [hy] at hx
    refine ⟨held, hheld, fun depth hdepth => ?_⟩
    rw [ExceptT.run_bind, StateT.run_bind, hx depth hdepth]
    rfl
  | ok a s =>
    rw [hy] at hx
    obtain ⟨held', hheld', hfa⟩ := hf a m.scope s hy ⟨s, stack, m.held ++ held⟩ rfl
    refine ⟨held ++ held', fun hstack st hst => ?_, fun depth hdepth => ?_⟩
    · rcases List.mem_append.mp hst with hst | hst
      · exact hheld hstack st hst
      · exact hheld' hstack st hst
    · rw [ExceptT.run_bind, StateT.run_bind, hx depth hdepth, ← List.append_assoc]
      exact hfa depth hdepth

theorem Agrees.bind {x : Nat → Checking α} {y : Check α} {f : Nat → α → Checking β}
    {g : α → Check β} (h : Agrees bound stack x y)
    (hf : ∀ a, Agrees bound stack (fun depth => f depth a) (g a)) :
    Agrees bound stack (fun depth => x depth >>= f depth) (y >>= g) :=
  h.bind_of fun a _ _ _ => hf a

end Agreement

variable {rs : RuleSet} {bound : Nat} {stack : List TermId}

mutual

theorem agrees_patternWith
    {expand : Nat → Loc → TermId → Pattern → TypeId → Checking CheckedPattern}
    {expand' : Loc → TermId → Pattern → TypeId → Check CheckedPattern}
    (hexpand : ∀ loc id p type, id < rs.terms.size →
      Agrees bound stack (fun depth => expand depth loc id p type) (expand' loc id p type)) :
    ∀ (p : Pattern) (type : TypeId), Agrees bound stack
      (fun depth => patternWith rs (expand depth) p type) (Check.patternWith rs expand' p type)
  | .wildcard loc, type => agrees_pure _
  | .bool loc value, type => (agrees_lift _).bind fun _ => agrees_pure _
  | .int loc value, type => (agrees_lift _).bind fun _ => agrees_pure _
  | .var loc name, type => by
      refine (agrees_lift _).bind fun scope => ?_
      cases scope.find? name with
      | some v => exact (agrees_lift _).bind fun _ => agrees_pure _
      | none => exact (agrees_lift _).bind fun _ => agrees_pure _
  | .bind loc name sub, type => by
      refine (agrees_lift _).bind fun scope => (agrees_lift _).bind fun _ => ?_
      refine (agrees_lift _).bind fun v => ?_
      exact (agrees_patternWith hexpand sub type).bind fun _ => agrees_pure _
  | .all loc parts, type =>
      (agrees_patternsWith hexpand parts _).bind fun _ => agrees_pure _
  | .term loc name args, type => by
      refine (agrees_lift _).bind_of fun id s s' hid => ?_
      obtain ⟨hf, -⟩ := Check.run_findTerm_ok.mp hid
      refine (agrees_lift _).bind fun _ => (agrees_lift _).bind fun _ => ?_
      cases (rs.termInfo id).extractor with
      | missing => exact agrees_lift _
      | template index place => exact hexpand loc id _ type (Table.find?_lt_size hf)
      | variant ref => exact (agrees_patternsWith hexpand args _).bind fun _ => agrees_pure _
      | external function infallible place =>
        exact (agrees_patternsWith hexpand args _).bind fun _ => agrees_pure _

theorem agrees_patternsWith
    {expand : Nat → Loc → TermId → Pattern → TypeId → Checking CheckedPattern}
    {expand' : Loc → TermId → Pattern → TypeId → Check CheckedPattern}
    (hexpand : ∀ loc id p type, id < rs.terms.size →
      Agrees bound stack (fun depth => expand depth loc id p type) (expand' loc id p type)) :
    ∀ (ps : List Pattern) (types : List TypeId), Agrees bound stack
      (fun depth => patternsWith rs (expand depth) ps types)
      (Check.patternsWith rs expand' ps types)
  | p :: ps, type :: types => by
      refine (agrees_patternWith hexpand p type).bind fun _ => ?_
      exact (agrees_patternsWith hexpand ps types).bind fun _ => agrees_pure _
  | [], _ => agrees_pure _
  | _ :: _, [] => agrees_pure _

end

def unexpanded (rs : RuleSet) (stack : List TermId) : Nat :=
  ((Finset.range rs.terms.size).filter (· ∉ stack)).card

theorem unexpanded_le (rs : RuleSet) (stack : List TermId) :
    unexpanded rs stack ≤ rs.terms.size :=
  (Finset.card_filter_le _ _).trans (Finset.card_range _).le

theorem unexpanded_nil (rs : RuleSet) : unexpanded rs [] = rs.terms.size := by
  simp [unexpanded]

theorem unexpanded_cons {id : TermId} (hid : id < rs.terms.size) (fresh : id ∉ stack) :
    unexpanded rs (id :: stack) + 1 = unexpanded rs stack := by
  have hmem : id ∈ (Finset.range rs.terms.size).filter (· ∉ stack) := by simp [hid, fresh]
  have herase : (Finset.range rs.terms.size).filter (· ∉ id :: stack) =
      ((Finset.range rs.terms.size).filter (· ∉ stack)).erase id := by
    ext i
    simp only [Finset.mem_filter, Finset.mem_erase, List.mem_cons, not_or]
    tauto
  rw [unexpanded, herase, Finset.card_erase_add_one hmem, unexpanded]

theorem mem_of_unexpanded {id : TermId} (h : unexpanded rs stack = 0) (hid : id < rs.terms.size) :
    id ∈ stack := by
  by_contra fresh
  have hcons := unexpanded_cons hid fresh
  omega

theorem agrees_refuse {id : TermId} (hid : id ∈ stack) (loc : Loc) (p : Pattern) (type : TypeId) :
    Agrees bound stack (fun depth => expand rs depth loc id p type)
      (Check.refuseExpansion rs loc id) := by
  have hlift : Agrees bound stack (fun _ => lift (Check.refuseExpansion rs loc id)) _ :=
    agrees_lift _
  rintro m rfl
  obtain ⟨held, hheld, hrun⟩ := hlift m rfl
  refine ⟨held, hheld, fun depth hdepth => ?_⟩
  obtain ⟨depth, rfl⟩ := Nat.exists_eq_succ_of_ne_zero (Nat.ne_zero_of_lt hdepth)
  refine Eq.trans ?_ (hrun (depth + 1) hdepth)
  change (if id ∈ m.expanding then _ else _ : Checking CheckedPattern) m = _
  rw [if_pos hid]
  rfl

theorem agrees_expand {id : TermId} (fresh : id ∉ stack) {loc : Loc} {p : Pattern} {type : TypeId}
    {y : Check CheckedPattern}
    (h : Agrees bound (id :: stack) (fun depth => pattern rs depth p type) y) :
    Agrees (bound + 1) stack (fun depth => expand rs depth loc id p type) y := by
  rintro m rfl
  obtain ⟨held, hheld, hrun⟩ := h ⟨m.scope, id :: m.expanding, m.held ++ [id :: m.expanding]⟩ rfl
  refine ⟨(id :: m.expanding) :: held, fun hstack st hst => ?_, fun depth hdepth => ?_⟩
  · have hpushed : (id :: m.expanding).Nodup := List.nodup_cons.mpr ⟨fresh, hstack⟩
    rcases List.mem_cons.mp hst with rfl | hst
    · exact hpushed
    · exact hheld hpushed st hst
  · obtain ⟨depth, rfl⟩ := Nat.exists_eq_succ_of_ne_zero (Nat.ne_zero_of_lt hdepth)
    have hinstance := hrun depth (Nat.lt_of_succ_lt_succ hdepth)
    change (if id ∈ m.expanding then _ else _ : Checking CheckedPattern) m = _
    rw [if_neg fresh]
    change (StateT.run (pattern rs depth p type).run
      ⟨m.scope, id :: m.expanding, m.held ++ [id :: m.expanding]⟩).bind
        (fun r => some (r.1, { r.2 with expanding := r.2.expanding.tail })) = _
    rw [hinstance]
    simp [Option.bind]

/-- With room for each term that is not under expansion, the bounded check does what the stack
allows. -/
theorem agrees_patternInside (room : Nat) (p : Pattern) (type : TypeId)
    (hroom : unexpanded rs stack ≤ room) :
    Agrees room stack (fun depth => pattern rs depth p type)
      (Check.patternInside rs room stack p type) := by
  induction room generalizing stack p type with
  | zero =>
    refine agrees_patternWith (fun loc id p type hid => ?_) p type
    exact agrees_refuse (mem_of_unexpanded (Nat.le_zero.mp hroom) hid) loc p type
  | succ room ih =>
    refine agrees_patternWith (fun loc id p type hid => ?_) p type
    split_ifs with hmem
    · exact agrees_refuse hmem loc p type
    · have hcons := unexpanded_cons hid hmem
      exact agrees_expand hmem (ih p type (by omega))

end Checking

end TermRules

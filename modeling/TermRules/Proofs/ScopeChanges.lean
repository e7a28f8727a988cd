import TermRules.Proofs.WellFormed

/-!
# Successful checks and their scopes

A check that succeeds has succeeded in all its parts. Each part numbers its
variables on from those of its scope and makes some of them visible.
-/

namespace TermRules

namespace Check

variable {α β : Type} {s s' : Scope}

theorem run_bind_ok {x : Check α} {f : α → Check β} {b : β} :
    (x >>= f).run s = .ok b s' ↔ ∃ a t, x.run s = .ok a t ∧ (f a).run t = .ok b s' := by
  rw [EStateM.run_bind]
  cases x.run s with
  | ok a t => simp
  | error e t => simp

theorem run_pure_ok {a b : α} : (pure a : Check α).run s = .ok b s' ↔ a = b ∧ s = s' := by
  rw [EStateM.run_pure, EStateM.Result.ok.injEq]

theorem run_get_ok {t : Scope} : (get : Check Scope).run s = .ok t s' ↔ s = t ∧ s = s' := by
  rw [EStateM.run_get, EStateM.Result.ok.injEq]

theorem run_modify_ok {f : Scope → Scope} {u : PUnit} :
    (modify f : Check PUnit).run s = .ok u s' ↔ f s = s' := by
  rw [EStateM.run_modify, EStateM.Result.ok.injEq]
  exact and_iff_right rfl

theorem run_failAt_ok {loc : Loc} {fault : SemanticFault} {a : α} :
    (failAt loc fault : Check α).run s = .ok a s' ↔ False := by
  have hrun : (failAt loc fault : Check α).run s = .error ⟨loc, fault⟩ s := rfl
  simp only [hrun, reduceCtorEq]

theorem run_require_ok {c : Bool} {loc : Loc} {fault : SemanticFault} {u : Unit} :
    (require c loc fault).run s = .ok u s' ↔ c = true ∧ s = s' := by
  cases c with
  | true => simp [require]
  | false => simp [require, run_failAt_ok]

theorem run_bindVar_ok {name : Bytes} {type : TypeId} {v : VarId} :
    (bindVar name type).run s = .ok v s' ↔ s.vars.size = v ∧ s.bind name type = s' := by
  have hrun : (bindVar name type).run s = .ok s.vars.size (s.bind name type) := rfl
  rw [hrun, EStateM.Result.ok.injEq]

theorem run_ensureType_ok {rs : RuleSet} {loc : Loc} {subject : Subject} {found expected : TypeId}
    {u : Unit} :
    (ensureType rs loc subject found expected).run s = .ok u s' ↔ found = expected ∧ s = s' := by
  simp [ensureType, run_require_ok]

theorem run_ensureTypeIf_ok {rs : RuleSet} {loc : Loc} {subject : Subject} {found : TypeId}
    {expected : Option TypeId} {u : Unit} :
    (ensureTypeIf rs loc subject found expected).run s = .ok u s' ↔
      (∀ type, expected = some type → found = type) ∧ s = s' := by
  cases expected with
  | none => simp [ensureTypeIf]
  | some type => simp [ensureTypeIf, run_ensureType_ok]

theorem run_ensureCount_ok {loc : Loc} {term : TermInfo} {found : Nat} {u : Unit} :
    (ensureCount loc term found).run s = .ok u s' ↔ found = term.args.length ∧ s = s' := by
  simp [ensureCount, run_require_ok]

theorem run_ensurePrimitive_ok {rs : RuleSet} {loc : Loc} {type : TypeId} {u : Unit} :
    (ensurePrimitive rs loc type).run s = .ok u s' ↔
      (rs.typeInfo type).shape.isPrimitive = true ∧ s = s' := by
  simp [ensurePrimitive, run_require_ok]

theorem run_findTerm_ok {rs : RuleSet} {loc : Loc} {name : Bytes} {id : TermId} :
    (findTerm rs loc name).run s = .ok id s' ↔ rs.terms.find? name = some id ∧ s = s' := by
  simp only [findTerm]
  cases rs.terms.find? name with
  | none => simp [run_failAt_ok]
  | some found => simp

end Check

namespace Scope

def Within (s : Scope) (vars : Array VarInfo) : Prop :=
  ∀ (v : VarId) (info : VarInfo), s.vars[v]? = some info → vars[v]? = some info

def Valid (s : Scope) : Prop :=
  ∀ name v, s.visible.lookup name = some v → ∃ type, s.vars[v]? = some ⟨name, type⟩

theorem within_refl (s : Scope) : s.Within s.vars := fun _ _ h => h

theorem Within.trans {s t : Scope} {vars : Array VarInfo} (h : s.Within t.vars)
    (ht : t.Within vars) : s.Within vars := fun v info hv => ht v info (h v info hv)

theorem getElem?_bind_size (s : Scope) (name : Bytes) (type : TypeId) :
    (s.bind name type).vars[s.vars.size]? = some ⟨name, type⟩ := by
  simp [bind]

theorem within_bind (s : Scope) (name : Bytes) (type : TypeId) :
    s.Within (s.bind name type).vars := by
  intro v info h
  obtain ⟨hlt, -⟩ := Array.getElem?_eq_some_iff.mp h
  rw [bind, Array.getElem?_push, if_neg (Nat.ne_of_lt hlt), h]

theorem valid_empty : Scope.empty.Valid := by
  intro name v h
  simp [Scope.empty] at h

theorem Valid.bind {s : Scope} (h : s.Valid) (name : Bytes) (type : TypeId) :
    (s.bind name type).Valid := by
  intro n v hv
  simp only [Scope.bind, List.lookup_cons] at hv
  split at hv
  · rename_i hn
    cases hv
    rw [beq_iff_eq] at hn
    exact ⟨type, by rw [hn, getElem?_bind_size]⟩
  · obtain ⟨type', ht⟩ := h n v hv
    exact ⟨type', within_bind s name type v _ ht⟩

structure Numbers (s s' : Scope) (vs : List VarId) : Prop where
  size_eq : s'.vars.size = s.vars.size + vs.length
  range_eq : vs = List.range' s.vars.size vs.length
  within : s.Within s'.vars

theorem numbers_nil (s : Scope) : Numbers s s [] := ⟨rfl, rfl, s.within_refl⟩

theorem numbers_bind (s : Scope) (name : Bytes) (type : TypeId) :
    Numbers s (s.bind name type) [s.vars.size] :=
  ⟨by simp [bind], rfl, within_bind s name type⟩

theorem Numbers.append {s t u : Scope} {vs ws : List VarId} (h : Numbers s t vs)
    (h' : Numbers t u ws) : Numbers s u (vs ++ ws) where
  size_eq := by rw [h'.size_eq, h.size_eq, List.length_append, Nat.add_assoc]
  range_eq := by
    have hw := h'.range_eq
    rw [h.size_eq] at hw
    rw [List.length_append, ← List.range'_append_1, ← h.range_eq, ← hw]
  within := h.within.trans h'.within

/-- From one scope to the other the variables `defined` are numbered and the variables `bound`
become visible, and something is known of all variables of a rule that are those of the scope so
far. -/
structure Extends (s s' : Scope) (defined bound : List VarId) (P : Array VarInfo → Prop) :
    Prop where
  valid : s'.Valid
  numbers : Numbers s s' defined
  visible : ∀ vars, s'.Within vars → s'.visible = Visible.bind vars s.visible bound
  known : ∀ vars, s'.Within vars → P vars

variable {s t u : Scope} {ds ds' bs bs' : List VarId} {P Q : Array VarInfo → Prop}

theorem Extends.refl (hs : s.Valid) (hP : ∀ vars, s.Within vars → P vars) :
    Extends s s [] [] P :=
  ⟨hs, numbers_nil s, fun _ _ => rfl, hP⟩

theorem Extends.mono (h : Extends s t ds bs P) (hPQ : ∀ vars, t.Within vars → P vars → Q vars) :
    Extends s t ds bs Q :=
  ⟨h.valid, h.numbers, h.visible, fun vars hw => hPQ vars hw (h.known vars hw)⟩

theorem Extends.append (h : Extends s t ds bs P) (h' : Extends t u ds' bs' Q) :
    Extends s u (ds ++ ds') (bs ++ bs') (fun vars => P vars ∧ Q vars) where
  valid := h'.valid
  numbers := h.numbers.append h'.numbers
  visible vars hw := by
    rw [h'.visible vars hw, h.visible vars (h'.numbers.within.trans hw), Visible.bind_append]
  known vars hw := ⟨h.known vars (h'.numbers.within.trans hw), h'.known vars hw⟩

theorem extends_bind (hs : s.Valid) (name : Bytes) (type : TypeId) :
    Extends s (s.bind name type) [s.vars.size] [s.vars.size]
      (fun vars => HasVar vars s.vars.size type) where
  valid := hs.bind name type
  numbers := numbers_bind s name type
  visible vars hw := by
    have hv := hw _ _ (getElem?_bind_size s name type)
    simp [Visible.bind, Visible.nameOf, hv, Scope.bind]
  known vars hw := by
    rw [HasVar, hw _ _ (getElem?_bind_size s name type)]
    rfl

theorem Valid.of_find? (hs : s.Valid) {name : Bytes} {v : VarId} (hf : s.find? name = some v)
    {vars : Array VarInfo} (hw : s.Within vars) :
    Visible.Denotes vars s.visible v ∧ HasVar vars v (s.typeOf v) := by
  obtain ⟨type, hv⟩ := hs name v hf
  have hvars := hw v _ hv
  constructor
  · rw [Visible.Denotes, Visible.nameOf, hvars]
    exact hf
  · rw [HasVar, hvars, typeOf, hv]
    rfl

end Scope

end TermRules

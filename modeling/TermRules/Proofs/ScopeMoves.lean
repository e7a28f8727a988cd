import TermRules.Proofs.Environments
import TermRules.Proofs.Meaning
import TermRules.Proofs.ProperRules

/-!
# Scopes on the way of a check

While the check follows a checked rule, each scope holds the first variables of
the rule and moves on by those that a pattern or an expression numbers. Numbers
do not count, and the type of an expression can be told unless it ends in an
integer constant.
-/

namespace TermRules

section Renumber

variable (ρ : Renumbering)

mutual

theorem CheckedPattern.defined_renumber : ∀ c : CheckedPattern,
    (c.renumber ρ).defined = c.defined
  | .wildcard _ | .bind _ _ | .equal _ _ | .int _ _ | .bool _ _ => rfl
  | .bindAs _ v sub => congrArg (v :: ·) sub.defined_renumber
  | .variant _ _ args | .extractor _ _ args => definedAll_renumberAll args
  | .all _ parts => definedAll_renumberAll parts

theorem CheckedPattern.definedAll_renumberAll : ∀ cs : List CheckedPattern,
    definedAll (renumberAll ρ cs) = definedAll cs
  | [] => rfl
  | c :: cs => congrArg₂ (· ++ ·) c.defined_renumber (definedAll_renumberAll cs)

end

mutual

theorem CheckedExpr.defined_renumber : ∀ c : CheckedExpr, (c.renumber ρ).defined = c.defined
  | .var _ _ | .int _ _ | .bool _ _ => rfl
  | .call _ _ args => definedAll_renumberAll args
  | .letIn _ bs body => congrArg₂ (· ++ ·) (definedIn_renumberIn bs) body.defined_renumber

theorem CheckedExpr.definedAll_renumberAll : ∀ cs : List CheckedExpr,
    definedAll (renumberAll ρ cs) = definedAll cs
  | [] => rfl
  | c :: cs => congrArg₂ (· ++ ·) c.defined_renumber (definedAll_renumberAll cs)

theorem CheckedExpr.definedIn_renumberIn : ∀ bs : List (CheckedBinding CheckedExpr),
    definedIn (renumberIn ρ bs) = definedIn bs
  | [] => rfl
  | ⟨v, value⟩ :: bs => congrArg₂ (fun ds es => ds ++ v :: es) value.defined_renumber
      (definedIn_renumberIn bs)

end

theorem CheckedExpr.map_var_renumberIn (bs : List (CheckedBinding CheckedExpr)) :
    (renumberIn ρ bs).map CheckedBinding.var = bs.map CheckedBinding.var := by
  induction bs with
  | nil => rfl
  | cons b bs ih => rw [renumberIn, List.map_cons, List.map_cons, ih]

end Renumber

theorem CheckedPattern.defined_eq {c c' : CheckedPattern}
    (h : c'.renumber .forgetting = c.renumber .forgetting) : c'.defined = c.defined := by
  rw [← c'.defined_renumber .forgetting, h, defined_renumber]

theorem CheckedPattern.definedAll_eq {cs cs' : List CheckedPattern}
    (h : renumberAll .forgetting cs' = renumberAll .forgetting cs) :
    definedAll cs' = definedAll cs := by
  rw [← definedAll_renumberAll .forgetting cs', h, definedAll_renumberAll]

theorem CheckedExpr.defined_eq {c c' : CheckedExpr}
    (h : c'.renumber .forgetting = c.renumber .forgetting) : c'.defined = c.defined := by
  rw [← c'.defined_renumber .forgetting, h, defined_renumber]

theorem CheckedExpr.type_eq {c c' : CheckedExpr}
    (h : c'.renumber .forgetting = c.renumber .forgetting) : c'.type = c.type := by
  have htype := c'.type_renumber .forgetting
  rw [h, type_renumber] at htype
  exact htype.symm

def Visible.Known (n : Nat) (vars : Array VarInfo) (g : Visible) : Prop :=
  ∀ v type, g.Denotes vars v → HasVar vars v type → type < n

theorem Visible.Known.bind {n : Nat} {vars : Array VarInfo} {g : Visible} (h : g.Known n vars)
    {v : VarId} {type : TypeId} (hv : HasVar vars v type) (ht : type < n) :
    Known n vars (g.bind vars [v]) := by
  intro w type' hw hw'
  rw [Denotes, Visible.bind, List.foldl_cons, List.foldl_nil, List.lookup_cons] at hw
  split at hw
  · cases hw
    exact hasVar_inj hv hw' ▸ ht
  · exact h w type' hw hw'

namespace Scope

structure Serves (rs : RuleSet) (vars : Array VarInfo) (s : Scope) : Prop where
  valid : s.Valid
  within : s.Within vars
  below : s.Below rs.types.size

def Continues (s : Scope) (vs : List VarId) : Prop := vs = List.range' s.vars.size vs.length

/-- From one scope to the other variables were numbered and others made visible. -/
structure Moves (rs : RuleSet) (vars : Array VarInfo) (s s' : Scope) (defined bound : List VarId) :
    Prop where
  serves : s'.Serves rs vars
  size_eq : s'.vars.size = s.vars.size + defined.length
  visible_eq : s'.visible = Visible.bind vars s.visible bound

variable {rs : RuleSet} {vars : Array VarInfo} {s s' : Scope} {ds es bs : List VarId}

theorem Extends.moves {P : Array VarInfo → Prop} (h : Extends s s' ds bs P)
    (hw : s'.Within vars) (hb : s'.Below rs.types.size) : s.Moves rs vars s' ds bs :=
  ⟨⟨h.valid, hw, hb⟩, h.numbers.size_eq, h.visible vars hw⟩

theorem Moves.append {t u : Scope} {bs' : List VarId} (h : s.Moves rs vars t ds bs)
    (h' : t.Moves rs vars u es bs') : s.Moves rs vars u (ds ++ es) (bs ++ bs') where
  serves := h'.serves
  size_eq := by rw [h'.size_eq, h.size_eq, List.length_append, Nat.add_assoc]
  visible_eq := by rw [h'.visible_eq, h.visible_eq, Visible.bind_append]

theorem Continues.append (h : s.Continues (ds ++ es)) :
    s.Continues ds ∧ ∀ t : Scope, t.vars.size = s.vars.size + ds.length → t.Continues es := by
  rw [Continues, List.length_append, ← List.range'_append_1] at h
  obtain ⟨hds, hes⟩ := List.append_inj h (by rw [List.length_range'])
  exact ⟨hds, fun t ht => by rw [Continues, ht]; exact hes⟩

theorem Continues.cons {v : VarId} (h : s.Continues (v :: ds)) :
    v = s.vars.size ∧ ∀ t : Scope, t.vars.size = s.vars.size + 1 → t.Continues ds := by
  have hcons : s.Continues ([v] ++ ds) := h
  obtain ⟨hv, hds⟩ := hcons.append
  exact ⟨List.head_eq_of_cons_eq hv, hds⟩

theorem serves_empty (rs : RuleSet) (vars : Array VarInfo) : empty.Serves rs vars where
  valid := valid_empty
  within v info h := by cases h
  below := below_empty _

theorem continues_range {n : Nat} (h : ds = List.range n) : empty.Continues ds := by
  rw [Continues, h, List.length_range, List.range_eq_range']
  rfl

theorem Moves.vars_eq (h : empty.Moves rs vars s ds bs) (hds : ds = List.range vars.size) :
    s.vars = vars := by
  have hsize : s.vars.size = vars.size := by
    rw [h.size_eq, hds, List.length_range]
    exact Nat.zero_add _
  refine Array.ext hsize fun i hi hi' => ?_
  have hvars := h.serves.within i _ (Array.getElem?_eq_getElem hi)
  rw [Array.getElem?_eq_getElem hi', Option.some.injEq] at hvars
  exact hvars.symm

theorem Serves.bind (h : s.Serves rs vars) {type : TypeId} (hv : HasVar vars s.vars.size type)
    (ht : type < rs.types.size) :
    (s.bind (Visible.nameOf vars s.vars.size) type).Serves rs vars where
  valid := h.valid.bind _ type
  within v info hinfo := by
    rw [Scope.bind, Array.getElem?_push] at hinfo
    split at hinfo
    · subst v
      obtain ⟨info', hinfo', rfl⟩ := Option.map_eq_some_iff.mp hv
      rw [Visible.nameOf, hinfo', Option.getD_some, Option.some.injEq] at hinfo
      rw [hinfo', ← hinfo]
    · exact h.within v info hinfo
  below := h.below.bind _ ht

theorem Serves.known (h : s.Serves rs vars) : Visible.Known rs.types.size vars s.visible := by
  intro v type hv htype
  obtain ⟨type', hinfo⟩ := h.valid _ v hv
  have hvars : HasVar vars v type' := by rw [HasVar, h.within v _ hinfo]; rfl
  rw [hasVar_inj htype hvars]
  exact h.below _ (Array.mem_of_getElem? hinfo)

end Scope

section Known

variable {rs : RuleSet} {vars : Array VarInfo}

theorem RuleSet.lt_of_isPrimitive {type : TypeId}
    (h : (rs.typeInfo type).shape.isPrimitive = true) : type < rs.types.size := by
  cases hfound : rs.types.get? type with
  | none =>
    rw [RuleSet.typeInfo, hfound] at h
    cases h
  | some info => exact Table.lt_size_of_get? hfound

theorem RuleSet.Bounded.arg_lt (hrs : rs.Bounded) {id : TermId} {info : TermInfo}
    (found : rs.terms.get? id = some info) {α : Type} {type : α → TypeId} {as : List α}
    (hargs : info.args = as.map type) : ∀ a ∈ as, type a < rs.types.size := fun _ ha =>
  (hrs.terms id info found).args _ (hargs ▸ List.mem_map_of_mem ha)

theorem RuleSet.Linked.find?_typeName (hlinked : rs.Linked) {type : TypeId}
    (h : type < rs.types.size) : rs.types.find? (rs.typeName type) = some type := by
  have found : rs.types.get? type = some rs.types.entries[type] := Array.getElem?_eq_getElem h
  rw [RuleSet.typeName, RuleSet.typeInfo_of_get? found]
  exact hlinked.types.find? found

mutual

theorem CheckedExpr.type_lt (hrs : rs.Bounded) : ∀ (c : CheckedExpr) {g : Visible},
    g.Known rs.types.size vars → c.Scoped vars g → c.Typed rs vars → c.type < rs.types.size
  | .var s v, g, hg, hscoped, htyped => hg v s.type hscoped htyped
  | .int _ _, _, _, _, htyped => RuleSet.lt_of_isPrimitive htyped
  | .bool _ _, _, _, _, htyped => by
      rw [type, site, show _ = boolType from htyped]
      exact hrs.bool
  | .call _ t _, _, _, _, ⟨⟨info, found, _, hret, _⟩, _⟩ => by
      rw [type, site, ← hret]
      exact (hrs.terms t info found).ret
  | .letIn _ bs body, g, hg, ⟨hscopedIn, hscoped⟩, ⟨htype, htypedIn, htyped⟩ => by
      rw [type, site, ← htype]
      exact body.type_lt hrs (known_bindings hrs bs hg hscopedIn htypedIn) hscoped htyped

theorem CheckedExpr.known_bindings (hrs : rs.Bounded) :
    ∀ (bs : List (CheckedBinding CheckedExpr)) {g : Visible}, g.Known rs.types.size vars →
      ScopedIn vars bs g → TypedIn rs vars bs →
      Visible.Known rs.types.size vars (g.bind vars (bs.map CheckedBinding.var))
  | [], _, hg, _, _ => hg
  | ⟨_, value⟩ :: bs, _, hg, ⟨hscoped, hscopedIn⟩, ⟨hv, htyped, htypedIn⟩ =>
      known_bindings hrs bs (hg.bind hv (value.type_lt hrs hg hscoped htyped)) hscopedIn htypedIn

end

end Known

end TermRules

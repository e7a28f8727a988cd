import TermRules.Proofs.Checking
import TermRules.Proofs.RenumberedChecks

/-!
# Nodes of arguments

A checked pattern has its nodes at paths. A check comes to the arguments of a
term, and to the instance where the term has a template, and whatever it comes to
has its node at a path. A template puts an argument where its parameter stands.
-/

namespace TermRules

namespace CheckedPattern

def children : CheckedPattern → List CheckedPattern
  | .bindAs _ _ sub => [sub]
  | .variant _ _ args | .extractor _ _ args => args
  | .all _ parts => parts
  | _ => []

def node? : CheckedPattern → List Nat → Option CheckedPattern
  | c, [] => some c
  | c, k :: path => c.children[k]?.bind (node? · path)

theorem node?_cons {c c' : CheckedPattern} {k : Nat} (h : c.children[k]? = some c')
    (path : List Nat) : c.node? (k :: path) = c'.node? path := by
  rw [node?, h, Option.bind_some]

theorem node?_append {c c' : CheckedPattern} {path : List Nat} (h : c.node? path = some c')
    (path' : List Nat) : c.node? (path ++ path') = c'.node? path' := by
  induction path generalizing c with
  | nil =>
    cases h
    rfl
  | cons k path ih =>
    rw [node?] at h
    obtain ⟨d, hd, h⟩ := Option.bind_eq_some_iff.mp h
    rw [List.cons_append, node?_cons hd, ih h]

end CheckedPattern

namespace Check

variable {rs : RuleSet}

def expandInside (rs : RuleSet) :
    Nat → List TermId → Loc → TermId → Pattern → TypeId → Check CheckedPattern
  | 0, _, loc, id, _, _ => refuseExpansion rs loc id
  | room + 1, expanding, loc, id, expanded, type =>
      if id ∈ expanding then refuseExpansion rs loc id
      else patternInside rs room (id :: expanding) expanded type

theorem patternInside_eq (room : Nat) (expanding : List TermId) :
    patternInside rs room expanding = patternWith rs (expandInside rs room expanding) := by
  cases room <;> rfl

def Elaborates (rs : RuleSet) (p : Pattern) (type : TypeId) (c : CheckedPattern) : Prop :=
  ∃ room expanding s s', s.Valid ∧ (patternInside rs room expanding p type).run s = .ok c s'

theorem expandInside_ok {room : Nat} {expanding : List TermId} {loc : Loc} {id : TermId}
    {p : Pattern} {type : TypeId} {c : CheckedPattern} {s s' : Scope}
    (h : (expandInside rs room expanding loc id p type).run s = .ok c s') :
    ∃ room' expanding', (patternInside rs room' expanding' p type).run s = .ok c s' := by
  cases room with
  | zero => simp only [expandInside, refuseExpansion, run_failAt_ok] at h
  | succ room =>
    rw [expandInside] at h
    split_ifs at h
    · simp only [refuseExpansion, run_failAt_ok] at h
    · exact ⟨room, id :: expanding, h⟩

theorem expands_expandInside (room : Nat) (expanding : List TermId) :
    Expands rs (expandInside rs room expanding) := by
  intro loc id p type s c s' hs h
  obtain ⟨room', expanding', h⟩ := expandInside_ok h
  exact patternInside_extends room' expanding' p hs h

theorem elaborates_of_expandInside {room : Nat} {expanding : List TermId} {loc : Loc} {id : TermId}
    {p : Pattern} {type : TypeId} {c : CheckedPattern} {s s' : Scope} (hs : s.Valid)
    (h : (expandInside rs room expanding loc id p type).run s = .ok c s') :
    Elaborates rs p type c := by
  obtain ⟨room', expanding', h⟩ := expandInside_ok h
  exact ⟨room', expanding', s, s', hs, h⟩

theorem elaborates_of_patternsWith {room : Nat} {expanding : List TermId} {ps : List Pattern}
    {types : List TypeId} {cs : List CheckedPattern} {s s' : Scope} (hs : s.Valid)
    (h : (patternsWith rs (expandInside rs room expanding) ps types).run s = .ok cs s')
    {k : Nat} {p : Pattern} {type : TypeId} (hp : ps[k]? = some p) (htype : types[k]? = some type) :
    ∃ c, cs[k]? = some c ∧ Elaborates rs p type c := by
  induction ps generalizing types cs s k with
  | nil => cases hp
  | cons q qs ih =>
    cases types with
    | nil => cases htype
    | cons type' types =>
      simp only [patternsWith, run_bind_ok, run_pure_ok] at h
      obtain ⟨c, t, hq, cs', u, hqs, rfl, rfl⟩ := h
      rw [← patternInside_eq] at hq
      cases k with
      | zero =>
        cases hp
        cases htype
        exact ⟨c, rfl, room, expanding, s, t, hs, hq⟩
      | succ k => exact ih (patternInside_extends room expanding q hs hq).2.valid hqs hp htype

theorem elaborates_bind {loc : Loc} {name : Bytes} {sub : Pattern} {type : TypeId}
    {c : CheckedPattern} (h : Elaborates rs (.bind loc name sub) type c) :
    ∃ c', c.children[0]? = some c' ∧ Elaborates rs sub type c' := by
  obtain ⟨room, expanding, s, s', hs, h⟩ := h
  simp only [patternInside_eq, patternWith, run_bind_ok, run_get_ok, run_require_ok,
    run_bindVar_ok, run_pure_ok] at h
  obtain ⟨_, _, ⟨-, rfl⟩, _, _, ⟨-, rfl⟩, _, _, ⟨-, rfl⟩, c', t, hsub, rfl, -⟩ := h
  rw [← patternInside_eq] at hsub
  exact ⟨c', rfl, room, expanding, s.bind name type, t, hs.bind name type, hsub⟩

theorem elaborates_all {loc : Loc} {parts : List Pattern} {type : TypeId} {c : CheckedPattern}
    (h : Elaborates rs (.all loc parts) type c) {k : Nat} {p : Pattern}
    (hp : parts[k]? = some p) : ∃ c', c.children[k]? = some c' ∧ Elaborates rs p type c' := by
  obtain ⟨room, expanding, s, s', hs, h⟩ := h
  simp only [patternInside_eq, patternWith, run_bind_ok, run_pure_ok] at h
  obtain ⟨cs, t, hparts, rfl, -⟩ := h
  exact elaborates_of_patternsWith hs hparts hp (by rw [List.getElem?_map, hp]; rfl)

theorem elaborates_type {p : Pattern} {type : TypeId} {c : CheckedPattern}
    (h : Elaborates rs p type c) : c.type = type := by
  obtain ⟨room, expanding, s, s', hs, h⟩ := h
  exact (patternInside_extends room expanding p hs h).1

end Check

namespace RuleSet

structure IsPlainTerm (rs : RuleSet) (name : Bytes) (info : TermInfo) : Prop where
  found : ∃ id, rs.terms.find? name = some id ∧ rs.terms.get? id = some info
  plain : ∀ index loc, info.extractor ≠ .template index loc

structure IsTemplateTerm (rs : RuleSet) (name : Bytes) (info : TermInfo) (t : Template) : Prop where
  found : ∃ id, rs.terms.find? name = some id ∧ rs.terms.get? id = some info
  template : ∃ index loc, info.extractor = .template index loc ∧ rs.templates[index]? = some t

variable {rs : RuleSet} {name : Bytes} {info info' : TermInfo} {t t' : Template}

theorem entry_unique (h : ∃ id, rs.terms.find? name = some id ∧ rs.terms.get? id = some info)
    (h' : ∃ id, rs.terms.find? name = some id ∧ rs.terms.get? id = some info') : info = info' := by
  obtain ⟨id, hid, hinfo⟩ := h
  obtain ⟨id', hid', hinfo'⟩ := h'
  cases hid.symm.trans hid'
  exact Option.some.inj (hinfo.symm.trans hinfo')

theorem IsTemplateTerm.unique (h : rs.IsTemplateTerm name info t)
    (h' : rs.IsTemplateTerm name info' t') : info = info' ∧ t = t' := by
  cases entry_unique h.found h'.found
  obtain ⟨index, loc, hextractor, ht⟩ := h.template
  obtain ⟨index', loc', hextractor', ht'⟩ := h'.template
  cases hextractor.symm.trans hextractor'
  exact ⟨rfl, Option.some.inj (ht.symm.trans ht')⟩

theorem IsTemplateTerm.not_plain (h : rs.IsTemplateTerm name info t)
    (h' : rs.IsPlainTerm name info') : False := by
  cases entry_unique h.found h'.found
  obtain ⟨index, loc, hextractor, -⟩ := h.template
  exact h'.plain index loc hextractor

theorem IsTemplateTerm.length_params (linked : rs.Linked) (h : rs.IsTemplateTerm name info t) :
    t.params.length = info.args.length := by
  obtain ⟨id, -, hinfo⟩ := h.found
  obtain ⟨index, loc, hextractor, ht⟩ := h.template
  obtain ⟨t', ht', -, hlength⟩ := (linked.infos hinfo).template index loc hextractor
  cases ht.symm.trans ht'
  exact hlength

end RuleSet

namespace Check

variable {rs : RuleSet}

theorem elaborates_term (linked : rs.Linked) {loc : Loc} {name : Bytes} {args : List Pattern}
    {type : TypeId} {c : CheckedPattern} (h : Elaborates rs (.term loc name args) type c) :
    ∃ info, info.ret = type ∧ args.length = info.args.length ∧
      (rs.IsPlainTerm name info ∧
          (∀ {k : Nat} {p type'}, args[k]? = some p → info.args[k]? = some type' →
            ∃ c', c.children[k]? = some c' ∧ Elaborates rs p type' c') ∨
        ∃ t, rs.IsTemplateTerm name info t ∧ Elaborates rs (t.instantiate args) type c) := by
  obtain ⟨room, expanding, s, s', hs, h⟩ := h
  simp only [patternInside_eq, patternWith, run_bind_ok, run_findTerm_ok, run_ensureType_ok,
    run_ensureCount_ok] at h
  obtain ⟨id, _, ⟨hid, rfl⟩, _, _, ⟨hret, rfl⟩, _, _, ⟨hcount, rfl⟩, h⟩ := h
  obtain ⟨info, hinfo, -⟩ := Table.get?_of_find? hid
  rw [RuleSet.termInfo_of_get? hinfo] at hret hcount h
  refine ⟨info, hret, hcount, ?_⟩
  cases hextractor : info.extractor with
  | missing => simp only [hextractor, run_failAt_ok] at h
  | template index place =>
    obtain ⟨t, ht, -⟩ := (linked.infos hinfo).template index place hextractor
    simp only [hextractor, ht, Option.getD_some] at h
    have htemplate : rs.IsTemplateTerm name info t :=
      ⟨⟨id, hid, hinfo⟩, index, place, hextractor, ht⟩
    exact .inr ⟨t, htemplate, elaborates_of_expandInside hs h⟩
  | variant ref =>
    simp only [hextractor, run_bind_ok, run_pure_ok] at h
    obtain ⟨cs, t, hargs, rfl, -⟩ := h
    exact .inl ⟨⟨⟨id, hid, hinfo⟩, by simp [hextractor]⟩, elaborates_of_patternsWith hs hargs⟩
  | external function infallible place =>
    simp only [hextractor, run_bind_ok, run_pure_ok] at h
    obtain ⟨cs, t, hargs, rfl, -⟩ := h
    exact .inl ⟨⟨⟨id, hid, hinfo⟩, by simp [hextractor]⟩, elaborates_of_patternsWith hs hargs⟩

end Check

/-- Checking the first pattern comes to the second one, with its type, and has its node at the
path. -/
inductive Pattern.Reaches (rs : RuleSet) :
    Pattern → TypeId → Pattern → TypeId → List Nat → Prop
  | here (p : Pattern) (type : TypeId) : Reaches rs p type p type []
  | bind {loc name sub type q type' path} (h : Reaches rs sub type q type' path) :
      Reaches rs (.bind loc name sub) type q type' (0 :: path)
  | part {loc parts k p type q type' path} (part : parts[k]? = some p)
      (h : Reaches rs p type q type' path) : Reaches rs (.all loc parts) type q type' (k :: path)
  | argument {loc name info args k p type mid q type' path} (plain : rs.IsPlainTerm name info)
      (arg : args[k]? = some p) (declared : info.args[k]? = some mid)
      (h : Reaches rs p mid q type' path) :
      Reaches rs (.term loc name args) type q type' (k :: path)
  | expansion {loc name info t args type q type' path} (template : rs.IsTemplateTerm name info t)
      (h : Reaches rs (t.instantiate args) type q type' path) :
      Reaches rs (.term loc name args) type q type' path

def Template.names (t : Template) : List Bytes := t.params.map Ident.name

/-- In a template with the parameters `params`, the pattern meets values of the first type and
puts the argument number `i` at the path, where it meets values of the second type. -/
inductive Pattern.Puts (rs : RuleSet) :
    List Bytes → Pattern → TypeId → Nat → TypeId → List Nat → Prop
  | var {params loc name i type} (stands : params.idxOf? name = some i) :
      Puts rs params (.var loc name) type i type []
  | bind {params loc name sub i type} (stands : params.idxOf? name = some i) :
      Puts rs params (.bind loc name sub) type i type [0]
  | beside {params loc name sub i type type' path} (param : name ∈ params)
      (h : Puts rs params sub type i type' path) :
      Puts rs params (.bind loc name sub) type i type' (1 :: path)
  | under {params loc name sub i type type' path} (free : name ∉ params)
      (h : Puts rs params sub type i type' path) :
      Puts rs params (.bind loc name sub) type i type' (0 :: path)
  | part {params loc parts k p i type type' path} (part : parts[k]? = some p)
      (h : Puts rs params p type i type' path) :
      Puts rs params (.all loc parts) type i type' (k :: path)
  | argument {params loc name info args k p i type mid type' path}
      (plain : rs.IsPlainTerm name info) (arg : args[k]? = some p)
      (declared : info.args[k]? = some mid) (h : Puts rs params p mid i type' path) :
      Puts rs params (.term loc name args) type i type' (k :: path)
  | expansion {params loc name info t args j p i type mid type' path path'}
      (template : rs.IsTemplateTerm name info t) (inner : Puts rs t.names t.body type j mid path)
      (arg : args[j]? = some p) (h : Puts rs params p mid i type' path') :
      Puts rs params (.term loc name args) type i type' (path ++ path')

namespace Check

variable {rs : RuleSet}

theorem elaborates_of_reaches (linked : rs.Linked) {p q : Pattern} {type type' : TypeId}
    {path : List Nat} (h : p.Reaches rs type q type' path) {c : CheckedPattern}
    (hc : Elaborates rs p type c) : ∃ n, c.node? path = some n ∧ Elaborates rs q type' n := by
  induction h generalizing c with
  | here p type => exact ⟨c, rfl, hc⟩
  | bind _ ih =>
    obtain ⟨c', hc', hsub⟩ := elaborates_bind hc
    rw [CheckedPattern.node?_cons hc']
    exact ih hsub
  | part part _ ih =>
    obtain ⟨c', hc', hpart⟩ := elaborates_all hc part
    rw [CheckedPattern.node?_cons hc']
    exact ih hpart
  | argument plain arg declared _ ih =>
    obtain ⟨info, -, -, ⟨hplain, hargs⟩ | ⟨t, htemplate, -⟩⟩ := elaborates_term linked hc
    · cases RuleSet.entry_unique plain.found hplain.found
      obtain ⟨c', hc', harg⟩ := hargs arg declared
      rw [CheckedPattern.node?_cons hc']
      exact ih harg
    · exact (htemplate.not_plain plain).elim
  | expansion template _ ih =>
    obtain ⟨info, -, -, ⟨hplain, -⟩ | ⟨t, htemplate, hexpanded⟩⟩ := elaborates_term linked hc
    · exact (template.not_plain hplain).elim
    · obtain ⟨-, rfl⟩ := template.unique htemplate
      exact ih hexpanded

theorem lookup_zip (params : List Bytes) (args : List Pattern) (name : Bytes) :
    (params.zip args).lookup name = (params.idxOf? name).bind (args[·]?) := by
  induction params generalizing args with
  | nil => rfl
  | cons x params ih =>
    rw [List.idxOf?_cons]
    cases args with
    | nil => cases (if x == name then _ else _ : Option Nat) <;> rfl
    | cons a args =>
      rw [List.zip_cons_cons, List.lookup_cons]
      by_cases hname : name = x
      · subst hname
        simp
      · rw [beq_false_of_ne hname, beq_false_of_ne (Ne.symm hname), ih]
        cases params.idxOf? name <;> rfl

theorem exists_lookup_zip {params : List Bytes} {args : List Pattern}
    (hargs : args.length = params.length) {name : Bytes} (h : name ∈ params) :
    ∃ a, (params.zip args).lookup name = some a := by
  obtain ⟨i, hi⟩ := Option.isSome_iff_exists.mp (List.isSome_idxOf?.mpr h)
  obtain ⟨hlt, -⟩ := List.idxOf?_eq_some_iff.mp hi
  have ha := List.getElem?_eq_getElem (hargs.symm ▸ hlt : i < args.length)
  exact ⟨_, by rw [lookup_zip, hi, Option.bind_some, ha]⟩

theorem lookup_zip_eq_none {params : List Bytes} {name : Bytes} (h : name ∉ params)
    (args : List Pattern) : (params.zip args).lookup name = none := by
  rw [lookup_zip, List.idxOf?_eq_none_iff.mpr h, Option.bind_none]

theorem elaborates_of_puts (linked : rs.Linked) {params : List Bytes} {q : Pattern}
    {type type' : TypeId} {i : Nat} {path : List Nat} (h : q.Puts rs params type i type' path)
    {args : List Pattern} (hargs : args.length = params.length) {a : Pattern}
    (ha : args[i]? = some a) {c : CheckedPattern}
    (hc : Elaborates rs (q.subst (params.zip args)) type c) :
    ∃ n, c.node? path = some n ∧ Elaborates rs a type' n := by
  induction h generalizing args a c with
  | var stands =>
    rw [Pattern.subst, lookup_zip, stands, Option.bind_some, ha] at hc
    exact ⟨c, rfl, hc⟩
  | bind stands =>
    -- A parameter that binds a subpattern has become a conjunction with the argument in front.
    rw [Pattern.subst, lookup_zip, stands, Option.bind_some, ha] at hc
    obtain ⟨c', hc', harg⟩ := elaborates_all (k := 0) hc rfl
    rw [CheckedPattern.node?_cons hc']
    exact ⟨c', rfl, harg⟩
  | beside param _ ih =>
    obtain ⟨b, hb⟩ := exists_lookup_zip hargs param
    rw [Pattern.subst, hb] at hc
    obtain ⟨c', hc', hsub⟩ := elaborates_all (k := 1) hc rfl
    rw [CheckedPattern.node?_cons hc']
    exact ih hargs ha hsub
  | under free _ ih =>
    rw [Pattern.subst, lookup_zip_eq_none free] at hc
    obtain ⟨c', hc', hsub⟩ := elaborates_bind hc
    rw [CheckedPattern.node?_cons hc']
    exact ih hargs ha hsub
  | part part _ ih =>
    rw [Pattern.subst, Pattern.substAll_eq_map] at hc
    obtain ⟨c', hc', hpart⟩ := elaborates_all hc (by rw [List.getElem?_map, part]; rfl)
    rw [CheckedPattern.node?_cons hc']
    exact ih hargs ha hpart
  | argument plain arg declared _ ih =>
    rw [Pattern.subst, Pattern.substAll_eq_map] at hc
    obtain ⟨info, -, -, ⟨hplain, hchildren⟩ | ⟨t, htemplate, -⟩⟩ := elaborates_term linked hc
    · cases RuleSet.entry_unique plain.found hplain.found
      obtain ⟨c', hc', harg⟩ := hchildren (by rw [List.getElem?_map, arg]; rfl) declared
      rw [CheckedPattern.node?_cons hc']
      exact ih hargs ha harg
    · exact (htemplate.not_plain plain).elim
  | expansion template _ arg _ ihInner ih =>
    rw [Pattern.subst, Pattern.substAll_eq_map] at hc
    obtain ⟨info, -, hcount, ⟨hplain, -⟩ | ⟨t, htemplate, hexpanded⟩⟩ := elaborates_term linked hc
    · exact (template.not_plain hplain).elim
    · -- The inner template puts one of its arguments, and the outer argument stands inside that.
      obtain ⟨rfl, rfl⟩ := template.unique htemplate
      have hlength := htemplate.length_params linked
      obtain ⟨n, hn, hinner⟩ := ihInner (by rw [hcount, Template.names, List.length_map, hlength])
        (by rw [List.getElem?_map, arg]; rfl) hexpanded
      rw [CheckedPattern.node?_append hn]
      exact ih hargs ha hinner

end Check

end TermRules

import TermRules.Proofs.ArgumentNodes
import TermRules.Proofs.DefinitionOrder
import TermRules.Proofs.Expansions

/-!
# Arguments of templates

The arguments of a term with a template are checked where the template puts
them, at the types of these places. A parameter may stand at no place or at
places of other types than the declaration says. An argument is therefore
checked as declared in every use, or in none, and the template alone decides
which. Where all templates honour their declarations, an accepted rule has no
term that is undefined and no argument that its term does not admit.
-/

namespace TermRules

namespace Template

variable (t : Template) (rs : RuleSet) (info : TermInfo) (i : Nat)

def HasArgument (use n : CheckedPattern) : Prop :=
  ∃ type path, t.body.Puts rs t.names info.ret i type path ∧ use.node? path = some n

/-- The argument is checked in the use, and only at the type that is declared for it. -/
def ChecksAsDeclared (use : CheckedPattern) : Prop :=
  (∃ n, t.HasArgument rs info i use n) ∧
    ∀ n, t.HasArgument rs info i use n → info.args[i]? = some n.type

/-- The template puts the argument somewhere, and only where values have its declared type. -/
def Honours : Prop :=
  (∃ type path, t.body.Puts rs t.names info.ret i type path) ∧
    ∀ type path, t.body.Puts rs t.names info.ret i type path → info.args[i]? = some type

end Template

structure Template.UseChecked (t : Template) (rs : RuleSet) (info : TermInfo)
    (args : List Pattern) (use : CheckedPattern) : Prop where
  count : args.length = info.args.length
  elaborates : ∀ (i : Nat) a n, args[i]? = some a → t.HasArgument rs info i use n →
    Check.Elaborates rs a n.type n
  asDeclared_iff : ∀ i < args.length, t.ChecksAsDeclared rs info i use ↔ t.Honours rs info i

namespace Check

variable {rs : RuleSet}

theorem node_of_puts (linked : rs.Linked) {loc : Loc} {name : Bytes} {args : List Pattern}
    {type : TypeId} {use : CheckedPattern} (h : Elaborates rs (.term loc name args) type use)
    {info : TermInfo} {t : Template} (template : rs.IsTemplateTerm name info t) {i : Nat}
    {a : Pattern} (ha : args[i]? = some a) {type' : TypeId} {path : List Nat}
    (hputs : t.body.Puts rs t.names info.ret i type' path) :
    ∃ n, use.node? path = some n ∧ Elaborates rs a type' n := by
  obtain ⟨info', hret, hcount, ⟨hplain, -⟩ | ⟨t', htemplate, hexpanded⟩⟩ := elaborates_term linked h
  · exact (template.not_plain hplain).elim
  · obtain ⟨rfl, rfl⟩ := template.unique htemplate
    have hlength := template.length_params linked
    rw [← hret] at hexpanded
    exact elaborates_of_puts linked hputs
      (by rw [hcount, Template.names, List.length_map, hlength]) ha hexpanded

theorem useChecked (linked : rs.Linked) {loc : Loc} {name : Bytes} {args : List Pattern}
    {type : TypeId} {use : CheckedPattern} (h : Elaborates rs (.term loc name args) type use)
    {info : TermInfo} {t : Template} (template : rs.IsTemplateTerm name info t) :
    t.UseChecked rs info args use where
  count := by
    obtain ⟨info', -, hcount, ⟨hplain, -⟩ | ⟨t', htemplate, -⟩⟩ := elaborates_term linked h
    · exact (template.not_plain hplain).elim
    · rwa [(template.unique htemplate).1]
  elaborates i a n ha := by
    rintro ⟨type', path, hputs, hn⟩
    obtain ⟨n', hn', helaborates⟩ := node_of_puts linked h template ha hputs
    cases hn.symm.trans hn'
    rwa [elaborates_type helaborates]
  asDeclared_iff i hi := by
    have hnode {type' : TypeId} {path : List Nat}
        (hputs : t.body.Puts rs t.names info.ret i type' path) :
        ∃ n, t.HasArgument rs info i use n ∧ use.node? path = some n ∧ n.type = type' := by
      obtain ⟨n, hn, helaborates⟩ :=
        node_of_puts linked h template (List.getElem?_eq_getElem hi) hputs
      exact ⟨n, ⟨type', path, hputs, hn⟩, hn, elaborates_type helaborates⟩
    constructor
    · rintro ⟨⟨n, type', path, hputs, -⟩, hall⟩
      refine ⟨⟨type', path, hputs⟩, fun type' path hputs => ?_⟩
      obtain ⟨n, hargument, -, rfl⟩ := hnode hputs
      exact hall n hargument
    · rintro ⟨⟨type', path, hputs⟩, hall⟩
      obtain ⟨n, hargument, -, -⟩ := hnode hputs
      refine ⟨⟨n, hargument⟩, ?_⟩
      rintro n ⟨type', path, hputs, hn⟩
      obtain ⟨n', -, hn', rfl⟩ := hnode hputs
      cases hn.symm.trans hn'
      exact hall n.type path hputs

def AllHonoured (rs : RuleSet) : Prop :=
  ∀ {name info t}, rs.IsTemplateTerm name info t → ∀ i < info.args.length, t.Honours rs info i

def Admits (rs : RuleSet) (name : Bytes) (args : List Pattern) : Prop :=
  ∃ id info, rs.terms.find? name = some id ∧ rs.terms.get? id = some info ∧
    args.length = info.args.length ∧
    ∀ (i : Nat) a type, args[i]? = some a → info.args[i]? = some type → ∃ n, Elaborates rs a type n

theorem Admits.elaborates {name : Bytes} {args : List Pattern} (h : Admits rs name args) :
    ∀ a ∈ args, ∃ type n, Elaborates rs a type n := by
  intro a ha
  obtain ⟨id, info, -, -, hcount, hargs⟩ := h
  obtain ⟨i, hi⟩ := List.getElem?_of_mem ha
  have hlt : i < info.args.length := hcount ▸ (List.getElem?_eq_some_iff.mp hi).1
  exact ⟨_, hargs i a _ hi (List.getElem?_eq_getElem hlt)⟩

theorem admits_of_elaborates (linked : rs.Linked) (honoured : AllHonoured rs) {loc : Loc}
    {name : Bytes} {args : List Pattern} {type : TypeId} {use : CheckedPattern}
    (h : Elaborates rs (.term loc name args) type use) : Admits rs name args := by
  obtain ⟨info, -, hcount, hplain | ⟨t, htemplate, -⟩⟩ := elaborates_term linked h
  · obtain ⟨⟨⟨id, hid, hinfo⟩, -⟩, hargs⟩ := hplain
    refine ⟨id, info, hid, hinfo, hcount, fun i a type' ha htype' => ?_⟩
    obtain ⟨c, -, hc⟩ := hargs ha htype'
    exact ⟨c, hc⟩
  · obtain ⟨id, hid, hinfo⟩ := htemplate.found
    refine ⟨id, info, hid, hinfo, hcount, fun i a type' ha htype' => ?_⟩
    obtain ⟨⟨type, path, hputs⟩, hall⟩ :=
      honoured htemplate i (List.getElem?_eq_some_iff.mp htype').1
    cases htype'.symm.trans (hall type path hputs)
    obtain ⟨n, -, hn⟩ := node_of_puts linked h htemplate ha hputs
    exact ⟨n, hn⟩

mutual

theorem admits_of_uses (linked : rs.Linked) (honoured : AllHonoured rs) :
    ∀ (p : Pattern) {type : TypeId} {c : CheckedPattern}, Elaborates rs p type c →
      ∀ use ∈ p.uses, Admits rs use.1 use.2
  | .term loc name args, type, c, h, use, huse => by
      have hadmits := admits_of_elaborates linked honoured h
      rw [Pattern.uses] at huse
      rcases List.mem_cons.mp huse with rfl | huse
      · exact hadmits
      · exact admits_of_usesAll linked honoured args hadmits.elaborates use huse
  | .bind loc name sub, type, c, h, use, huse => by
      obtain ⟨c', -, hsub⟩ := elaborates_bind h
      exact admits_of_uses linked honoured sub hsub use huse
  | .all loc parts, type, c, h, use, huse => by
      refine admits_of_usesAll linked honoured parts (fun p hp => ?_) use huse
      obtain ⟨k, hk⟩ := List.getElem?_of_mem hp
      obtain ⟨c', -, hpart⟩ := elaborates_all h hk
      exact ⟨type, c', hpart⟩
  | .wildcard _, _, _, _, use, huse | .var _ _, _, _, _, use, huse
  | .int _ _, _, _, _, use, huse | .bool _ _, _, _, _, use, huse => by
      rw [Pattern.uses] at huse
      cases huse

theorem admits_of_usesAll (linked : rs.Linked) (honoured : AllHonoured rs) :
    ∀ (ps : List Pattern), (∀ p ∈ ps, ∃ type c, Elaborates rs p type c) →
      ∀ use ∈ Pattern.usesAll ps, Admits rs use.1 use.2
  | [], _, use, huse => by cases huse
  | p :: ps, h, use, huse => by
      obtain ⟨⟨type, c, hp⟩, hps⟩ := List.forall_mem_cons.mp h
      rw [Pattern.usesAll] at huse
      rcases List.mem_append.mp huse with huse | huse
      · exact admits_of_uses linked honoured p hp use huse
      · exact admits_of_usesAll linked honoured ps hps use huse

end

theorem elaborates_of_rootArgs {ps : List Pattern} {types : List TypeId}
    {cs : List CheckedPattern} {s s' : Scope} (hs : s.Valid)
    (h : rootArgs rs ps types s = ([], cs, s')) {k : Nat} {p : Pattern} {type : TypeId}
    (hp : ps[k]? = some p) (htype : types[k]? = some type) :
    ∃ c, cs[k]? = some c ∧ Elaborates rs p type c := by
  induction ps generalizing types cs s k with
  | nil => cases hp
  | cons q qs ih =>
    cases types with
    | nil => cases htype
    | cons type' types =>
      obtain ⟨c, t, cs', hq, hqs, rfl⟩ := rootArgs_cons_ok.mp h
      cases k with
      | zero =>
        cases hp
        cases htype
        exact ⟨c, rfl, rs.terms.size, [], s, t, hs, hq⟩
      | succ k => exact ih (pattern_extends hs hq).2.valid hqs hp htype

theorem elaborates_of_guards {gs : List Guard} {cs : List CheckedGuard} {s s' : Scope}
    (hs : s.Valid) (h : (guards rs gs).run s = .ok cs s') {k : Nat} {g : Guard}
    (hg : gs[k]? = some g) :
    ∃ c, cs[k]? = some c ∧ Elaborates rs g.pattern c.value.type c.pattern := by
  induction gs generalizing cs s k with
  | nil => cases hg
  | cons g' gs ih =>
    simp only [guards, run_bind_ok, run_pure_ok] at h
    obtain ⟨value, t, hvalue, pattern, u, hpattern, rest, w, hrest, rfl, rfl⟩ := h
    have ht := (expr_extends g'.value hs hvalue).2.valid
    cases k with
    | zero =>
      cases hg
      exact ⟨_, rfl, rs.terms.size, [], t, u, ht, hpattern⟩
    | succ k => exact ih (pattern_extends ht hpattern).2.valid hrest hg

end Check

inductive Rule.Checks (rs : RuleSet) (r : Rule) (c : CheckedRule) :
    Pattern → TypeId → CheckedPattern → Prop
  | argument {loc name args info} {k : Nat} {p type node} (root : r.pattern = .term loc name args)
      (entry : rs.terms.get? c.root = some info) (arg : args[k]? = some p)
      (declared : info.args[k]? = some type) (checked : c.args[k]? = some node) :
      Checks rs r c p type node
  | guard {k : Nat} {g cg} (guard : r.guards[k]? = some g) (checked : c.guards[k]? = some cg) :
      Checks rs r c g.pattern cg.value.type cg.pattern

namespace Check

variable {rs : RuleSet}

theorem rule_checks {r : Rule} {order : Nat} {c : CheckedRule} (h : rule rs r order = .ok c) :
    (∀ p ∈ r.patterns, ∃ type node, r.Checks rs c p type node) ∧
      ∀ p type node, r.Checks rs c p type node → Elaborates rs p type node := by
  obtain ⟨root, patterns, args, s, gs, t, result, u, hroot, hargs, hguards, hresult, rfl⟩ :=
    rule_ok.mp h
  obtain ⟨loc, name, info, hpattern, hid, hinfo, hcount, -, -⟩ := ruleRoot_ok hroot
  rw [RuleSet.termInfo_of_get? hinfo] at hargs
  have hs := (rootArgs_extend patterns Scope.valid_empty hcount hargs).2.valid
  constructor
  · intro p hp
    rw [Rule.patterns, hpattern, List.mem_append] at hp
    rcases hp with hp | hp
    · obtain ⟨k, hk⟩ := List.getElem?_of_mem hp
      have hlt : k < info.args.length := hcount ▸ (List.getElem?_eq_some_iff.mp hk).1
      have htype := List.getElem?_eq_getElem hlt
      obtain ⟨node, hnode, -⟩ := elaborates_of_rootArgs Scope.valid_empty hargs hk htype
      exact ⟨_, node, .argument hpattern hinfo hk htype hnode⟩
    · obtain ⟨g, hg, rfl⟩ := List.mem_map.mp hp
      obtain ⟨k, hk⟩ := List.getElem?_of_mem hg
      obtain ⟨cg, hcg, -⟩ := elaborates_of_guards hs hguards hk
      exact ⟨_, _, .guard hk hcg⟩
  · rintro p type node (⟨hpattern', hinfo', hp, htype, hnode⟩ | ⟨hg, hcg⟩)
    · cases hpattern.symm.trans hpattern'
      cases hinfo.symm.trans hinfo'
      obtain ⟨node', hnode', helaborates⟩ :=
        elaborates_of_rootArgs Scope.valid_empty hargs hp htype
      cases hnode.symm.trans hnode'
      exact helaborates
    · obtain ⟨cg', hcg', helaborates⟩ := elaborates_of_guards hs hguards hg
      cases hcg.symm.trans hcg'
      exact helaborates

end Check

namespace RuleSet

theorem exists_mem_of_forall₂ {α β : Type} {R : α → β → Prop} {as : List α} {bs : List β}
    (h : List.Forall₂ R as bs) : ∀ a ∈ as, ∃ b ∈ bs, R a b := by
  induction h with
  | nil => simp
  | cons hab _ ih =>
    intro a ha
    rcases List.mem_cons.mp ha with rfl | ha
    · exact ⟨_, List.mem_cons_self, hab⟩
    · obtain ⟨b, hb, hR⟩ := ih a ha
      exact ⟨b, List.mem_cons_of_mem _ hb, hR⟩

theorem rule_of_accepted {ds : List Definition} (accepted : (empty.analyze ds).2 = []) :
    ∀ r ∈ ds.filterMap Definition.rule?, ∃ order, ∃ c ∈ (empty.analyze ds).1.rules,
      Check.rule (empty.analyze ds).1 r order = .ok c := by
  obtain ⟨rs, cs, haccepted, hrs⟩ :=
    (analyze_accepted ds (empty.analyze ds).1).mp (Prod.ext rfl accepted)
  rw [← hrs]
  intro r hr
  obtain ⟨k, hk⟩ := List.getElem?_of_mem hr
  have hmem : (r, k) ∈ (ds.filterMap Definition.rule?).zipIdx :=
    List.mem_zipIdx_iff_getElem?.mpr hk
  obtain ⟨c, hc, hcheck⟩ := exists_mem_of_forall₂ haccepted.checked _ hmem
  exact ⟨k, c, by simpa using hc, (rs.checkRule_withRules _ r k).trans hcheck⟩

/-- In accepted definitions an argument of a term with a template is checked as its term declares
it exactly if the template honours the declaration, whatever the use is. Where all templates do,
patterns of rules have only defined terms, with arguments that the terms admit. -/
theorem analyze_arguments {ds : List Definition} (accepted : (empty.analyze ds).2 = []) :
    let rs := (empty.analyze ds).1
    ∀ r ∈ ds.filterMap Definition.rule?, ∃ c ∈ rs.rules,
      (∀ p ∈ r.patterns, ∃ type node, r.Checks rs c p type node) ∧
      (∀ p type node, r.Checks rs c p type node →
        ∀ loc name args type' path, p.Reaches rs type (.term loc name args) type' path →
          ∀ info t, rs.IsTemplateTerm name info t →
            ∃ use, node.node? path = some use ∧ t.UseChecked rs info args use) ∧
      (Check.AllHonoured rs → ∀ p ∈ r.patterns, ∀ use ∈ p.uses, Check.Admits rs use.1 use.2) := by
  intro rs r hr
  have linked : rs.Linked := afterAll_linked [ds]
  obtain ⟨order, c, hc, hcheck⟩ := rule_of_accepted accepted r hr
  obtain ⟨hpatterns, hchecks⟩ := Check.rule_checks hcheck
  refine ⟨c, hc, hpatterns, ?_, ?_⟩
  · intro p type node hp loc name args type' path hreaches info t template
    obtain ⟨use, huse, helaborates⟩ :=
      Check.elaborates_of_reaches linked hreaches (hchecks p type node hp)
    exact ⟨use, huse, Check.useChecked linked helaborates template⟩
  · intro honoured p hp
    obtain ⟨type, node, hnode⟩ := hpatterns p hp
    exact Check.admits_of_uses linked honoured p (hchecks p type node hnode)

end RuleSet

theorem Check.templated_analyze (defs : List Definition) :
    Templated (RuleSet.empty.analyze defs).1 (defs.filterMap Definition.template?) := by
  apply RuleSet.analyze_induction (P := (Templated · (defs.filterMap Definition.template?)))
  · intro id info index place hget
    cases hget
  · intro t ht s s' hs hs'
    exact hs.attempt (Job.askedBy_of_mem ht) hs'

theorem Check.isTemplateTerm_analyze (defs : List Definition) (t : Template)
    (only : ∀ t' ∈ defs.filterMap Definition.template?, t'.term.name = t.term.name → t' = t)
    {info : TermInfo}
    (found : ((RuleSet.empty.analyze defs).1.terms.find? t.term.name).bind
      (RuleSet.empty.analyze defs).1.terms.get? = some info)
    {index : Nat} {loc : Loc} (hextractor : info.extractor = .template index loc) :
    (RuleSet.empty.analyze defs).1.IsTemplateTerm t.term.name info t := by
  obtain ⟨id, hid, hinfo⟩ := Option.bind_eq_some_iff.mp found
  obtain ⟨info', hinfo', hname⟩ := Table.get?_of_find? hid
  cases hinfo.symm.trans hinfo'
  obtain ⟨t', ht', hindex, hname'⟩ :=
    templated_analyze defs id info index loc hinfo hextractor
  cases only t' ht' (hname'.trans hname)
  exact ⟨⟨id, hid, hinfo⟩, index, loc, hextractor, hindex⟩

namespace Definition

def passingTemplate : Template :=
  ⟨⟨[109], .unknown⟩, [⟨[97], .unknown⟩], .term .unknown [105] [.var .unknown [97]], .unknown⟩

def droppingTemplate : Template :=
  ⟨⟨[119], .unknown⟩, [⟨[97], .unknown⟩], .wildcard .unknown, .unknown⟩

def droppingUse : Pattern := .term .unknown [119] [.term .unknown [113] []]

def passingUse : Pattern := .term .unknown [109] [droppingUse]

def droppingRule : Rule where
  name := none
  priority := 0
  pattern := .term .unknown [103] [passingUse]
  guards := []
  result := .int .unknown ⟨false, 0⟩
  loc := .unknown

def droppingSample : List Definition :=
  let name (b : UInt8) : Ident := ⟨[b], .unknown⟩
  let u := name 117
  let decl (b : UInt8) : Definition := .decl ⟨name b, [u], u, false, false, .unknown⟩
  [.type ⟨u, false, false, .primitive u, .unknown⟩, decl 105, decl 109, decl 119, decl 103,
    .external ⟨.extractor false, name 105, name 105, .unknown⟩,
    .template passingTemplate, .template droppingTemplate, .rule droppingRule]

theorem template_droppingSample {t : Template}
    (ht : t ∈ droppingSample.filterMap Definition.template?) :
    t = passingTemplate ∨ t = droppingTemplate := by
  simpa [droppingSample, Definition.template?, eq_comm] using ht

end Definition

/-- The argument of `m` is checked as declared, and that of `w` is not: it has no node, and the
undeclared term is accepted there. -/
theorem RuleSet.analyze_arguments_droppingSample :
    let rs := (empty.analyze Definition.droppingSample).1
    let m : TermInfo := ⟨[109], [1], 1, false, false, .unknown, .missing, .template 0 .unknown⟩
    let w : TermInfo := ⟨[119], [1], 1, false, false, .unknown, .missing, .template 1 .unknown⟩
    (empty.analyze Definition.droppingSample).2 = [] ∧ rs.terms.find? [113] = none ∧
      ∃ c ∈ rs.rules, ∃ type node useM useW,
        Definition.droppingRule.Checks rs c Definition.passingUse type node ∧
        node.node? [] = some useM ∧ node.node? [0] = some useW ∧
        Definition.passingTemplate.ChecksAsDeclared rs m 0 useM ∧
        ¬∃ n, Definition.droppingTemplate.HasArgument rs w 0 useW n := by
  intro rs m w
  have accepted : (empty.analyze Definition.droppingSample).2 = [] := by decide +kernel
  have hm : rs.IsTemplateTerm [109] m Definition.passingTemplate := by
    refine Check.isTemplateTerm_analyze _ Definition.passingTemplate (fun t ht hname => ?_)
      (by decide +kernel) rfl
    obtain rfl | rfl := Definition.template_droppingSample ht
    · rfl
    · cases hname
  have hw : rs.IsTemplateTerm [119] w Definition.droppingTemplate := by
    refine Check.isTemplateTerm_analyze _ Definition.droppingTemplate (fun t ht hname => ?_)
      (by decide +kernel) rfl
    obtain rfl | rfl := Definition.template_droppingSample ht
    · cases hname
    · rfl
  have hi : rs.IsPlainTerm [105] ⟨[105], [1], 1, false, false, .unknown, .missing,
      .external [105] false .unknown⟩ :=
    ⟨⟨0, by decide +kernel, by decide +kernel⟩, fun _ _ => Extractor.noConfusion⟩
  obtain ⟨c, hc, hpatterns, huses, -⟩ :=
    analyze_arguments accepted Definition.droppingRule (List.mem_singleton.mpr rfl)
  obtain ⟨type, node, hnode⟩ := hpatterns Definition.passingUse List.mem_cons_self
  obtain ⟨useM, huseM, hcheckedM⟩ :=
    huses _ type node hnode _ _ _ _ _ (.here _ _) m Definition.passingTemplate hm
  have hreaches : Definition.passingUse.Reaches rs type Definition.droppingUse 1 [0] :=
    .expansion hm (.argument (k := 0) hi rfl rfl (.here _ _))
  obtain ⟨useW, huseW, -⟩ :=
    huses _ type node hnode _ _ _ _ _ hreaches w Definition.droppingTemplate hw
  refine ⟨accepted, by decide +kernel, c, hc, type, node, useM, useW, hnode, huseM, huseW, ?_, ?_⟩
  · refine (hcheckedM.asDeclared_iff 0 (by decide)).mpr
      ⟨⟨1, [0], .argument (k := 0) hi rfl rfl (.var rfl)⟩, ?_⟩
    rintro type path hputs
    cases hputs with
    | @argument _ _ _ _ _ k _ _ _ _ _ _ plain arg declared h =>
      cases entry_unique plain.found hi.found
      cases k with
      | zero =>
        cases arg
        cases declared
        cases h
        rfl
      | succ k => cases arg
    | expansion template => exact (template.not_plain hi).elim
  · rintro ⟨n, type, path, hputs, -⟩
    cases hputs

end TermRules

import TermRules.Proofs.EmittedNames
import TermRules.Zig.Module

/-!
# Uses of calls

A value that is written is read, unwrapped or negated. What a module declares
decides which uses of a call it answers, and what is known of terms decides which
uses fit.
-/

namespace TermRules

namespace Zig

/-- What is done with a value where it is written: an unwrapped one leaves the block if it is null,
a negated one is a test. -/
inductive Use
  | read
  | unwrapped
  | negated
deriving DecidableEq, Repr

mutual

def Value.parts : Value → List Value
  | .payload base _ _ | .component base _ => base :: base.parts
  | .variant _ args | .construct _ args | .contextBuild _ args => partsAll args
  | .contextMatch _ arg => arg :: arg.parts
  | _ => []

def Value.partsAll : List Value → List Value
  | [] => []
  | v :: vs => v :: (v.parts ++ partsAll vs)

end

/-- The values that are written for a value, each with its use. -/
def Value.uses (use : Use) (v : Value) : List (Use × Value) :=
  (use, v) :: v.parts.map fun w => (.read, w)

def Condition.uses : Condition → List (Use × Value)
  | .differ a b | .differDeeply a b => a.uses .read ++ b.uses .read
  | .otherTag v _ | .isTrue v => v.uses .read
  | .isFalse v => v.uses .negated

def Statement.uses : Statement → List (Use × Value)
  | .const _ _ v orBreak => v.uses (if orBreak then .unwrapped else .read)
  | .breakIf condition => condition.uses
  | .discard v | .ret v => v.uses .read

def Statement.valueOf? (temp : Nat) : Statement → Option Value
  | .const i _ v _ => if i = temp then some v else none
  | _ => none

namespace Block

def uses (b : Block) : List (Use × Value) := b.body.flatMap Statement.uses

def valuesOf (b : Block) (temp : Nat) : List Value := b.body.filterMap (Statement.valueOf? temp)

end Block

namespace Setting

variable (s : Setting)

def headText (name : Bytes) (params : List TypeId) (result : Bytes) : Bytes :=
  lineText "" (ascii "pub fn " ++ name ++ ascii "(ctx: anytype" ++
    (params.mapIdx s.paramText).flatten ++ ascii ") " ++ result ++ ascii " \x7b")

def methodText (name : Bytes) (params : List TypeId) (result : Bytes) : Bytes :=
  callText (ascii "ctx." ++ name) (params.map s.typeName) ++ ascii " " ++ result

def structText (types : List TypeId) : Bytes :=
  ascii "struct \x7b " ++ commaSeparated (types.map s.typeName) ++ ascii " \x7d"

def bodyText (f : Function) : Bytes :=
  let term := s.ruleSet.termInfo f.term
  (f.headDiscards term.args.length).flatMap
      (fun z => lineText "    " (discardText z.text)) ++
    f.blocks.flatMap s.blockText ++
    (if f.fallsThrough then lineText "    " (fallThroughText term) else []) ++
    lineText "" (ascii "\x7d")

/-- The term has a function in the module, written with this result: between the parameters and
the body stands nothing else. -/
def Defines (term : TermId) (result : Bytes) : Prop :=
  ∃ f ∈ s.functions, f.term = term ∧
    s.functionText f =
      s.headText (s.constructorName term) (s.ruleSet.termInfo term).args result ++ s.bodyText f

/-- The term is built by a method of the context, with this result. -/
def RequiresBuild (term : TermId) (result : Bytes) : Prop :=
  let info := s.ruleSet.termInfo term
  s.buildEntry? info = some (s.methodText (s.buildMethod term) info.args result) ∧
    s.methodText (s.buildMethod term) info.args result ∈ s.contextEntries

/-- The term is matched by a method of the context, with this result. -/
def RequiresMatch (term : TermId) (result : Bytes) : Prop :=
  let info := s.ruleSet.termInfo term
  s.matchEntry? info = some (s.methodText (s.matchMethod term) [info.ret] result) ∧
    s.methodText (s.matchMethod term) [info.ret] result ∈ s.contextEntries

/-- A use of a value in a block agrees with what is declared. -/
def Answers (b : Block) (use : Use) : Value → Prop
  | .construct term args =>
      let info := s.ruleSet.termInfo term
      ∃ result, s.Defines term result ∧ args.length = info.args.length ∧
        (use = .unwrapped ↔ result = ascii "?" ++ s.typeName info.ret)
  | .contextBuild term args =>
      let info := s.ruleSet.termInfo term
      ∃ result, s.RequiresBuild term result ∧ args.length = info.args.length ∧
        (use = .unwrapped ↔ result = ascii "?" ++ s.typeName info.ret) ∧
        (use = .negated → result = ascii "bool")
  | .contextMatch term _ =>
      let info := s.ruleSet.termInfo term
      ∃ result, s.RequiresMatch term result ∧
        (use = .unwrapped ↔ result = ascii "?" ++ s.resultsText info) ∧
        (use = .negated → result = ascii "bool")
  | .component base i =>
      ∃ temp term arg result, base = .temp temp ∧ b.valuesOf temp = [.contextMatch term arg] ∧
        s.RequiresMatch term result ∧
        let types := (s.ruleSet.termInfo term).args
        (result = s.structText types ∨ result = ascii "?" ++ s.structText types) ∧
          i < types.length
  | _ => True

end Setting

theorem Value.mem_partsAll {w : Value} {vs : List Value} :
    w ∈ partsAll vs ↔ ∃ v ∈ vs, w = v ∨ w ∈ v.parts := by
  induction vs with
  | nil => simp [partsAll]
  | cons v vs ih => simp [partsAll, ih, or_assoc]

section Fits

variable (rs : RuleSet)

def Value.Fits (body : List Statement) (use : Use) : Value → Prop
  | .construct term args =>
      ∃ info, rs.terms.get? term = some info ∧ (∃ loc, info.constructor = .internal loc) ∧
        args.length = info.args.length ∧ (use = .unwrapped ↔ info.isPartial = true)
  | .contextBuild term args =>
      ∃ info, rs.terms.get? term = some info ∧
        (∃ function loc, info.constructor = .external function loc) ∧
        args.length = info.args.length ∧ (use = .unwrapped ↔ info.isPartial = true) ∧
        (use = .negated → info.ret = boolType)
  | .contextMatch term _ =>
      ∃ info function infallible loc, rs.terms.get? term = some info ∧
        info.extractor = .external function infallible loc ∧
        (use = .unwrapped ↔ infallible = false ∧ info.args ≠ []) ∧
        (use = .negated → info.args = [])
  | .component base i =>
      ∃ temp type term arg orBreak info, base = .temp temp ∧
        .const temp type (.contextMatch term arg) orBreak ∈ body ∧
        rs.terms.get? term = some info ∧
        (∃ function infallible loc, info.extractor = .external function infallible loc) ∧
        info.args.length ≠ 1 ∧ i < info.args.length
  | _ => True

def Fit (body : List Statement) (uses : List (Use × Value)) : Prop :=
  ∀ o ∈ uses, o.2.Fits rs body o.1

variable {rs} {body body' : List Statement} {use : Use} {v : Value}

theorem Value.Fits.mono (h : v.Fits rs body use) (hsub : body ⊆ body') : v.Fits rs body' use := by
  cases v with
  | component base i =>
    obtain ⟨temp, type, term, arg, orBreak, info, hbase, hmem, hinfo⟩ := h
    exact ⟨temp, type, term, arg, orBreak, info, hbase, hsub hmem, hinfo⟩
  | _ => exact h

theorem Fit.mono {uses : List (Use × Value)} (h : Fit rs body uses) (hsub : body ⊆ body') :
    Fit rs body' uses := fun o ho => (h o ho).mono hsub

theorem fit_append {us ws : List (Use × Value)} :
    Fit rs body (us ++ ws) ↔ Fit rs body us ∧ Fit rs body ws := List.forall_mem_append

theorem fit_uses :
    Fit rs body (v.uses use) ↔ v.Fits rs body use ∧ ∀ w ∈ v.parts, w.Fits rs body .read := by
  rw [Fit, Value.uses, List.forall_mem_cons, List.forall_mem_map]

theorem fit_leaf (hfits : v.Fits rs body use) (hparts : v.parts = []) :
    Fit rs body (v.uses use) := by
  rw [fit_uses, hparts]
  exact ⟨hfits, fun w hw => by cases hw⟩

theorem fit_partsAll {args : List Value} :
    (∀ w ∈ Value.partsAll args, w.Fits rs body .read) ↔
      ∀ v ∈ args, Fit rs body (v.uses .read) := by
  simp only [fit_uses, Value.mem_partsAll]
  constructor
  · intro h v hv
    exact ⟨h v ⟨v, hv, .inl rfl⟩, fun w hw => h w ⟨v, hv, .inr hw⟩⟩
  · rintro h w ⟨v, hv, rfl | hw⟩
    · exact (h w hv).1
    · exact (h v hv).2 w hw

end Fits

end Zig

end TermRules

import Mathlib.Data.List.Count
import TermRules.Proofs.Drafts
import TermRules.Zig.Text

/-!
# Names in emitted code

A statement reads the names that are written in it, and discards or declares
some. A draft is tidy if just those of its names are marked that its statements
read or that are still to be written. Every step that builds a draft keeps it so.
-/

namespace TermRules.Zig

inductive Binder
  | context
  | param (index : Nat)
  | temp (index : Nat)
deriving DecidableEq, Repr

def Binder.text : Binder → Bytes
  | .context => ascii "ctx"
  | .param i => paramName i
  | .temp i => tempName i

def Root.binder : Root → Binder
  | .param i => .param i
  | .temp i => .temp i

mutual

def Value.names : Value → List Binder
  | .param i => [.param i]
  | .temp i => [.temp i]
  | .payload base _ _ => base.names
  | .component base _ => base.names
  | .variant _ args => namesAll args
  | .construct _ args | .contextBuild _ args => .context :: namesAll args
  | .contextMatch _ arg => .context :: arg.names
  | _ => []

def Value.namesAll : List Value → List Binder
  | [] => []
  | v :: vs => v.names ++ namesAll vs

end

def Value.inner (v : Value) : List Binder := if v.root?.isSome then [] else v.names

def Condition.names : Condition → List Binder
  | .differ a b | .differDeeply a b => a.names ++ b.names
  | .otherTag v _ | .isTrue v | .isFalse v => v.names

def Statement.discarded? : Statement → Option Binder
  | .discard (.param i) => some (.param i)
  | .discard (.temp i) => some (.temp i)
  | _ => none

/-- The names that a statement reads; to discard a name is not to read it. -/
def Statement.reads : Statement → List Binder
  | .const _ _ v _ => v.names
  | .breakIf condition => condition.names
  | .discard v => if (Statement.discard v).discarded?.isSome then [] else v.names
  | .ret v => v.names

def Statement.declared? : Statement → Option Nat
  | .const temp _ _ _ => some temp
  | _ => none

namespace Block

def reads (b : Block) : List Binder := b.body.flatMap Statement.reads

def discards (b : Block) : List Binder := b.body.filterMap Statement.discarded?

def declared (b : Block) : List Nat := b.body.filterMap Statement.declared?

end Block

namespace Function

variable (f : Function)

def reads : List Binder := f.blocks.flatMap Block.reads

def headDiscards (arity : Nat) : List Binder :=
  (if f.usesContext then [] else [.context]) ++
    ((List.range arity).filter (· ∉ f.usedParams)).map .param

def discards (arity : Nat) : List Binder := f.headDiscards arity ++ f.blocks.flatMap Block.discards

end Function

theorem functionText_eq (s : Setting) (f : Function) :
    s.functionText f =
      (let term := s.ruleSet.termInfo f.term
      Setting.lineText "" (ascii "pub fn " ++ s.constructorName f.term ++ ascii "(ctx: anytype" ++
        (term.args.mapIdx s.paramText).flatten ++ ascii ") " ++ s.returnTypeText term ++
          ascii " \x7b") ++
      (f.headDiscards term.args.length).flatMap
        (fun z => Setting.lineText "    " (Setting.discardText z.text)) ++
      f.blocks.flatMap s.blockText ++
      (if f.fallsThrough then Setting.lineText "    " (Setting.fallThroughText term) else []) ++
      Setting.lineText "" (ascii "\x7d")) := by
  have hhead : ∀ arity, (f.headDiscards arity).flatMap
      (fun z => Setting.lineText "    " (Setting.discardText z.text)) =
      (if f.usesContext then [] else Setting.lineText "    " (Setting.discardText (ascii "ctx"))) ++
        ((List.range arity).filter (· ∉ f.usedParams)).flatMap
          (fun i => Setting.lineText "    " (Setting.discardText (paramName i))) := by
    intro arity
    rw [Function.headDiscards, List.flatMap_append, List.flatMap_map]
    cases f.usesContext <;> simp [Binder.text]
  simp only [Setting.functionText, hhead, List.append_assoc]

theorem Value.names_of_root : ∀ {v : Value} {r : Root}, v.root? = some r → v.names = [r.binder]
  | .param _, _, rfl => rfl
  | .temp _, _, rfl => rfl
  | .payload base _ _, _, h => names_of_root (v := base) h
  | .component base _, _, h => names_of_root (v := base) h

theorem Value.mem_names {v : Value} {z : Binder} :
    z ∈ v.names ↔ v.root?.map Root.binder = some z ∨ z ∈ v.inner := by
  unfold inner
  cases h : v.root? with
  | none => simp
  | some r =>
    rw [names_of_root h]
    simp [eq_comm]

theorem Value.inner_subset {v : Value} {z : Binder} (h : z ∈ v.inner) : z ∈ v.names :=
  mem_names.mpr (.inr h)

theorem Value.inner_of_root_none {v : Value} (h : v.root? = none) : v.inner = v.names := by
  rw [inner, h]
  rfl

namespace Draft

def Marked (d : Draft) : Binder → Prop
  | .context => d.usesContext = true
  | .param i => i ∈ d.usedParams
  | .temp i => i ∈ d.usedTemps

def reads (d : Draft) : List Binder := d.body.flatMap Statement.reads

structure Later (d d' : Draft) : Prop where
  marked : ∀ {z}, d.Marked z → d'.Marked z
  locals : ∀ {i}, i ∈ d.locals → i ∈ d'.locals

structure Knows (d : Draft) (v : Value) : Prop where
  inner : ∀ {z}, z ∈ v.inner → d.Marked z
  temps : ∀ {i}, .temp i ∈ v.names → i ∈ d.locals

/-- A draft whose locals are numbered from `first` on. Marked are just the names that were marked
before, the pending ones and those that the statements read. -/
structure Tidy (first : Nat) (before : Binder → Prop) (pending : List Binder) (d : Draft) :
    Prop where
  marked : ∀ z, d.Marked z ↔ before z ∨ z ∈ pending ∨ z ∈ d.reads
  vars : ∀ p ∈ d.vars, d.Knows p.2
  temps : ∀ {i}, .temp i ∈ d.reads → i ∈ d.locals
  locals : d.locals = List.range' first d.locals.length
  nextTemp : d.nextTemp = first + d.locals.length
  declared : d.body.filterMap Statement.declared? = d.locals
  discards : d.body.filterMap Statement.discarded? = []

variable {d d' d'' : Draft} {v : Value}

theorem Later.refl (d : Draft) : d.Later d := ⟨fun h => h, fun h => h⟩

theorem Later.trans (h : d.Later d') (h' : d'.Later d'') : d.Later d'' :=
  ⟨fun hz => h'.marked (h.marked hz), fun hi => h'.locals (h.locals hi)⟩

theorem Knows.later (h : d.Knows v) (hl : d.Later d') : d'.Knows v :=
  ⟨fun hz => hl.marked (h.inner hz), fun hi => hl.locals (h.temps hi)⟩

theorem marked_mark (d : Draft) (v : Value) (z : Binder) :
    (d.mark v).Marked z ↔ v.root?.map Root.binder = some z ∨ d.Marked z := by
  unfold mark
  cases v.root? with
  | none => simp
  | some r =>
    cases r with
    | param j =>
      cases z with
      | param i => simpa [Marked, Root.binder] using or_congr_left eq_comm
      | _ => simp [Marked, Root.binder]
    | temp j =>
      cases z with
      | temp i => simpa [Marked, Root.binder] using or_congr_left eq_comm
      | _ => simp [Marked, Root.binder]

theorem marked_markContext (d : Draft) (z : Binder) :
    d.markContext.Marked z ↔ z = .context ∨ d.Marked z := by
  cases z with
  | context => exact ⟨fun _ => .inl rfl, fun _ => rfl⟩
  | param i => exact ⟨.inr, fun h => h.resolve_left (by simp)⟩
  | temp i => exact ⟨.inr, fun h => h.resolve_left (by simp)⟩

theorem later_mark (d : Draft) (v : Value) : d.Later (d.mark v) :=
  ⟨fun hz => (marked_mark d v _).mpr (.inr hz), fun hi => by rwa [mark_locals]⟩

theorem later_markContext (d : Draft) : d.Later d.markContext :=
  ⟨fun hz => (marked_markContext d _).mpr (.inr hz), fun hi => hi⟩

theorem marked_congr (hc : d'.usesContext = d.usesContext) (hp : d'.usedParams = d.usedParams)
    (ht : d'.usedTemps = d.usedTemps) (z : Binder) : d'.Marked z ↔ d.Marked z := by
  cases z <;> simp only [Marked, hc, hp, ht]

theorem marked_emit (d : Draft) (t : Statement) (z : Binder) :
    (d.emit t).Marked z ↔ d.Marked z := marked_congr rfl rfl rfl z

theorem marked_setVar (d : Draft) (x : VarId) (v : Value) (z : Binder) :
    (d.setVar x v).Marked z ↔ d.Marked z := marked_congr rfl rfl rfl z

theorem marked_keep (d : Draft) (type : Option TypeId) (v : Value) (orBreak : Bool) (z : Binder) :
    (d.keep type v orBreak).Marked z ↔ d.Marked z := marked_congr rfl rfl rfl z

theorem later_emit (d : Draft) (t : Statement) : d.Later (d.emit t) :=
  ⟨fun hz => (marked_emit d t _).mpr hz, fun hi => hi⟩

theorem later_setVar (d : Draft) (x : VarId) (v : Value) : d.Later (d.setVar x v) :=
  ⟨fun hz => (marked_setVar d x v _).mpr hz, fun hi => hi⟩

theorem later_keep (d : Draft) (type : Option TypeId) (v : Value) (orBreak : Bool) :
    d.Later (d.keep type v orBreak) :=
  ⟨fun hz => (marked_keep d type v orBreak _).mpr hz, fun hi => List.mem_append_left _ hi⟩

variable {first : Nat} {before : Binder → Prop} {xs ys : List Binder}

theorem Tidy.pending (h : d.Tidy first before xs)
    (hxy : ∀ z, z ∈ ys ∨ before z ∨ z ∈ d.reads ↔ z ∈ xs ∨ before z ∨ z ∈ d.reads) :
    d.Tidy first before ys where
  marked z := by
    rw [h.marked, or_left_comm, ← hxy z, or_left_comm]
  vars := h.vars
  temps := h.temps
  locals := h.locals
  nextTemp := h.nextTemp
  declared := h.declared
  discards := h.discards

theorem Tidy.mark (h : d.Tidy first before xs) (hv : d.Knows v) :
    (d.mark v).Tidy first before (xs ++ v.names) where
  marked z := by
    have hreads : (d.mark v).reads = d.reads := by rw [reads, mark_body, reads]
    rw [marked_mark, hreads, h.marked, List.mem_append, Value.mem_names]
    constructor
    · tauto
    · rintro (hz | (hz | hz | hz) | hz)
      · tauto
      · tauto
      · tauto
      · exact .inr ((h.marked z).mp (hv.inner hz))
      · tauto
  vars p hp := by
    rw [mark_vars] at hp
    exact (h.vars p hp).later (later_mark d v)
  temps hi := by
    rw [reads, mark_body] at hi
    rw [mark_locals]
    exact h.temps hi
  locals := by
    rw [mark_locals]
    exact h.locals
  nextTemp := by
    rw [mark_locals, mark_nextTemp]
    exact h.nextTemp
  declared := by
    rw [mark_locals, mark_body]
    exact h.declared
  discards := by
    rw [mark_body]
    exact h.discards

theorem Tidy.markContext (h : d.Tidy first before xs) :
    d.markContext.Tidy first before (.context :: xs) where
  marked z := by
    rw [marked_markContext, h.marked, List.mem_cons]
    change _ ↔ before z ∨ _ ∨ z ∈ d.reads
    tauto
  vars p hp := (h.vars p hp).later (later_markContext d)
  temps := h.temps
  locals := h.locals
  nextTemp := h.nextTemp
  declared := h.declared
  discards := h.discards

theorem reads_emit (d : Draft) (t : Statement) : (d.emit t).reads = d.reads ++ t.reads := by
  simp [reads]

theorem Tidy.emit {t : Statement} (h : d.Tidy first before (xs ++ t.reads))
    (htemps : ∀ {i}, .temp i ∈ t.reads → i ∈ d.locals) (hdeclared : t.declared? = none)
    (hdiscarded : t.discarded? = none) : (d.emit t).Tidy first before xs where
  marked z := by
    rw [marked_emit, h.marked, reads_emit, List.mem_append, List.mem_append]
    tauto
  vars p hp := (h.vars p hp).later (later_emit d t)
  temps hi := by
    rw [reads_emit, List.mem_append] at hi
    exact hi.elim h.temps htemps
  locals := h.locals
  nextTemp := h.nextTemp
  declared := by
    rw [emit_body, List.filterMap_append, h.declared]
    simp [hdeclared]
  discards := by
    rw [emit_body, List.filterMap_append, h.discards]
    simp [hdiscarded]

theorem Tidy.keep {type : Option TypeId} {orBreak : Bool}
    (h : d.Tidy first before (xs ++ v.names))
    (htemps : ∀ {i}, .temp i ∈ v.names → i ∈ d.locals) :
    (d.keep type v orBreak).Tidy first before xs where
  marked z := by
    have hreads : (d.keep type v orBreak).reads = d.reads ++ v.names :=
      reads_emit d (.const d.nextTemp type v orBreak)
    rw [marked_keep, h.marked, hreads, List.mem_append, List.mem_append]
    tauto
  vars p hp := (h.vars p hp).later (later_keep d type v orBreak)
  temps {i} hi := by
    have hreads : (d.keep type v orBreak).reads = d.reads ++ v.names :=
      reads_emit d (.const d.nextTemp type v orBreak)
    rw [hreads, List.mem_append] at hi
    exact List.mem_append_left _ (hi.elim h.temps htemps)
  locals := by
    rw [keep_locals, List.length_append, List.length_singleton, List.range'_concat, ← h.locals,
      h.nextTemp, Nat.one_mul]
  nextTemp := by
    rw [keep_locals, keep_nextTemp, List.length_append, List.length_singleton, h.nextTemp,
      Nat.add_assoc]
  declared := by
    rw [keep_body, List.filterMap_append, h.declared]
    rfl
  discards := by
    rw [keep_body, List.filterMap_append, h.discards]
    rfl

theorem Tidy.setVar (h : d.Tidy first before xs) (x : VarId) (hv : d.Knows v) :
    (d.setVar x v).Tidy first before xs where
  marked z := by
    rw [marked_setVar]
    exact h.marked z
  vars p hp := by
    refine Knows.later ?_ (later_setVar d x v)
    rw [setVar_vars, List.mem_cons] at hp
    rcases hp with rfl | hp
    · exact hv
    · exact h.vars p hp
  temps := h.temps
  locals := h.locals
  nextTemp := h.nextTemp
  declared := h.declared
  discards := h.discards

theorem Tidy.getVar (h : d.Tidy first before xs) (x : VarId) : d.Knows (d.getVar x) := by
  unfold Draft.getVar
  cases hx : d.vars.lookup x with
  | none => exact ⟨fun hz => (by cases hz), fun hi => (by cases hi)⟩
  | some v =>
    obtain ⟨l, r, hvars, -⟩ := List.lookup_eq_some_iff.mp hx
    refine h.vars (x, v) ?_
    rw [hvars]
    simp

theorem knows_temp {i : Nat} (h : i ∈ d.locals) : d.Knows (.temp i) :=
  ⟨fun hz => (by cases hz), fun hi => by
    rw [Value.names, List.mem_singleton, Binder.temp.injEq] at hi
    rwa [hi]⟩

end Draft

end TermRules.Zig

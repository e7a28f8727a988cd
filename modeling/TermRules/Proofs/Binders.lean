import TermRules.Proofs.CallSites
import TermRules.Proofs.Runs
import TermRules.Proofs.TidyLowering

/-!
# Use of declared names

A generated function declares its context, its parameters and its locals, and
discards the names that are not marked as used. A name is marked when it goes
into a value. It is read when the value is written, and the values of guards
need not be written. These values account for every difference between marks and
reads.
-/

namespace TermRules.Zig

namespace Lower

variable (rs : RuleSet) {first : Nat} {before : Binder → Prop}

structure BlockUse (d d' : Draft) (b : Block) (names : List Binder) : Prop where
  marked : ∀ z, d'.Marked z ↔ d.Marked z ∨ z ∈ names ∨ z ∈ b.reads
  declared : b.declared = List.range' d.nextTemp b.declared.length
  nextTemp : d'.nextTemp = d.nextTemp + b.declared.length
  temps : ∀ {i}, .temp i ∈ names ∨ .temp i ∈ b.reads → i ∈ b.declared
  discards : b.discards = (b.declared.filter (· ∉ d'.usedTemps)).map .temp

theorem discards_reads (d : Draft) : d.discards.flatMap Statement.reads = [] := by
  rw [List.flatMap_eq_nil_iff]
  intro t ht
  obtain ⟨i, -, rfl⟩ := List.mem_map.mp ht
  rfl

theorem discards_declared (d : Draft) : d.discards.filterMap Statement.declared? = [] := by
  rw [List.filterMap_eq_nil_iff]
  intro t ht
  obtain ⟨i, -, rfl⟩ := List.mem_map.mp ht
  rfl

theorem discards_discarded (d : Draft) :
    d.discards.filterMap Statement.discarded? =
      (d.locals.filter (· ∉ d.usedTemps)).map .temp := by
  rw [Draft.discards, List.filterMap_map, ← List.filterMap_eq_map]
  rfl

theorem body_block (r : CheckedRule) (index : Nat) (d : Draft) :
    ((block rs index r).run d).1.body =
      (ruleDraft rs r d.restart).body ++ (ruleDraft rs r d.restart).discards ++
        [.ret ((ruleValue rs r).run d.restart).1] := by
  rw [run_block, run_rule]

theorem reads_block (r : CheckedRule) (index : Nat) (d : Draft) :
    ((block rs index r).run d).1.reads =
      (ruleDraft rs r d.restart).reads ++ ((ruleValue rs r).run d.restart).1.names := by
  rw [Block.reads, body_block, List.flatMap_append, List.flatMap_append, discards_reads,
    List.append_nil]
  simp [Draft.reads, Statement.reads]

theorem declared_block (r : CheckedRule) (index : Nat) (d : Draft) :
    ((block rs index r).run d).1.declared =
      (ruleDraft rs r d.restart).body.filterMap Statement.declared? := by
  rw [Block.declared, body_block, List.filterMap_append, List.filterMap_append,
    discards_declared]
  simp [Statement.declared?]

theorem discards_block (r : CheckedRule) (index : Nat) (d : Draft) :
    ((block rs index r).run d).1.discards =
      (ruleDraft rs r d.restart).body.filterMap Statement.discarded? ++
        ((ruleDraft rs r d.restart).locals.filter
          (· ∉ (ruleDraft rs r d.restart).usedTemps)).map .temp := by
  rw [Block.discards, body_block, List.filterMap_append, List.filterMap_append,
    discards_discarded]
  simp [Statement.discarded?]

theorem tidy_restart (d : Draft) : d.restart.Tidy d.nextTemp d.Marked [] := by
  refine ⟨fun z => ?_, fun p hp => ?_, fun hi => ?_, rfl, rfl, rfl, rfl⟩
  · have hmark : d.restart.Marked z ↔ d.Marked z := Draft.marked_congr rfl rfl rfl z
    rw [hmark]
    simp [Draft.reads, Draft.restart]
  · cases hp
  · cases hi

theorem blockUse_block (r : CheckedRule) (index : Nat) (d : Draft) :
    BlockUse d ((block rs index r).run d).2 ((block rs index r).run d).1
      (ruleNames rs r d.restart) := by
  -- Marks of earlier blocks stay, while the locals begin anew.
  obtain ⟨hvalue, htemps⟩ := yields_ruleValue rs r (tidy_restart d)
  have hmarked : (ruleDraft rs r d.restart).Tidy d.nextTemp d.Marked
      (ruleNames rs r d.restart ++ ((ruleValue rs r).run d.restart).1.names) := hvalue.mark
  have hlocals : (ruleDraft rs r d.restart).locals =
      ((ruleValue rs r).run d.restart).2.locals := Draft.mark_locals _ _
  have hrun : ((block rs index r).run d).2 = _ := run_rule rs r d.restart
  have hmarks : ∀ z, ((block rs index r).run d).2.Marked z ↔
      (ruleDraft rs r d.restart).Marked z := by
    rw [hrun]
    exact Draft.marked_congr rfl rfl rfl
  have hdeclared : ((block rs index r).run d).1.declared = (ruleDraft rs r d.restart).locals := by
    rw [declared_block, hmarked.declared]
  refine ⟨fun z => ?_, ?_, ?_, fun {i} hi => ?_, ?_⟩
  · rw [hmarks, hmarked.marked, reads_block, List.mem_append, List.mem_append]
    tauto
  · rw [hdeclared]
    exact hmarked.locals
  · rw [hdeclared, hrun]
    exact hmarked.nextTemp
  · rw [hdeclared]
    rw [reads_block, List.mem_append] at hi
    rcases hi with hi | hi | hi
    · rw [hlocals]
      exact htemps hi
    · exact hmarked.temps hi
    · rw [hlocals]
      exact hvalue.2.2.temps hi
  · rw [hdeclared, discards_block, hmarked.discards, hrun]
    rfl

theorem BlockUse.count_discards {d d' : Draft} {b : Block} {names : List Binder}
    (h : BlockUse d d' b names) (hd : ∀ {i}, d.Marked (.temp i) → i < d.nextTemp) {i : Nat}
    (hi : i ∈ b.declared) :
    b.discards.count (.temp i) = if .temp i ∈ names ∨ .temp i ∈ b.reads then 0 else 1 := by
  have hnodup : b.declared.Nodup := by
    rw [h.declared]
    exact List.nodup_range'
  -- The numbers of locals go on from block to block, so no earlier block has marked this one.
  have hnew : ¬d.Marked (.temp i) := by
    intro hmarked
    have hlt := hd hmarked
    rw [h.declared, List.mem_range'_1] at hi
    omega
  have hused : i ∈ d'.usedTemps ↔ .temp i ∈ names ∨ .temp i ∈ b.reads := by
    have hmarked := h.marked (.temp i)
    rw [or_iff_right hnew] at hmarked
    exact hmarked
  rw [h.discards, List.count_map_of_injective _ _ (fun a b hab => Binder.temp.inj hab)]
  by_cases hmem : i ∈ d'.usedTemps
  · rw [if_pos (hused.mp hmem), List.count_eq_zero]
    simp [hmem]
  · rw [if_neg fun h => hmem (hused.mpr h)]
    rw [List.Nodup.count (hnodup.filter _), if_pos]
    simp [hi, hmem]

theorem BlockUse.bounded {d d' : Draft} {b : Block} {names : List Binder}
    (h : BlockUse d d' b names) (hd : ∀ {i}, d.Marked (.temp i) → i < d.nextTemp) {i : Nat}
    (hi : d'.Marked (.temp i)) : i < d'.nextTemp := by
  rw [h.nextTemp]
  rcases (h.marked _).mp hi with hi | hi
  · have hlt := hd hi
    omega
  · have hmem := h.temps hi
    rw [h.declared, List.mem_range'_1] at hmem
    exact hmem.2

def guardedBlocks : Nat → List CheckedRule → Draft → List (Block × List Binder)
  | _, [], _ => []
  | index, r :: rest, d =>
      let first := (block rs index r).run d
      (first.1, ruleNames rs r d.restart) ::
        if first.1.breaks then guardedBlocks (index + 1) rest first.2 else []

theorem guardedBlocks_fst (rules : List CheckedRule) (index : Nat) (d : Draft) :
    (guardedBlocks rs index rules d).map Prod.fst = ((blocks rs index rules).run d).1.1 := by
  induction rules generalizing index d with
  | nil => rfl
  | cons r rules ih =>
    rw [guardedBlocks, blocks, run_bind, List.map_cons]
    split_ifs
    · rw [run_bind, ih]
      rfl
    · rfl

structure BlocksUse (d d' : Draft) (guarded : List (Block × List Binder)) : Prop where
  marked : ∀ z, d'.Marked z ↔ d.Marked z ∨ ∃ p ∈ guarded, z ∈ p.2 ∨ z ∈ p.1.reads
  counts : ∀ p ∈ guarded, ∀ i ∈ p.1.declared,
    p.1.discards.count (.temp i) = if .temp i ∈ p.2 ∨ .temp i ∈ p.1.reads then 0 else 1
  temps : ∀ p ∈ guarded, ∀ z ∈ p.1.discards, ∃ i, z = .temp i

theorem BlocksUse.cons {d d' d'' : Draft} {b : Block} {names : List Binder}
    {guarded : List (Block × List Binder)} (hb : BlockUse d d' b names)
    (hd : ∀ {i}, d.Marked (.temp i) → i < d.nextTemp) (h : BlocksUse d' d'' guarded) :
    BlocksUse d d'' ((b, names) :: guarded) where
  marked z := by
    rw [h.marked, hb.marked]
    simp only [List.mem_cons, exists_eq_or_imp, or_assoc]
  counts p hp i hi := by
    rcases List.mem_cons.mp hp with rfl | hp
    · exact hb.count_discards hd hi
    · exact h.counts p hp i hi
  temps p hp z hz := by
    rcases List.mem_cons.mp hp with rfl | hp
    · rw [hb.discards] at hz
      obtain ⟨i, -, rfl⟩ := List.mem_map.mp hz
      exact ⟨i, rfl⟩
    · exact h.temps p hp z hz

theorem blocksUse_nil (d : Draft) : BlocksUse d d [] where
  marked z := by simp
  counts p hp := by cases hp
  temps p hp := by cases hp

theorem BlocksUse.marked_iff {d : Draft} {guarded : List (Block × List Binder)}
    (h : BlocksUse .empty d guarded) (z : Binder) :
    d.Marked z ↔
      z ∈ guarded.flatMap Prod.snd ∨ z ∈ (guarded.map Prod.fst).flatMap Block.reads := by
  have hnone : ¬Draft.empty.Marked z := by
    cases z <;> simp [Draft.empty, Draft.Marked]
  rw [h.marked, or_iff_right hnone, List.flatMap_map, List.mem_flatMap, List.mem_flatMap]
  constructor
  · rintro ⟨p, hp, hz | hz⟩
    · exact .inl ⟨p, hp, hz⟩
    · exact .inr ⟨p, hp, hz⟩
  · rintro (⟨p, hp, hz⟩ | ⟨p, hp, hz⟩)
    · exact ⟨p, hp, .inl hz⟩
    · exact ⟨p, hp, .inr hz⟩

theorem BlocksUse.count_discards {d d' : Draft} {guarded : List (Block × List Binder)}
    (h : BlocksUse d d' guarded) {z : Binder} (hz : ∀ i, z ≠ .temp i) :
    ((guarded.map Prod.fst).flatMap Block.discards).count z = 0 := by
  rw [List.count_eq_zero, List.flatMap_map]
  intro hmem
  obtain ⟨p, hp, hmem⟩ := List.mem_flatMap.mp hmem
  obtain ⟨i, rfl⟩ := h.temps p hp z hmem
  exact hz i rfl

theorem blocksUse_blocks (rules : List CheckedRule) (index : Nat) (d : Draft)
    (hd : ∀ {i}, d.Marked (.temp i) → i < d.nextTemp) :
    BlocksUse d ((blocks rs index rules).run d).2 (guardedBlocks rs index rules d) := by
  induction rules generalizing index d with
  | nil => exact blocksUse_nil d
  | cons r rules ih =>
    have hb := blockUse_block rs r index d
    rw [guardedBlocks, blocks, run_bind]
    split_ifs
    · exact .cons hb hd (ih (index + 1) _ (hb.bounded hd))
    · exact .cons hb hd (blocksUse_nil _)

end Lower

/-- The name is read and not discarded, or it is not read and discarded once. -/
def UsedOrDiscarded (z : Binder) (reads discards : List Binder) : Prop :=
  z ∈ reads ∧ discards.count z = 0 ∨ z ∉ reads ∧ discards.count z = 1

theorem usedOrDiscarded_of_count {z : Binder} {names reads discards : List Binder}
    (h : discards.count z = if z ∈ names ∨ z ∈ reads then 0 else 1) :
    UsedOrDiscarded z reads discards ↔ (z ∈ names → z ∈ reads) := by
  unfold UsedOrDiscarded
  rw [h]
  by_cases hnames : z ∈ names <;> by_cases hreads : z ∈ reads <;> simp [hnames, hreads]

theorem count_headDiscards {f : Function} {d : Draft} (hcontext : f.usesContext = d.usesContext)
    (hparams : f.usedParams = d.usedParams) {arity : Nat} {z : Binder}
    (hz : z = .context ∨ ∃ i < arity, z = .param i) [Decidable (d.Marked z)] :
    (f.headDiscards arity).count z = if d.Marked z then 0 else 1 := by
  have hcount : ∀ i, (((List.range arity).filter (· ∉ f.usedParams)).map Binder.param).count
      (.param i) = ((List.range arity).filter (· ∉ f.usedParams)).count i := fun i =>
    List.count_map_of_injective _ _ (fun a b hab => Binder.param.inj hab) i
  rw [Function.headDiscards, List.count_append]
  rcases hz with rfl | ⟨i, hi, rfl⟩
  · have hnone : (((List.range arity).filter (· ∉ f.usedParams)).map Binder.param).count
        .context = 0 := by
      rw [List.count_eq_zero]
      simp
    rw [hnone, hcontext]
    cases hused : d.usesContext <;> simp [Draft.Marked, hused]
  · have hnone : (if f.usesContext then [] else [Binder.context]).count (.param i) = 0 := by
      cases f.usesContext <;> simp
    rw [hnone, hcount, List.Nodup.count (List.nodup_range.filter _), hparams]
    by_cases hused : i ∈ d.usedParams <;> simp [Draft.Marked, hused, hi]

/-- Every name is used or discarded, and never both, but for those that are read in an argument of
a guard's value and nowhere else. -/
theorem usedOrDiscarded_ofTerm (rs : RuleSet) (term : TermId) :
    let f := Function.ofTerm rs term
    let arity := (rs.termInfo term).args.length
    let guarded := Lower.guardedBlocks rs 0 (rs.rulesFor term) .empty
    guarded.map Prod.fst = f.blocks ∧
      (∀ z, (z = .context ∨ ∃ i < arity, z = .param i) →
        (UsedOrDiscarded z f.reads (f.discards arity) ↔
          (z ∈ guarded.flatMap Prod.snd → z ∈ f.reads))) ∧
      ∀ p ∈ guarded, ∀ i ∈ p.1.declared,
        (UsedOrDiscarded (.temp i) p.1.reads p.1.discards ↔
          (.temp i ∈ p.2 → .temp i ∈ p.1.reads)) := by
  intro f arity guarded
  have huse : Lower.BlocksUse .empty ((Lower.blocks rs 0 (rs.rulesFor term)).run .empty).2
      guarded := Lower.blocksUse_blocks rs (rs.rulesFor term) 0 .empty fun h => by cases h
  have hblocks : guarded.map Prod.fst = f.blocks :=
    Lower.guardedBlocks_fst rs (rs.rulesFor term) 0 .empty
  refine ⟨hblocks, fun z hz => usedOrDiscarded_of_count ?_, fun p hp i hi => ?_⟩
  · have hmarked := huse.marked_iff z
    have hbody : (f.blocks.flatMap Block.discards).count z = 0 := by
      rw [← hblocks]
      refine huse.count_discards fun i hi => ?_
      rw [hi] at hz
      simp at hz
    rw [hblocks, ← Function.reads] at hmarked
    have := decidable_of_iff _ hmarked.symm
    have hhead := count_headDiscards (f := f) rfl rfl hz
      (d := ((Lower.blocks rs 0 (rs.rulesFor term)).run .empty).2)
    rw [Function.discards, List.count_append, hbody, hhead, Nat.add_zero]
    simp only [hmarked]
  · exact usedOrDiscarded_of_count (huse.counts p hp i hi)

/-- The local that holds the value of `h` is read in the lost call of `f` only. It is not
discarded. -/
theorem usedOrDiscarded_ofTerm_guardSample :
    let rs := RuleSet.afterAll [Definition.guardSample]
    ∃ b, (Function.ofTerm rs 2).blocks = [b] ∧ 0 ∈ b.declared ∧
      ¬UsedOrDiscarded (.temp 0) b.reads b.discards := by
  intro rs
  let guarded := Lower.guardedBlocks rs 0 (rs.rulesFor 2) .empty
  have hlength : guarded.length = 1 := by decide +kernel
  have hdeclared : guarded.map (fun p => p.1.declared) = [[0]] := by decide +kernel
  have hnames : guarded.map Prod.snd = [[.context, .temp 0]] := by decide +kernel
  have hreads : guarded.map (fun p => p.1.reads) = [[.context, .param 0, .param 0]] := by
    decide +kernel
  obtain ⟨p, hp⟩ := List.length_eq_one_iff.mp hlength
  obtain ⟨hblocks, -, hlocals⟩ := usedOrDiscarded_ofTerm rs 2
  change guarded.map Prod.fst = _ at hblocks
  rw [hp] at hdeclared hnames hreads hblocks
  simp only [List.map_cons, List.map_nil, List.cons.injEq, and_true] at hdeclared hnames hreads
  have hmem : 0 ∈ p.1.declared := by
    rw [hdeclared]
    exact List.mem_singleton_self 0
  refine ⟨p.1, hblocks.symm, hmem, fun huse => ?_⟩
  have hpmem : p ∈ guarded := by
    rw [hp]
    exact List.mem_singleton_self p
  have hread := (hlocals p hpmem 0 hmem).mp huse
  rw [hnames, hreads] at hread
  exact absurd (hread (by decide)) (by decide)

end TermRules.Zig

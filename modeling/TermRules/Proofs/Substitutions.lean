import TermRules.Proofs.VariableNames

/-!
# Substitutions one after the other

A substitution puts all arguments in at once and looks at none of them. What
comes after it can therefore be done to the arguments beforehand, unless it
replaces a name that the first substitution leaves in the body. The words of a
pattern show the same: they are those of the body in their order, with the words
of the argument for each name of a parameter.
-/

namespace TermRules

namespace Pattern

mutual

/-- A later substitution may be made in the arguments, if it leaves the free names alone. -/
theorem subst_subst {σ τ : Substitution} : ∀ b : Pattern,
    (∀ x ∈ b.vars, σ.lookup x = none → τ.lookup x = none) →
      (b.subst σ).subst τ = b.subst (σ.map (Prod.map id (subst τ)))
  | .wildcard _, _ | .int _ _, _ | .bool _ _, _ => rfl
  | .var loc name, h => by
    rw [subst, subst, lookup_map_snd]
    cases hname : σ.lookup name with
    | some a => rfl
    | none =>
      dsimp only [Option.map_none, Option.getD_none]
      rw [subst, h name List.mem_cons_self hname, Option.getD_none]
  | .bind loc name sub, h => by
    obtain ⟨hname, hsub⟩ := List.forall_mem_cons.mp h
    rw [subst, subst, lookup_map_snd, ← subst_subst sub hsub]
    cases hlookup : σ.lookup name with
    | some a => rfl
    | none =>
      dsimp only [Option.map_none]
      rw [subst, hname hlookup]
  | .term loc name args, h => congrArg (term loc name) (substAll_substAll args h)
  | .all loc parts, h => congrArg (all loc) (substAll_substAll parts h)

theorem substAll_substAll {σ τ : Substitution} : ∀ bs : List Pattern,
    (∀ x ∈ varsAll bs, σ.lookup x = none → τ.lookup x = none) →
      substAll τ (substAll σ bs) = substAll (σ.map (Prod.map id (subst τ))) bs
  | [], _ => rfl
  | b :: bs, h => by
    obtain ⟨hb, hbs⟩ := List.forall_mem_append.mp h
    rw [substAll, substAll, substAll, subst_subst b hb, substAll_substAll bs hbs]

end

inductive Word
  | variable (name : Bytes)
  | term (name : Bytes)
deriving DecidableEq

mutual

def words : Pattern → List Word
  | .var _ name => [.variable name]
  | .bind _ name sub => .variable name :: sub.words
  | .term _ name args => .term name :: wordsAll args
  | .all _ parts => wordsAll parts
  | .wildcard _ | .int _ _ | .bool _ _ => []

def wordsAll : List Pattern → List Word
  | [] => []
  | p :: ps => p.words ++ wordsAll ps

end

/-- What a word of the body becomes: the name of a parameter gives way to the words of the first
argument for it, and every other word stays. -/
def Word.replaced (params : List Bytes) (args : List Pattern) : Word → List Word
  | .variable name =>
      match params.idxOf? name with
      | some i => (args[i]?.map words).getD []
      | none => [.variable name]
  | .term name => [.term name]

theorem Word.replaced_variable {params : List Bytes} {args : List Pattern}
    (hargs : args.length = params.length) (name : Bytes) :
    Word.replaced params args (.variable name) =
      (((params.zip args).lookup name).map words).getD [.variable name] := by
  rw [replaced, Check.lookup_zip]
  cases hi : params.idxOf? name with
  | none => rfl
  | some i =>
    obtain ⟨hlt, -⟩ := List.idxOf?_eq_some_iff.mp hi
    have ha := List.getElem?_eq_getElem (hargs.symm ▸ hlt : i < args.length)
    simp only [Option.bind_some, ha, Option.map_some, Option.getD_some]

mutual

theorem words_subst {params : List Bytes} {args : List Pattern}
    (hargs : args.length = params.length) : ∀ b : Pattern,
      (b.subst (params.zip args)).words = b.words.flatMap (Word.replaced params args)
  | .wildcard _ | .int _ _ | .bool _ _ => rfl
  | .var loc name => by
    rw [words, List.flatMap_singleton, Word.replaced_variable hargs, subst]
    cases (params.zip args).lookup name <;> rfl
  | .bind loc name sub => by
    rw [words, List.flatMap_cons, Word.replaced_variable hargs, ← words_subst hargs sub, subst]
    cases (params.zip args).lookup name with
    | none => rfl
    | some a =>
      dsimp only [words, wordsAll, Option.map_some, Option.getD_some]
      rw [List.append_nil]
  | .term loc name inner => by
    rw [words, List.flatMap_cons, ← words_substAll hargs inner]
    rfl
  | .all loc parts => words_substAll hargs parts

theorem words_substAll {params : List Bytes} {args : List Pattern}
    (hargs : args.length = params.length) : ∀ bs : List Pattern,
      wordsAll (substAll (params.zip args) bs) =
        (wordsAll bs).flatMap (Word.replaced params args)
  | [] => rfl
  | b :: bs => by
    rw [substAll, wordsAll, wordsAll, List.flatMap_append, words_subst hargs b,
      words_substAll hargs bs]

end

def substitute (b : Pattern) (params : List Ident) (args : List Pattern) : Pattern :=
  b.subst ((params.map Ident.name).zip args)

theorem substitute_subst (b : Pattern) {params : List Ident} {args : List Pattern}
    (hargs : args.length = params.length) {τ : Substitution}
    (hfree : ∀ x ∈ b.vars, x ∉ params.map Ident.name → τ.lookup x = none) :
    (b.substitute params args).subst τ = b.substitute params (args.map (subst τ)) := by
  have hlength : args.length = (params.map Ident.name).length := by rw [hargs, List.length_map]
  rw [substitute, substitute, List.zip_map_right]
  refine b.subst_subst fun x hx hnone => hfree x hx fun hparam => ?_
  obtain ⟨a, ha⟩ := Check.exists_lookup_zip hlength hparam
  cases hnone.symm.trans ha

/-- Arguments are put in before others are put into the result, or have these put into them first:
it is the same unless the others replace a name that the body keeps. And nothing but the variables
of the body is replaced: the words of an argument and the names of terms stay. -/
theorem substitute_substitute (b : Pattern) (ps qs : List Ident) (as bs : List Pattern)
    (has : as.length = ps.length)
    (hfree : ∀ x ∈ b.vars, x ∉ ps.map Ident.name → x ∉ qs.map Ident.name) :
    (b.substitute ps as).substitute qs bs = b.substitute ps (as.map (·.substitute qs bs)) ∧
      (b.substitute ps as).words = b.words.flatMap (Word.replaced (ps.map Ident.name) as) := by
  constructor
  · exact b.substitute_subst has fun x hx hparam => Check.lookup_zip_eq_none (hfree x hx hparam) bs
  · exact words_subst (by rw [has, List.length_map]) b

/-- The body uses a parameter twice, once with a subpattern, and has the name of another one for
a term; each argument has the names of the parameters, and two parameters have one name. -/
theorem substitute_substitute_crossedNames :
    let place := Loc.unknown
    let ident (name : String) : Ident := ⟨ascii name, place⟩
    let var (name : String) : Pattern := .var place (ascii name)
    let ps := [ident "a", ident "b", ident "a"]
    let as := [.term place (ascii "t") [var "b", var "c"], var "a", .wildcard place]
    let qs := [ident "a", ident "c"]
    let bs := [.int place ⟨false, 7⟩, var "b"]
    let b : Pattern :=
      .term place (ascii "b") [.bind place (ascii "a") (var "b"), .bind place (ascii "d") (var "a")]
    as.length = ps.length ∧
      (∀ x ∈ b.vars, x ∉ ps.map Ident.name → x ∉ qs.map Ident.name) ∧
      b.substitute ps as = .term place (ascii "b")
        [.all place [.term place (ascii "t") [var "b", var "c"], var "a"],
          .bind place (ascii "d") (.term place (ascii "t") [var "b", var "c"])] ∧
      (b.substitute ps as).substitute qs bs = b.substitute ps (as.map (·.substitute qs bs)) ∧
      (b.substitute ps as).words = b.words.flatMap (Word.replaced (ps.map Ident.name) as) := by
  intro place ident var ps as qs bs b
  have has : as.length = ps.length := rfl
  have hfree : ∀ x ∈ b.vars, x ∉ ps.map Ident.name → x ∉ qs.map Ident.name := by decide
  exact ⟨has, hfree, rfl, substitute_substitute b ps qs as bs has hfree⟩

end Pattern

end TermRules

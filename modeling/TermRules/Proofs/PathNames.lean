import Mathlib.Tactic.Common
import TermRules.File.Path

/-!
# Normal paths

A walk along the parts of a path keeps proper names only, and above them the
parents that lead out of the directory it starts in; no parent leads out of the
root. Walking along its text meets the same names again, so the normal form of
a path is its own normal form.
-/

namespace TermRules.Path

theorem slash_not_mem_split (path : Bytes) : ∀ part ∈ split path, Byte.slash ∉ part := by
  induction path with
  | nil => simp [split]
  | cons b rest ih =>
    rw [split]
    split_ifs with hb
    · exact List.forall_mem_cons.mpr ⟨List.not_mem_nil, ih⟩
    · cases hrest : split rest with
      | nil => simpa using Ne.symm hb
      | cons part parts =>
        rw [hrest, List.forall_mem_cons] at ih
        refine List.forall_mem_cons.mpr ⟨fun hmem => ?_, ih.2⟩
        exact (List.mem_cons.mp hmem).elim (fun heq => hb heq.symm) ih.1

theorem split_of_not_mem {part : Bytes} (h : Byte.slash ∉ part) : split part = [part] := by
  induction part with
  | nil => rfl
  | cons b part ih =>
    rw [List.mem_cons, not_or] at h
    rw [split, if_neg (Ne.symm h.1), ih h.2]

theorem split_append_slash {part : Bytes} (h : Byte.slash ∉ part) (rest : Bytes) :
    split (part ++ Byte.slash :: rest) = part :: split rest := by
  induction part with
  | nil => rw [List.nil_append, split, if_pos rfl]
  | cons b part ih =>
    rw [List.mem_cons, not_or] at h
    rw [List.cons_append, split, if_neg (Ne.symm h.1), ih h.2]

theorem split_joinWith {parts : List Bytes} (hne : parts ≠ [])
    (h : ∀ part ∈ parts, Byte.slash ∉ part) : split (joinWith [Byte.slash] parts) = parts := by
  induction parts with
  | nil => exact absurd rfl hne
  | cons part parts ih =>
    obtain ⟨hpart, hparts⟩ := List.forall_mem_cons.mp h
    cases parts with
    | nil => exact split_of_not_mem hpart
    | cons next parts =>
      rw [joinWith, List.append_assoc, List.singleton_append, split_append_slash hpart,
        ih (List.cons_ne_nil _ _) hparts]
      exact List.cons_ne_nil _ _

theorem joinWith_append_nil {parts : List Bytes} (hne : parts ≠ []) (separator : Bytes) :
    joinWith separator (parts ++ [[]]) = joinWith separator parts ++ separator := by
  induction parts with
  | nil => exact absurd rfl hne
  | cons part parts ih =>
    cases parts with
    | nil => simp [joinWith]
    | cons next parts =>
      have hrest := ih (List.cons_ne_nil _ _)
      simp only [List.cons_append] at hrest
      simp [joinWith, hrest]

namespace Walk

/-- What is left of a walk along parts of a path. -/
structure Canonical (absolute : Bool) (w : Walk) : Prop where
  names : ∀ name ∈ w.names, name ≠ [] ∧ name ≠ here ∧ Byte.slash ∉ name
  parents : w.names.Pairwise fun name before => name = parent → before = parent
  rooted : absolute = true → parent ∉ w.names
  slash : w.names = [] → w.slash = false

theorem canonical_start (absolute : Bool) : start.Canonical absolute where
  names := by simp [start]
  parents := .nil
  rooted _ := List.not_mem_nil
  slash _ := rfl

theorem isName_parent : parent ≠ [] ∧ parent ≠ here ∧ Byte.slash ∉ parent := by decide

variable {absolute : Bool} {w : Walk}

theorem Canonical.leave (h : w.Canonical absolute) : (w.leave absolute).Canonical absolute := by
  obtain ⟨names, slash⟩ := w
  cases names with
  | nil =>
    rw [Walk.leave]
    dsimp only
    split_ifs with habsolute
    · exact h
    · exact ⟨by simpa using isName_parent, List.pairwise_singleton _ _,
        fun hroot => absurd hroot habsolute, by simp⟩
  | cons name rest =>
    obtain ⟨hbefore, hrest⟩ := List.pairwise_cons.mp h.parents
    rw [Walk.leave]
    dsimp only
    split_ifs with hname
    · subst hname
      refine ⟨List.forall_mem_cons.mpr ⟨isName_parent, h.names⟩, ?_,
        fun hroot => absurd List.mem_cons_self (h.rooted hroot), by simp⟩
      refine List.pairwise_cons.mpr ⟨fun before hmem _ => ?_, h.parents⟩
      exact (List.mem_cons.mp hmem).elim id fun hmem => hbefore before hmem rfl
    · exact ⟨(List.forall_mem_cons.mp h.names).2, hrest,
        fun hroot hmem => h.rooted hroot (List.mem_cons_of_mem name hmem), by simp⟩

theorem Canonical.enter (h : w.Canonical absolute) {part : Bytes} (hpart : Byte.slash ∉ part) :
    (w.enter absolute part).Canonical absolute := by
  rw [Walk.enter]
  split_ifs with hskip hparent
  · exact ⟨h.names, h.parents, h.rooted, by simp⟩
  · exact h.leave
  · push Not at hskip
    exact ⟨List.forall_mem_cons.mpr ⟨⟨hskip.1, hskip.2, hpart⟩, h.names⟩,
      List.pairwise_cons.mpr ⟨fun _ _ hname => absurd hname hparent, h.parents⟩,
      fun hroot hmem => (List.mem_cons.mp hmem).elim (fun heq => hparent heq.symm) (h.rooted hroot),
      by simp⟩

theorem Canonical.enterAll (h : w.Canonical absolute) {parts : List Bytes}
    (hparts : ∀ part ∈ parts, Byte.slash ∉ part) :
    (parts.foldl (Walk.enter absolute) w).Canonical absolute := by
  induction parts generalizing w with
  | nil => exact h
  | cons part parts ih =>
    obtain ⟨hpart, hrest⟩ := List.forall_mem_cons.mp hparts
    exact ih (h.enter hpart) hrest

theorem Canonical.enter_names (h : w.Canonical absolute) :
    w.names.reverse.foldl (Walk.enter absolute) start = ⟨w.names, false⟩ := by
  obtain ⟨names, slash⟩ := w
  obtain ⟨hnames, hparents, hrooted, -⟩ := h
  dsimp only at hnames hparents hrooted ⊢
  induction names with
  | nil => rfl
  | cons name rest ih =>
    obtain ⟨⟨hnil, hhere, -⟩, hrest⟩ := List.forall_mem_cons.mp hnames
    obtain ⟨hbefore, hpairs⟩ := List.pairwise_cons.mp hparents
    have hback := ih hrest hpairs fun hroot hmem => hrooted hroot (List.mem_cons_of_mem name hmem)
    rw [List.reverse_cons, List.foldl_append, hback, List.foldl_cons, List.foldl_nil, Walk.enter,
      if_neg (by simp [hnil, hhere])]
    split_ifs with hname
    · subst hname
      cases rest with
      | nil =>
        have habsolute : ¬absolute = true := fun hroot => hrooted hroot List.mem_cons_self
        exact if_neg habsolute
      | cons before rest => exact if_pos (hbefore before List.mem_cons_self rfl)
    · rfl

def endsInSlash (w : Walk) : Bool := w.slash && w.names.head? != some parent

def parts (absolute : Bool) (w : Walk) : List Bytes :=
  (if absolute then [[]] else []) ++ (w.names.reverse ++ if w.endsInSlash then [[]] else [])

theorem text_eq_joinWith (hne : w.names ≠ []) (absolute : Bool) :
    w.text absolute = joinWith [Byte.slash] (w.parts absolute) := by
  have hroot {texts : List Bytes} (htexts : texts ≠ []) :
      joinWith [Byte.slash] ([] :: texts) = Byte.slash :: joinWith [Byte.slash] texts := by
    cases texts with
    | nil => exact absurd rfl htexts
    | cons text texts => rfl
  have hreverse : w.names.reverse ≠ [] := List.reverse_ne_nil_iff.mpr hne
  have htail : joinWith [Byte.slash] (w.names.reverse ++ if w.endsInSlash then [[]] else []) =
      joinWith [Byte.slash] w.names.reverse ++ if w.endsInSlash then [Byte.slash] else [] := by
    cases w.endsInSlash
    · simp
    · exact joinWith_append_nil hreverse _
  have htext : w.text absolute = (if absolute then [Byte.slash] else []) ++
      joinWith [Byte.slash] w.names.reverse ++ if w.endsInSlash then [Byte.slash] else [] := by
    rw [text]
    split
    · contradiction
    · rfl
  rw [htext, parts, List.append_assoc, ← htail]
  cases absolute with
  | false => rfl
  | true => exact (hroot (List.append_ne_nil_of_left_ne_nil hreverse _)).symm

theorem Canonical.slash_not_mem_parts (h : w.Canonical absolute) :
    ∀ part ∈ w.parts absolute, Byte.slash ∉ part := by
  intro part hpart
  rw [parts, List.mem_append, List.mem_append, List.mem_reverse] at hpart
  rcases hpart with hpart | hpart | hpart
  · split_ifs at hpart <;> simp_all
  · exact (h.names part hpart).2.2
  · split_ifs at hpart <;> simp_all

theorem head?_joinWith {part : Bytes} (hpart : part ≠ []) (separator : Bytes)
    (parts : List Bytes) : (joinWith separator (part :: parts)).head? = part.head? := by
  obtain ⟨b, rest, rfl⟩ := List.exists_cons_of_ne_nil hpart
  cases parts <;> rfl

theorem Canonical.head?_text (h : w.Canonical absolute) :
    ∃ b, (w.text absolute).head? = some b ∧ (b = Byte.slash ↔ absolute = true) := by
  by_cases hne : w.names = []
  · rw [text, hne]
    cases absolute <;> exact ⟨_, rfl, by decide⟩
  rw [text_eq_joinWith hne, parts]
  cases absolute with
  | true =>
    rw [if_pos rfl, List.singleton_append]
    obtain ⟨part, rest, hrest⟩ := List.exists_cons_of_ne_nil
      (List.append_ne_nil_of_left_ne_nil (List.reverse_ne_nil_iff.mpr hne)
        (if w.endsInSlash then [[]] else []))
    rw [hrest]
    exact ⟨_, rfl, by decide⟩
  | false =>
    obtain ⟨part, rest, hrest⟩ := List.exists_cons_of_ne_nil (List.reverse_ne_nil_iff.mpr hne)
    have hmem : part ∈ w.names := by
      rw [← List.mem_reverse, hrest]
      exact List.mem_cons_self
    obtain ⟨hnil, -, hslash⟩ := h.names part hmem
    rw [hrest, if_neg Bool.false_ne_true, List.nil_append, List.cons_append, head?_joinWith hnil]
    obtain ⟨b, s, rfl⟩ := List.exists_cons_of_ne_nil hnil
    refine ⟨b, rfl, iff_of_false (fun heq => hslash ?_) Bool.false_ne_true⟩
    exact heq ▸ List.mem_cons_self

theorem text_withSlash {slash : Bool} (h : endsInSlash ⟨w.names, slash⟩ = w.endsInSlash)
    (absolute : Bool) : text absolute ⟨w.names, slash⟩ = w.text absolute := by
  rw [endsInSlash, endsInSlash] at h
  rw [text, text, h]

theorem Canonical.text_enter_parts (h : w.Canonical absolute) :
    ((w.parts absolute).foldl (Walk.enter absolute) start).text absolute = w.text absolute := by
  have hroot : (if absolute then [[]] else []).foldl (Walk.enter absolute) start = start := by
    cases absolute <;> rfl
  rw [parts, List.foldl_append, hroot, List.foldl_append, h.enter_names]
  cases hends : w.endsInSlash with
  | false =>
    have hslash : endsInSlash ⟨w.names, false⟩ = w.endsInSlash := hends.symm
    exact text_withSlash hslash absolute
  | true =>
    have hne : w.names ≠ [] := by
      intro hnil
      rw [endsInSlash, h.slash hnil] at hends
      cases hends
    have hslash : Walk.enter absolute ⟨w.names, false⟩ [] = ⟨w.names, true⟩ := by
      simp [Walk.enter, hne]
    rw [if_pos rfl, List.foldl_cons, List.foldl_nil, hslash]
    refine text_withSlash ?_ absolute
    rw [endsInSlash, Bool.and_eq_true] at hends
    rw [endsInSlash, endsInSlash, hends.1]

end Walk

def walk (path : Bytes) : Walk := (split path).foldl (Walk.enter (isAbsolute path)) .start

theorem normal_eq {path : Bytes} (h : path ≠ []) :
    normal path = (walk path).text (isAbsolute path) := if_neg h

theorem canonical_walk (path : Bytes) : (walk path).Canonical (isAbsolute path) :=
  (Walk.canonical_start _).enterAll (slash_not_mem_split path)

theorem normal_ne_nil {path : Bytes} (h : path ≠ []) : normal path ≠ [] := by
  obtain ⟨b, hb, -⟩ := (canonical_walk path).head?_text
  rw [normal_eq h]
  exact List.ne_nil_of_mem (List.mem_of_mem_head? hb)

theorem Walk.Canonical.normal_text {absolute : Bool} {w : Walk} (h : w.Canonical absolute) :
    normal (w.text absolute) = w.text absolute := by
  by_cases hne : w.names = []
  · rw [Walk.text, hne]
    cases absolute <;> rfl
  obtain ⟨b, hb, hslash⟩ := h.head?_text
  have htext : w.text absolute ≠ [] := List.ne_nil_of_mem (List.mem_of_mem_head? hb)
  have habsolute : isAbsolute (w.text absolute) = absolute := by
    simp only [isAbsolute, hb, Option.some_inj, hslash, Bool.decide_eq_true]
  have hsplit : split (w.text absolute) = w.parts absolute := by
    rw [Walk.text_eq_joinWith hne, split_joinWith _ h.slash_not_mem_parts]
    simp [Walk.parts, hne]
  rw [normal_eq htext, walk, habsolute, hsplit, h.text_enter_parts]

/-- A normal path is its own normal form. -/
theorem normal_normal (path : Bytes) : normal (normal path) = normal path := by
  by_cases hpath : path = []
  · subst hpath
    rfl
  · rw [normal_eq hpath]
    exact (canonical_walk path).normal_text

end TermRules.Path

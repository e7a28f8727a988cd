import Mathlib.Data.Nat.Digits.Defs
import TermRules.Proofs.TokenBoundaries

/-!
# Spellings of integers

A literal is spelled by an optional sign, an optional radix mark and digits with
separators among them. A spelling has one value, and the text is read as a
literal exactly if it is spelled in this way and its value fits into 64 bits.
-/

namespace TermRules

namespace Numeral

inductive DigitByte : UInt8 → Nat → Prop
  | decimal {d : Nat} (lt : d < 10) : DigitByte (UInt8.ofNat (48 + d)) d
  | lower {d : Nat} (lt : d < 6) : DigitByte (UInt8.ofNat (97 + d)) (10 + d)
  | upper {d : Nat} (lt : d < 6) : DigitByte (UInt8.ofNat (65 + d)) (10 + d)

inductive Mark : UInt8 → Nat → Prop
  | hexadecimal : Mark 120 16
  | hexadecimalCapital : Mark 88 16
  | octal : Mark 111 8
  | octalCapital : Mark 79 8
  | binary : Mark 98 2
  | binaryCapital : Mark 66 2

/-- Digits of a radix, the first one first, and separators anywhere among them. -/
inductive Body (radix : Nat) : Bytes → List Nat → Prop
  | nil : Body radix [] []
  | separator {s : Bytes} {ds : List Nat} (rest : Body radix s ds) :
      Body radix (Byte.underscore :: s) ds
  | digit {b : UInt8} {d : Nat} {s : Bytes} {ds : List Nat} (byte : DigitByte b d)
      (lt : d < radix) (rest : Body radix s ds) : Body radix (b :: s) (d :: ds)

/-- Decimal digits, a digit in front, or a zero, a mark and digits of the marked radix. -/
inductive Unsigned : Bytes → Nat → Prop
  | decimal {b : UInt8} {d : Nat} {s : Bytes} {ds : List Nat} (byte : DigitByte b d)
      (lt : d < 10) (rest : Body 10 s ds) : Unsigned (b :: s) (Nat.ofDigits 10 (d :: ds).reverse)
  | marked {b : UInt8} {radix : Nat} {s : Bytes} {ds : List Nat} (mark : Mark b radix)
      (body : Body radix s ds) (ne : ds ≠ []) :
      Unsigned (Byte.zero :: b :: s) (Nat.ofDigits radix ds.reverse)

/-- The spelling has the sign and the magnitude. -/
inductive Spells : Bytes → Bool → Nat → Prop
  | positive {s : Bytes} {n : Nat} (magnitude : Unsigned s n) : Spells s false n
  | negative {s : Bytes} {n : Nat} (magnitude : Unsigned s n) : Spells (Byte.minus :: s) true n

theorem exists_eq_ofNat {n : Nat} {b : UInt8} (h : n ≤ b.toNat) :
    ∃ d, b.toNat = n + d ∧ b = UInt8.ofNat (n + d) := by
  have hb : b.toNat = n + (b.toNat - n) := (Nat.add_sub_cancel' h).symm
  exact ⟨_, hb, by rw [← hb, UInt8.ofNat_toNat]⟩

theorem digitValue?_eq_some {b : UInt8} {d : Nat} : digitValue? b = some d ↔ DigitByte b d := by
  constructor
  · intro h
    rw [digitValue?] at h
    split_ifs at h with hdecimal hlower hupper <;> cases h
    · rw [Byte.isDigit, Bool.and_eq_true, decide_eq_true_eq, decide_eq_true_eq] at hdecimal
      have hle : b.toNat ≤ 57 := hdecimal.2
      obtain ⟨d, hd, hb⟩ := exists_eq_ofNat (n := 48) hdecimal.1
      have hvalue : b.toNat - 48 = d := by omega
      rw [hvalue, hb]
      exact .decimal (by omega)
    · have hle : b.toNat ≤ 102 := hlower.2
      obtain ⟨d, hd, hb⟩ := exists_eq_ofNat (n := 97) hlower.1
      have hvalue : b.toNat - 87 = 10 + d := by omega
      rw [hvalue, hb]
      exact .lower (by omega)
    · have hle : b.toNat ≤ 70 := hupper.2
      obtain ⟨d, hd, hb⟩ := exists_eq_ofNat (n := 65) hupper.1
      have hvalue : b.toNat - 55 = 10 + d := by omega
      rw [hvalue, hb]
      exact .upper (by omega)
  · have decimal : ∀ d < 10, digitValue? (UInt8.ofNat (48 + d)) = some d := by decide
    have lower : ∀ d < 6, digitValue? (UInt8.ofNat (97 + d)) = some (10 + d) := by decide
    have upper : ∀ d < 6, digitValue? (UInt8.ofNat (65 + d)) = some (10 + d) := by decide
    rintro (⟨lt⟩ | ⟨lt⟩ | ⟨lt⟩)
    · exact decimal _ lt
    · exact lower _ lt
    · exact upper _ lt

theorem markedRadix?_eq_some {b : UInt8} {radix : Nat} :
    markedRadix? b = some radix ↔ Mark b radix := by
  constructor
  · intro h
    rw [markedRadix?] at h
    split_ifs at h with hx ho hb <;> cases h
    · rcases hx with rfl | rfl
      · exact .hexadecimal
      · exact .hexadecimalCapital
    · rcases ho with rfl | rfl
      · exact .octal
      · exact .octalCapital
    · rcases hb with rfl | rfl
      · exact .binary
      · exact .binaryCapital
  · rintro (_ | _) <;> rfl

theorem digit?_eq_some {radix : Nat} {b : UInt8} {d : Nat} :
    digit? radix b = some d ↔ DigitByte b d ∧ d < radix := by
  rw [digit?, Option.filter_eq_some_iff, digitValue?_eq_some, decide_eq_true_eq]

theorem digits?_cons {b : UInt8} (hb : b ≠ Byte.underscore) (radix : Nat) (s : Bytes) :
    digits? radix (b :: s) =
      (digit? radix b).bind fun d => (digits? radix s).map (d :: ·) := by
  rw [digits?, List.filter_cons_of_pos (by simpa using hb), List.mapM_cons]
  cases digit? radix b <;> cases h : digits? radix s <;> rw [digits?] at h <;> simp [h]

theorem digits?_eq_some {radix : Nat} {s : Bytes} {ds : List Nat} :
    digits? radix s = some ds ↔ Body radix s ds := by
  constructor
  · intro h
    induction s generalizing ds with
    | nil =>
      cases h
      exact .nil
    | cons b s ih =>
      by_cases hb : b = Byte.underscore
      · subst hb
        exact .separator (ih h)
      · rw [digits?_cons hb] at h
        obtain ⟨d, hd, h⟩ := Option.bind_eq_some_iff.mp h
        obtain ⟨es, hes, rfl⟩ := Option.map_eq_some_iff.mp h
        obtain ⟨hbyte, hlt⟩ := digit?_eq_some.mp hd
        exact .digit hbyte hlt (ih hes)
  · intro h
    induction h with
    | nil => rfl
    | separator _ ih => exact ih
    | @digit b d s ds byte lt _ ih =>
      have hb : b ≠ Byte.underscore := by
        rintro rfl
        have := digitValue?_eq_some.mpr byte
        cases this
      rw [digits?_cons hb, digit?_eq_some.mpr ⟨byte, lt⟩, ih]
      rfl

theorem ofDigits_eq (radix : Nat) (ds : List Nat) :
    ofDigits radix ds = Nat.ofDigits radix ds.reverse := by
  induction ds using List.reverseRecOn with
  | nil => rfl
  | append_singleton ds d ih =>
    rw [ofDigits, List.foldl_append, List.reverse_append, List.reverse_singleton,
      List.singleton_append, Nat.ofDigits_cons, ← ih, Nat.add_comm, Nat.mul_comm]
    rfl

theorem DigitByte.isDigit {b : UInt8} {d : Nat} (h : DigitByte b d) (hd : d < 10) :
    Byte.isDigit b = true := by
  have decimal : ∀ d < 10, Byte.isDigit (UInt8.ofNat (48 + d)) = true := by decide
  cases h with
  | decimal lt => exact decimal _ lt
  | lower _ => omega
  | upper _ => omega

theorem markedRadix?_of_body {b : UInt8} {s : Bytes} {ds : List Nat} (h : Body 10 (b :: s) ds) :
    markedRadix? b = none := by
  have decimal : ∀ d < 10, markedRadix? (UInt8.ofNat (48 + d)) = none := by decide
  cases h with
  | separator _ => rfl
  | digit byte lt _ =>
    cases byte with
    | decimal _ => exact decimal _ lt
    | lower _ => omega
    | upper _ => omega

theorem splitRadix_of_body {b : UInt8} {s : Bytes} {ds : List Nat} (h : Body 10 s ds) :
    splitRadix (b :: s) = (10, b :: s) := by
  generalize ht : b :: s = text
  fun_cases splitRadix text with
  | case1 c s' radix hc =>
    cases ht
    rw [markedRadix?_of_body h] at hc
    cases hc
  | case2 => rfl
  | case3 => rfl

theorem splitRadix_of_mark {b : UInt8} {radix : Nat} (h : Mark b radix) (s : Bytes) :
    splitRadix (Byte.zero :: b :: s) = (radix, s) := by
  have hb := markedRadix?_eq_some.mpr h
  generalize ht : Byte.zero :: b :: s = text
  fun_cases splitRadix text with
  | case1 c s' radix' hc =>
    cases ht
    cases hb.symm.trans hc
    rfl
  | case2 c s' hc =>
    cases ht
    cases hb.symm.trans hc
  | case3 text' hne => exact absurd ht.symm (hne b s)

theorem splitRadix_cases (text : Bytes) :
    (∃ b radix s, text = Byte.zero :: b :: s ∧ Mark b radix ∧ splitRadix text = (radix, s)) ∨
      splitRadix text = (10, text) := by
  fun_cases splitRadix text with
  | case1 b s radix hb => exact .inl ⟨b, radix, s, rfl, markedRadix?_eq_some.mp hb, rfl⟩
  | case2 => exact .inr rfl
  | case3 => exact .inr rfl

theorem magnitude_of_digits {text body : Bytes} {radix : Nat} {ds : List Nat}
    (hradix : splitRadix text = (radix, body)) (hbody : Body radix body ds) (hds : ds ≠ []) :
    magnitude text =
      if Nat.ofDigits radix ds.reverse < UInt64.size
        then .ok (Nat.ofDigits radix ds.reverse).toUInt64 else .error .outOfRange := by
  cases ds with
  | nil => exact absurd rfl hds
  | cons d ds =>
    rw [magnitude, hradix]
    dsimp only
    rw [digits?_eq_some.mpr hbody, ← ofDigits_eq]

theorem Unsigned.magnitude_eq {text : Bytes} {n : Nat} (h : Unsigned text n) :
    magnitude text = if n < UInt64.size then .ok n.toUInt64 else .error .outOfRange := by
  cases h with
  | decimal byte lt rest =>
    exact magnitude_of_digits (splitRadix_of_body rest) (.digit byte lt rest) (List.cons_ne_nil _ _)
  | marked mark body ne => exact magnitude_of_digits (splitRadix_of_mark mark _) body ne

theorem magnitude_of_not_unsigned {b : UInt8} {s : Bytes} (hb : Byte.isDigit b = true)
    (h : ∀ n, ¬Unsigned (b :: s) n) : magnitude (b :: s) = .error .malformed := by
  rcases hradix : splitRadix (b :: s) with ⟨radix, body⟩
  rw [magnitude, hradix]
  dsimp only
  cases hdigits : digits? radix body with
  | none => rfl
  | some ds =>
    cases ds with
    | nil => rfl
    | cons d ds =>
      have hbody := digits?_eq_some.mp hdigits
      exfalso
      rcases splitRadix_cases (b :: s) with ⟨c, radix', s', htext, hmark, hsplit⟩ | hsplit
      · rw [hsplit] at hradix
        cases hradix
        rw [htext] at h
        exact h _ (.marked hmark hbody (List.cons_ne_nil d ds))
      · rw [hsplit] at hradix
        cases hradix
        cases hbody with
        | separator _ => cases hb
        | digit byte lt rest => exact h _ (.decimal byte lt rest)

theorem Unsigned.exists_digit {text : Bytes} {n : Nat} (h : Unsigned text n) :
    ∃ b s, text = b :: s ∧ Byte.isDigit b = true := by
  cases h with
  | decimal byte lt _ => exact ⟨_, _, rfl, byte.isDigit lt⟩
  | marked _ _ _ => exact ⟨_, _, rfl, rfl⟩

theorem splitSign_of_digit {b : UInt8} (hb : Byte.isDigit b = true) (s : Bytes) :
    splitSign (b :: s) = (false, b :: s) := by
  refine splitSign.eq_2 _ fun rest hrest => ?_
  cases hrest
  cases hb

theorem spells_iff {s : Bytes} {negative : Bool} {n : Nat} :
    Spells s negative n ↔ (splitSign s).1 = negative ∧ Unsigned (splitSign s).2 n := by
  constructor
  · intro h
    cases h with
    | positive magnitude =>
      obtain ⟨b, s, rfl, hb⟩ := magnitude.exists_digit
      rw [splitSign_of_digit hb]
      exact ⟨rfl, magnitude⟩
    | negative magnitude => exact ⟨rfl, magnitude⟩
  · rintro ⟨rfl, h⟩
    revert h
    fun_cases splitSign s with
    | case1 rest => exact .negative
    | case2 => exact .positive

theorem exists_digit_of_startsNumber {b : UInt8} {s : Bytes}
    (h : Byte.startsNumber b s = true) :
    ∃ c t, (splitSign (b :: s)).2 = c :: t ∧ Byte.isDigit c = true := by
  rw [Byte.startsNumber, Bool.or_eq_true, Bool.and_eq_true, beq_iff_eq] at h
  rcases h with hb | ⟨rfl, hhead⟩
  · exact ⟨b, s, by rw [splitSign_of_digit hb], hb⟩
  · cases s with
    | nil => cases hhead
    | cons c t => exact ⟨c, t, rfl, hhead⟩

theorem read_of_spells {s : Bytes} {negative : Bool} {n : Nat} (h : Spells s negative n) :
    read s = if n < UInt64.size then .ok ⟨negative, n.toUInt64⟩ else .error .outOfRange := by
  obtain ⟨rfl, hn⟩ := spells_iff.mp h
  rw [read, hn.magnitude_eq]
  split_ifs <;> rfl

theorem read_of_not_spells {b : UInt8} {s : Bytes} (hstart : Byte.startsNumber b s = true)
    (h : ∀ negative n, ¬Spells (b :: s) negative n) : read (b :: s) = .error .malformed := by
  obtain ⟨c, t, hsplit, hc⟩ := exists_digit_of_startsNumber hstart
  have hmagnitude : magnitude (c :: t) = .error .malformed := by
    refine magnitude_of_not_unsigned hc fun n hn => ?_
    exact h _ n (spells_iff.mpr ⟨rfl, hsplit ▸ hn⟩)
  rw [read, hsplit, hmagnitude]
  rfl

theorem exists_spells_of_read {b : UInt8} {s : Bytes} (hstart : Byte.startsNumber b s = true)
    {n : IntLiteral} (h : read (b :: s) = .ok n) :
    ∃ negative value, Spells (b :: s) negative value ∧ value < UInt64.size := by
  by_contra hnone
  by_cases hspells : ∃ negative value, Spells (b :: s) negative value
  · obtain ⟨negative, value, hspells⟩ := hspells
    have hlarge : ¬value < UInt64.size := fun hlt => hnone ⟨negative, value, hspells, hlt⟩
    rw [read_of_spells hspells, if_neg hlarge] at h
    cases h
  · rw [read_of_not_spells hstart fun negative value hs => hspells ⟨negative, value, hs⟩] at h
    cases h

end Numeral

end TermRules

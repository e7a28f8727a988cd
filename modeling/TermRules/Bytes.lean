/-!
# Byte strings

Every text of the compiler is a byte string: rule files, paths, messages and
generated code. This module holds the ASCII literals, the decimal numerals and
the byte classes that the rest of the library shares.
-/

namespace TermRules

abbrev Bytes := List UInt8

def ascii (text : String) : Bytes := text.toList.map Char.toUInt8

namespace Byte

@[match_pattern] abbrev tab : UInt8 := 9
@[match_pattern] abbrev newline : UInt8 := 10
@[match_pattern] abbrev carriageReturn : UInt8 := 13
@[match_pattern] abbrev space : UInt8 := 32
@[match_pattern] abbrev lparen : UInt8 := 40
@[match_pattern] abbrev rparen : UInt8 := 41
@[match_pattern] abbrev minus : UInt8 := 45
@[match_pattern] abbrev dot : UInt8 := 46
@[match_pattern] abbrev slash : UInt8 := 47
@[match_pattern] abbrev zero : UInt8 := 48
@[match_pattern] abbrev semicolon : UInt8 := 59
@[match_pattern] abbrev atSign : UInt8 := 64
@[match_pattern] abbrev underscore : UInt8 := 95

def isDigit (b : UInt8) : Bool := 48 ≤ b && b ≤ 57
def isUpper (b : UInt8) : Bool := 65 ≤ b && b ≤ 90
def isLower (b : UInt8) : Bool := 97 ≤ b && b ≤ 122
def isAlphanumeric (b : UInt8) : Bool := isDigit b || isUpper b || isLower b

end Byte

def decimalDigit (n : Nat) : UInt8 := Byte.zero + n.toUInt8

def decimalWithin : Nat → Nat → Bytes
  | 0, n => [decimalDigit n]
  | fuel + 1, n =>
      if n < 10 then [decimalDigit n]
      else decimalWithin fuel (n / 10) ++ [decimalDigit (n % 10)]

/-- Decimal numeral without leading zeros; a number has fewer digits than its own value,
or is below ten. -/
def decimal (n : Nat) : Bytes := decimalWithin n n

theorem decimalWithin_eq {fuel n : Nat} (h : n ≤ fuel) :
    decimalWithin fuel n =
      if n < 10 then [decimalDigit n] else decimal (n / 10) ++ [decimalDigit (n % 10)] := by
  induction fuel using Nat.strongRecOn generalizing n with
  | ind fuel ih =>
    cases fuel with
    | zero => simp [decimalWithin, show n = 0 by omega]
    | succ fuel =>
      by_cases hn : n < 10
      · simp [decimalWithin, hn]
      · have hq : n / 10 ≤ fuel := by omega
        have hd : n / 10 < fuel + 1 := by omega
        simp only [decimalWithin, hn, if_false, decimal]
        rw [ih fuel (by omega) hq, ih (n / 10) hd (Nat.le_refl _)]

theorem decimal_eq (n : Nat) :
    decimal n =
      if n < 10 then [decimalDigit n] else decimal (n / 10) ++ [decimalDigit (n % 10)] :=
  decimalWithin_eq (Nat.le_refl n)

def joinWith (separator : Bytes) : List Bytes → Bytes
  | [] => []
  | [text] => text
  | text :: rest => text ++ separator ++ joinWith separator rest

def quoted (text : Bytes) : Bytes := ascii "'" ++ text ++ ascii "'"

end TermRules

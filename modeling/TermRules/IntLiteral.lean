import TermRules.Bytes

/-!
# Integer literals

A literal keeps its sign apart from a 64-bit magnitude, so an all-ones mask is
as good a literal as a small number. A numeral is read in four steps: the sign,
the radix mark, the digits, and their value against the 64-bit limit.
-/

namespace TermRules

structure IntLiteral where
  negative : Bool
  magnitude : UInt64
deriving DecidableEq, Repr, Inhabited

namespace IntLiteral

def value (n : IntLiteral) : Int := if n.negative then -n.magnitude.toNat else n.magnitude.toNat

/-- Decimal text; zero is written without its sign. -/
def text (n : IntLiteral) : Bytes :=
  if n.negative && n.magnitude != 0 then Byte.minus :: decimal n.magnitude.toNat
  else decimal n.magnitude.toNat

end IntLiteral

namespace Numeral

inductive Fault
  | malformed
  | outOfRange
deriving DecidableEq, Repr

def splitSign : Bytes → Bool × Bytes
  | Byte.minus :: rest => (true, rest)
  | text => (false, text)

def markedRadix? (mark : UInt8) : Option Nat :=
  if mark = 120 ∨ mark = 88 then some 16
  else if mark = 111 ∨ mark = 79 then some 8
  else if mark = 98 ∨ mark = 66 then some 2
  else none

/-- A zero before a radix mark belongs to the mark. -/
def splitRadix (text : Bytes) : Nat × Bytes :=
  match text with
  | Byte.zero :: mark :: rest =>
      match markedRadix? mark with
      | some radix => (radix, rest)
      | none => (10, text)
  | _ => (10, text)

def digitValue? (b : UInt8) : Option Nat :=
  if Byte.isDigit b then some (b.toNat - 48)
  else if 97 ≤ b ∧ b ≤ 102 then some (b.toNat - 87)
  else if 65 ≤ b ∧ b ≤ 70 then some (b.toNat - 55)
  else none

def digit? (radix : Nat) (b : UInt8) : Option Nat := (digitValue? b).filter (· < radix)

/-- The digits of a numeral; separators may stand anywhere among them. -/
def digits? (radix : Nat) (body : Bytes) : Option (List Nat) :=
  (body.filter (· != Byte.underscore)).mapM (digit? radix)

def ofDigits (radix : Nat) (digits : List Nat) : Nat :=
  digits.foldl (fun n d => n * radix + d) 0

def magnitude (text : Bytes) : Except Fault UInt64 :=
  let (radix, body) := splitRadix text
  match digits? radix body with
  | none | some [] => .error .malformed
  | some digits =>
      let n := ofDigits radix digits
      if n < UInt64.size then .ok n.toUInt64 else .error .outOfRange

def isNegative (spelling : Bytes) : Bool := (splitSign spelling).1

def read (spelling : Bytes) : Except Fault IntLiteral :=
  (magnitude (splitSign spelling).2).map (IntLiteral.mk (isNegative spelling))

/-- The literal that stands for a spelling: a faulty one keeps its sign and has magnitude zero. -/
def readOrZero (spelling : Bytes) : IntLiteral :=
  match read spelling with
  | .ok n => n
  | .error _ => ⟨isNegative spelling, 0⟩

end Numeral

end TermRules

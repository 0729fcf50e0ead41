/-!
Exact decimals. A numeral is a whole number of units of some decimal place; it is read from digits with at
most one point among them, and it becomes a binary number only when it is computed with.
-/

namespace Tabletop

/-- The number `digits / 10 ^ places`. -/
structure Numeral where
  digits : Nat
  places : Nat
  deriving DecidableEq, Repr

namespace Numeral

/-- Digits and points, the characters that a written numeral may consist of. -/
def isPart (c : Char) : Bool := c.isDigit || c == '.'

/-- Some digit and at most one point. -/
def isWellFormed (cs : List Char) : Bool :=
  cs.all isPart && cs.any Char.isDigit && cs.count '.' ≤ 1

def ofChars (cs : List Char) : Numeral where
  digits := Nat.ofDigitChars 10 (cs.filter Char.isDigit) 0
  places := ((cs.dropWhile (· != '.')).drop 1).length

def ofChars? (cs : List Char) : Option Numeral :=
  if isWellFormed cs then some (ofChars cs) else none

def ofNat (n : Nat) : Numeral := ⟨n, 0⟩

/-- The nearest binary number. -/
def toFloat (n : Numeral) : Float := Float.ofScientific n.digits true n.places

theorem ofChars?_isSome (cs : List Char) : (ofChars? cs).isSome = isWellFormed cs := by
  unfold ofChars?
  split <;> simp_all

end Numeral

end Tabletop

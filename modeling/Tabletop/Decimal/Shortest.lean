import Tabletop.Decimal.Binary64

/-!
The shortest decimal of a binary number: of the decimals that lie closer to it than to any other binary
number, those with the fewest digits, and of those the nearest. A decimal half way to a neighbour belongs
to the number with the even significand. For one digit, two digits and so on up to seventeen, the two
neighbours of the number on the grid of that many digits are tried; all comparisons are between whole
numbers.
-/

namespace Tabletop

/-- The number `digits * 10 ^ exponent`. -/
structure Decimal where
  digits : Nat
  exponent : Int
  deriving DecidableEq, Repr

/-- Which of two equally near decimals is taken. -/
inductive Tie where
  | up
  | even
  deriving DecidableEq, Repr

namespace Decimal

/-- The same number without zeros at the end of its digits. -/
def withoutTrailingZeros (d : Decimal) : Decimal :=
  if d.digits ≠ 0 ∧ d.digits % 10 = 0 then
    withoutTrailingZeros ⟨d.digits / 10, d.exponent + 1⟩
  else d
termination_by d.digits
decreasing_by omega

end Decimal

/-- A positive number with the ends of the interval that rounds to it, all over one denominator. The
interval has its ends iff it is closed. -/
structure Neighbourhood where
  low : Nat
  value : Nat
  high : Nat
  unit : Nat
  closed : Bool
  deriving Repr

namespace Neighbourhood

/-- Around `m * 2 ^ e`. Below a power of two the next number is only half as far away as above it. -/
def ofParts (m : Nat) (e : Int) : Neighbourhood :=
  let scale := Nat.pow 2 (e - 2).toNat
  { low := (4 * m - if m = Nat.pow 2 52 ∧ -1074 < e then 1 else 2) * scale
    value := 4 * m * scale
    high := (4 * m + 2) * scale
    unit := Nat.pow 2 (2 - e).toNat
    closed := m % 2 = 0 }

/-- The same numbers, measured in units of `10 ^ p`. -/
def onGrid (n : Neighbourhood) (p : Int) : Neighbourhood :=
  let scale := Nat.pow 10 (-p).toNat
  { n with
    low := n.low * scale
    value := n.value * scale
    high := n.high * scale
    unit := n.unit * Nat.pow 10 p.toNat }

/-- The multiple `d` of the unit is positive and lies in the interval. -/
def admits (n : Neighbourhood) (d : Nat) : Bool :=
  0 < d && if n.closed then n.low ≤ d * n.unit && d * n.unit ≤ n.high
    else n.low < d * n.unit && d * n.unit < n.high

/-- The nearest multiple of the unit that lies in the interval. -/
def nearest? (n : Neighbourhood) (tie : Tie) : Option Nat :=
  let below := n.value / n.unit
  let above := below + 1
  match n.admits below, n.admits above with
  | false, false => none
  | true, false => some below
  | false, true => some above
  | true, true =>
    let middle := (below + above) * n.unit
    if 2 * n.value < middle then some below
    else if middle < 2 * n.value then some above
    else match tie with
      | .up => some above
      | .even => some (if below % 2 = 0 then below else above)

/-- The exponent of the greatest power of ten that is no greater than the number. -/
def leadingExponent (n : Neighbourhood) : Int :=
  if n.unit ≤ n.value then (Nat.toDigits 10 (n.value / n.unit)).length - 1
  else -(Nat.toDigits 10 ((n.unit - 1) / n.value)).length

end Neighbourhood

/-- The shortest decimal of the positive number `m * 2 ^ e`. -/
def Decimal.shortest (tie : Tie) (m : Nat) (e : Int) : Decimal :=
  let n := Neighbourhood.ofParts m e
  let lead := n.leadingExponent
  let found := (List.range 17).findSome? fun (i : Nat) =>
    ((n.onGrid (lead - i)).nearest? tie).map fun d => Decimal.mk d (lead - i)
  (found.getD ⟨4 * m, e - 2⟩).withoutTrailingZeros

end Tabletop

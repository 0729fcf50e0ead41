import Tabletop.Decimal.Numeral

/-!
Reading of written numbers with an optional sign and an optional power of ten, and of the words for the
numbers that are not finite. The result is the nearest binary number. A number whose leading digit lies
far outside the range of binary numbers is settled by its size alone, without forming the power.
-/

namespace Tabletop

/-- The nearest binary number to `m * 10 ^ e`. -/
def floatOfDecimal (m : Nat) (e : Int) : Float :=
  let size := e + (Nat.toDigits 10 m).length
  if m = 0 ∨ size < -330 then 0
  else if 330 < size then 1 / 0
  else match e with
    | .ofNat k => Float.ofScientific m false k
    | .negSucc k => Float.ofScientific m true (k + 1)

namespace NumberText

/-- A whole number with an optional sign. -/
def readInt? (cs : List Char) : Option Int :=
  let (negative, ds) := match cs with
    | '-' :: ds => (true, ds)
    | '+' :: ds => (false, ds)
    | ds => (false, ds)
  if ds ≠ [] ∧ ds.all Char.isDigit then
    let n := Nat.ofDigitChars 10 ds 0
    some (if negative then -n else n)
  else none

/-- A number without a sign. -/
def readMagnitude? (cs : List Char) : Option Float :=
  let word := cs.map Char.toLower
  if word = "inf".toList ∨ word = "infinity".toList then some (1 / 0)
  else if word = "nan".toList then some (0 / 0)
  else
    let isPower := fun c => c == 'e' || c == 'E'
    match Numeral.ofChars? (cs.takeWhile (!isPower ·)) with
    | none => none
    | some n =>
      match cs.dropWhile (!isPower ·) with
      | [] => some (floatOfDecimal n.digits (-n.places))
      | _ :: power => (readInt? power).map fun p => floatOfDecimal n.digits (p - n.places)

/-- A number with an optional sign. -/
def read? (cs : List Char) : Option Float :=
  match cs with
  | '-' :: rest => (readMagnitude? rest).map (-·)
  | '+' :: rest => readMagnitude? rest
  | rest => readMagnitude? rest

end NumberText

end Tabletop

/-!
The parts of a binary number of double precision: its sign and, when it is finite, a whole significand
and a power of two, so that questions about its exact value are questions about whole numbers. Subnormal
numbers have the least power and a significand below `2 ^ 52`.
-/

namespace Tabletop

/-- `finite negative m e` is `m * 2 ^ e` with a sign, which zero has too. -/
inductive Binary64 where
  | nan
  | infinite (negative : Bool)
  | finite (negative : Bool) (significand : Nat) (exponent : Int)
  deriving DecidableEq, Repr

namespace Binary64

def ofFloat (x : Float) : Binary64 :=
  let bits := x.toBits.toNat
  let negative := Nat.pow 2 63 ≤ bits
  let exponent : Nat := bits / Nat.pow 2 52 % Nat.pow 2 11
  let fraction : Nat := bits % Nat.pow 2 52
  if exponent = 2047 then
    if fraction = 0 then .infinite negative else .nan
  else if exponent = 0 then .finite negative fraction (-1074)
  else .finite negative (Nat.pow 2 52 + fraction) (exponent - 1075)

end Binary64

/-- The number `x` without its fraction, one further from zero where `away` says so of its sign, the
fraction's numerator and its denominator. -/
def wholeNear (away : Bool → Nat → Nat → Bool) (x : Float) : Float :=
  match Binary64.ofFloat x with
  | .finite negative m (.negSucc e) =>
    let unit := Nat.pow 2 (e + 1)
    let whole := Float.ofNat (m / unit + if away negative (m % unit) unit then 1 else 0)
    if negative then -whole else whole
  | _ => x

/-- The least whole number that is no less. -/
def wholeAbove : Float → Float := wholeNear fun negative rest _ => !negative && rest != 0

/-- The greatest whole number that is no greater. -/
def wholeBelow : Float → Float := wholeNear fun negative rest _ => negative && rest != 0

/-- The nearest whole number, a half going away from zero. -/
def wholeNearest : Float → Float := wholeNear fun _ rest unit => unit ≤ 2 * rest

end Tabletop

/-!
Whole numbers as text: their decimal digits, behind a minus sign if they are negative.
-/

namespace Tabletop

def intChars : Int → List Char
  | .ofNat n => Nat.toDigits 10 n
  | .negSucc n => '-' :: Nat.toDigits 10 (n + 1)

def intText (n : Int) : String := String.ofList (intChars n)

@[simp] theorem intChars_natCast (n : Nat) : intChars n = Nat.toDigits 10 n := rfl

end Tabletop

import Tabletop.Text.Blank
import Tabletop.Text.LowerCase

/-!
Pools of like dice. A pool is a count and a number of sides; before it is rolled both are brought within
their limits, at most a hundred dice and between one and a thousand sides. A pool is read from two runs of
digits around the letter `d`, however large the numbers: what does not fit into 32 bits is read as the
greatest number that does, and all that exceeds a limit means the limit.
-/

namespace Tabletop

structure Pool where
  count : Nat
  sides : Nat
  deriving DecidableEq, Repr

namespace Pool

def maxCount : Nat := 100

def maxSides : Nat := 1000

/-- The pool within the limits that is rolled in place of `p`. -/
def clamped (p : Pool) : Pool where
  count := min p.count maxCount
  sides := max 1 (min p.sides maxSides)

def chars (p : Pool) : List Char := Nat.toDigits 10 p.count ++ 'd' :: Nat.toDigits 10 p.sides

def text (p : Pool) : String := String.ofList p.chars

/-- Why a text names no pool. -/
inductive Fault where
  | missingLetter (text : String)
  | count (text : String)
  | sides (text : String)
  deriving DecidableEq, Repr

def Fault.message : Fault → String
  | missingLetter s => "Missing 'd' in dice notation: " ++ s
  | count s => "Invalid dice count: " ++ s
  | sides s => "Invalid die sides: " ++ s

/-- The greatest number of 32 bits. -/
def maxNumber : Nat := UInt32.size - 1

/-- The number that a nonempty run of digits denotes, or the greatest one if it does not fit. -/
def number? (cs : List Char) : Option Nat :=
  if cs ≠ [] ∧ cs.all Char.isDigit then some (min (Nat.ofDigitChars 10 cs 0) maxNumber) else none

/-- The pool that a text names, blanks at its ends and letter case aside. -/
def ofText (text : String) : Except Fault Pool :=
  let cs := Text.lower (Text.trim text.toList)
  match cs.dropWhile (· != 'd') with
  | [] => .error (.missingLetter text)
  | _ :: after =>
    let before := cs.takeWhile (· != 'd')
    match number? before, number? after with
    | none, _ => .error (.count (String.ofList before))
    | some _, none => .error (.sides (String.ofList after))
    | some count, some sides => .ok (clamped ⟨count, sides⟩)

theorem clamped_count_le (p : Pool) : p.clamped.count ≤ maxCount := Nat.min_le_right ..

theorem one_le_clamped_sides (p : Pool) : 1 ≤ p.clamped.sides := Nat.le_max_left ..

theorem clamped_sides_le (p : Pool) : p.clamped.sides ≤ maxSides :=
  Nat.max_le.2 ⟨by decide, Nat.min_le_right ..⟩

/-- What does not fit exceeds the limits in any case. -/
theorem clamped_min_maxNumber (count sides : Nat) :
    clamped ⟨min count maxNumber, min sides maxNumber⟩ = clamped ⟨count, sides⟩ := by
  simp only [clamped, maxCount, maxSides, maxNumber, UInt32.size, mk.injEq]
  omega

@[simp] theorem clamped_clamped (p : Pool) : p.clamped.clamped = p.clamped := by
  simp only [clamped, maxCount, maxSides, mk.injEq]
  omega

end Pool

end Tabletop

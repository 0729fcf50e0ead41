import Tabletop.Text.Blank

/-!
The repetition mark of a query. The first letter `x` divides a query into a count and the query that is
repeated. A count is a whole number below `2 ^ 64`, blanks around it and a plus sign before it aside, and
whatever cannot be read so counts as zero.
-/

namespace Tabletop.Query

def isRepetitionMark (c : Char) : Bool := c == 'x' || c == 'X'

/-- Whether there is anything to do: an operator, the letter of a die or a repetition mark. -/
def isWorthReading (cs : List Char) : Bool :=
  cs.any fun c => c == '-' || c == '+' || c == '*' || c == '/' || c == 'd' || c == 'D' ||
    isRepetitionMark c

/-- The number of repetitions that the text before a mark asks for. -/
def repetitionCount (cs : List Char) : Nat :=
  let digits := match Text.trim cs with
    | '+' :: ds => ds
    | ds => ds
  let n := Nat.ofDigitChars 10 digits 0
  if digits ≠ [] ∧ digits.all Char.isDigit ∧ n < UInt64.size then n else 0

/-- The count before the first mark and the query behind it. -/
def splitRepetition? (cs : List Char) : Option (Nat × List Char) :=
  match cs.dropWhile (!isRepetitionMark ·) with
  | [] => none
  | _ :: rest => some (repetitionCount (cs.takeWhile (!isRepetitionMark ·)), rest)

theorem splitRepetition?_eq_none_iff {cs : List Char} :
    splitRepetition? cs = none ↔ ∀ c ∈ cs, isRepetitionMark c = false := by
  induction cs with
  | nil => simp [splitRepetition?]
  | cons c cs ih =>
    unfold splitRepetition? at ih ⊢
    cases hc : isRepetitionMark c <;> simp_all
    rw [← ih]
    split <;> simp

end Tabletop.Query

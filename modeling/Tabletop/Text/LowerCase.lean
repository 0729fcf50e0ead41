import Tabletop.Text.CaseTable

/-!
Lower-casing of whole texts. Each character goes to its lower case on its own, with two exceptions that
the Unicode standard makes: the capital I with a dot becomes two characters, and a capital sigma becomes
the final form where it ends a word. A sigma ends a word when a cased character comes before it and none
after it, ignorable characters being skipped on both sides.
-/

namespace Tabletop.Text

def inRanges (ranges : List (Nat × Nat)) (c : Char) : Bool :=
  ranges.any fun r => r.1 ≤ c.toNat && c.toNat ≤ r.2

def isCased (c : Char) : Bool := inRanges casedRanges c

def isCaseIgnorable (c : Char) : Bool := inRanges caseIgnorableRanges c

/-- The lower case of a character by itself. -/
def lowerChar (c : Char) : List Char :=
  if c.toNat < 0x80 then [c.toLower]
  else if c = 'İ' then ['i', '\u0307']
  else match lowerCaseShifts.findSome? (·.image? c.toNat) with
    | some n => [Char.ofNat n]
    | none => [c]

/-- A cased character comes next, ignorable ones aside. -/
def continuesWord (cs : List Char) : Bool :=
  match cs.dropWhile isCaseIgnorable with
  | [] => false
  | c :: _ => isCased c

/-- Lower-casing behind a text whose last character that is not ignorable is cased iff `inWord`. -/
def lowerFrom (inWord : Bool) : List Char → List Char
  | [] => []
  | c :: cs =>
    let image :=
      if c = 'Σ' then [if inWord && !continuesWord cs then 'ς' else 'σ'] else lowerChar c
    image ++ lowerFrom (if isCaseIgnorable c then inWord else isCased c) cs

/-- A text in lower case. -/
def lower (cs : List Char) : List Char := lowerFrom false cs

@[simp] theorem lower_nil : lower [] = [] := rfl

theorem lowerChar_ascii {c : Char} (h : c.toNat < 0x80) : lowerChar c = [c.toLower] := by
  simp [lowerChar, h]

end Tabletop.Text

/-!
Quoted text. Between double quotes a backslash begins an escape: one letter for some control characters, the
backslash or the quote itself, or the code point of a character in four or eight hexadecimal digits. Control
characters other than the tab stand there only escaped.
-/

namespace Tabletop.Text

/-- Tabs and all characters that are not control characters of ASCII. -/
def isPrintable (c : Char) : Bool := c == '\t' || (0x20 ≤ c.toNat && c.toNat != 0x7F)

/-- The value of a digit, whose letters count on from ten. -/
def digitValue? (c : Char) : Option Nat :=
  if c.isDigit then some (c.toNat - '0'.toNat)
  else if 'a' ≤ c ∧ c ≤ 'z' then some (c.toNat - 'a'.toNat + 10)
  else if 'A' ≤ c ∧ c ≤ 'Z' then some (c.toNat - 'A'.toNat + 10)
  else none

/-- The number that a nonempty run of digits in a base denotes. -/
def numberInBase? (base : Nat) (cs : List Char) : Option Nat :=
  if cs = [] then none
  else cs.foldl
    (fun n? c => do
      let n ← n?
      let d ← digitValue? c
      if d < base then some (n * base + d) else none)
    (some 0)

/-- The character that a letter behind a backslash stands for. -/
def escapedChar? : Char → Option Char
  | 'b' => some '\x08'
  | 't' => some '\t'
  | 'n' => some '\n'
  | 'f' => some '\x0c'
  | 'r' => some '\r'
  | '"' => some '"'
  | '\\' => some '\\'
  | _ => none

/-- The character with a code point written in hexadecimal digits. -/
def codePoint? (cs : List Char) : Option Char := do
  let n ← numberInBase? 16 cs
  if n.isValidChar then some (Char.ofNat n) else none

/-- The text before the closing quote, its escapes resolved, and what stands behind the quote. -/
def readQuoted? : List Char → Option (List Char × List Char)
  | '"' :: rest => some ([], rest)
  | '\\' :: 'u' :: a :: b :: c :: d :: rest => do
    let c ← codePoint? [a, b, c, d]
    let (cs, rest) ← readQuoted? rest
    some (c :: cs, rest)
  | '\\' :: 'U' :: a :: b :: c :: d :: e :: f :: g :: h :: rest => do
    let c ← codePoint? [a, b, c, d, e, f, g, h]
    let (cs, rest) ← readQuoted? rest
    some (c :: cs, rest)
  | '\\' :: letter :: rest => do
    let c ← escapedChar? letter
    let (cs, rest) ← readQuoted? rest
    some (c :: cs, rest)
  | c :: rest => do
    if c ≠ '\\' ∧ isPrintable c then
      let (cs, rest) ← readQuoted? rest
      some (c :: cs, rest)
    else none
  | [] => none

end Tabletop.Text

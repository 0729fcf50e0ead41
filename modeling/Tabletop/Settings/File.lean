import Tabletop.Settings.Basic
import Tabletop.Text.Blank
import Tabletop.Text.Quoted

/-!
Files of settings. A line gives a value to a key, or is empty; a comment may end it. Keys are bare or
quoted, and values are truth values, whole numbers of 64 bits in one of four bases, or quoted text. A file
in which some line is anything else, or some key has two values, cannot be read at all. One byte-order mark
in front of the first line does not belong to it. This is the plain part of a larger format; the other ways to
write a value, and tables, are not read here.
-/

namespace Tabletop.Settings

/-- The file that is looked up if no other is named. -/
def defaultFile : String := "logidice.toml"

def isGap (c : Char) : Bool := c == ' ' || c == '\t'

def skipGap (cs : List Char) : List Char := cs.dropWhile isGap

/-- Whether a line may end with a text. -/
def isLineEnd (cs : List Char) : Bool :=
  match skipGap cs with
  | [] => true
  | '#' :: comment => comment.all Text.isPrintable
  | _ => false

/-- The digits of a number, which underscores may hold apart. -/
def joinDigits? : List Char → Option (List Char)
  | [] => none
  | [c] => if c.isAlphanum then some [c] else none
  | c :: '_' :: cs => if c.isAlphanum then (joinDigits? cs).map (c :: ·) else none
  | c :: cs => if c.isAlphanum then (joinDigits? cs).map (c :: ·) else none

def magnitude? (base : Nat) (cs : List Char) : Option Nat :=
  (joinDigits? cs).bind (Text.numberInBase? base)

/-- A number in decimal digits, of which the first is not zero unless it is the only one. -/
def decimalMagnitude? (cs : List Char) : Option Nat :=
  match cs with
  | '0' :: _ :: _ => none
  | cs => magnitude? 10 cs

def integer? (cs : List Char) : Option Int :=
  match cs with
  | '0' :: 'x' :: ds => (magnitude? 16 ds).map Int.ofNat
  | '0' :: 'o' :: ds => (magnitude? 8 ds).map Int.ofNat
  | '0' :: 'b' :: ds => (magnitude? 2 ds).map Int.ofNat
  | '+' :: ds => (decimalMagnitude? ds).map Int.ofNat
  | '-' :: ds => (decimalMagnitude? ds).map fun n => -Int.ofNat n
  | ds => (decimalMagnitude? ds).map Int.ofNat

/-- The value that a word without quotes stands for. -/
def wordValue? (cs : List Char) : Option Json :=
  if cs = "true".toList then some (.bool true)
  else if cs = "false".toList then some (.bool false)
  else (integer? cs).bind fun n =>
    if Int64.minValue.toInt ≤ n ∧ n ≤ Int64.maxValue.toInt then some (.number (.ofInt n)) else none

def isKeyChar (c : Char) : Bool := c.isAlphanum || c == '_' || c == '-'

def readKey? : List Char → Option (String × List Char)
  | '"' :: rest => (Text.readQuoted? rest).map fun (key, rest) => (String.ofList key, rest)
  | cs =>
    match cs.takeWhile isKeyChar with
    | [] => none
    | key => some (String.ofList key, cs.dropWhile isKeyChar)

def readValue? : List Char → Option (Json × List Char)
  | '"' :: rest => (Text.readQuoted? rest).map fun (text, rest) => (.string (String.ofList text), rest)
  | cs =>
    let isWordChar := fun c => !isGap c && c != '#'
    (wordValue? (cs.takeWhile isWordChar)).map fun value => (value, cs.dropWhile isWordChar)

/-- The key and the value that a line gives, if it is not empty; no answer if it is neither. -/
def readLine? (cs : List Char) : Option (Option (String × Json)) :=
  if isLineEnd cs then some none
  else do
    let (key, rest) ← readKey? (skipGap cs)
    match skipGap rest with
    | '=' :: rest =>
      let (value, rest) ← readValue? (skipGap rest)
      if isLineEnd rest then some (some (key, value)) else none
    | _ => none

def skipOrderMark : List Char → List Char
  | '\ufeff' :: cs => cs
  | cs => cs

/-- The layer that the text of a file makes. -/
def ofFile? (text : String) : Option Layer := do
  let entries ← (Text.lines (skipOrderMark text.toList)).mapM readLine?
  let layer := entries.filterMap id
  if (layer.map Prod.fst).Nodup then some layer else none

end Tabletop.Settings

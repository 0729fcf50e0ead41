import Tabletop.Decimal.Layout

/-!
JSON values and their indented text. An object keeps its members in order. Each member and each element
stands on a line of its own, two spaces further in than what holds it; an empty list or object is written
without a line break. A number that is not finite has no JSON form and is written as `null`.
-/

namespace Tabletop

inductive Json where
  | null
  | bool (value : Bool)
  | number (value : Float)
  | string (text : String)
  | list (elements : List Json)
  | object (members : List (String × Json))
  deriving Inhabited

namespace Json

def hexDigit (n : Nat) : Char := (Nat.digitChar n)

/-- A character inside the quotes of a JSON string. -/
def escapeChar (c : Char) : List Char :=
  if c = '"' then ['\\', '"']
  else if c = '\\' then ['\\', '\\']
  else if c = '\n' then ['\\', 'n']
  else if c = '\r' then ['\\', 'r']
  else if c = '\t' then ['\\', 't']
  else if c.toNat = 0x08 then ['\\', 'b']
  else if c.toNat = 0x0C then ['\\', 'f']
  else if c.toNat < 0x20 then
    ['\\', 'u', '0', '0', hexDigit (c.toNat / 16), hexDigit (c.toNat % 16)]
  else [c]

/-- A text in quotes. -/
def quote (s : String) : String :=
  String.ofList ('"' :: s.toList.flatMap escapeChar ++ ['"'])

def numberText (x : Float) : String :=
  if x.isFinite then NumberStyle.json.text x else "null"

/-- Lines between brackets, one step further in than the brackets. -/
def bracketed (opening closing : String) (depth : Nat) (lines : List String) : String :=
  let indent (d : Nat) := "\n" ++ String.ofList (List.replicate (2 * d) ' ')
  match lines with
  | [] => opening ++ closing
  | lines =>
    opening ++ indent (depth + 1) ++ ("," ++ indent (depth + 1)).intercalate lines ++
      indent depth ++ closing

mutual

/-- The text of a value whose first line is not set in and whose other lines are, at least by `depth`. -/
def prettyAt (depth : Nat) : Json → String
  | null => "null"
  | bool true => "true"
  | bool false => "false"
  | number x => numberText x
  | string s => quote s
  | list elements => bracketed "[" "]" depth (prettyElements (depth + 1) elements)
  | object members => bracketed "\x7b" "\x7d" depth (prettyMembers (depth + 1) members)

def prettyElements (depth : Nat) : List Json → List String
  | [] => []
  | j :: js => prettyAt depth j :: prettyElements depth js

def prettyMembers (depth : Nat) : List (String × Json) → List String
  | [] => []
  | (name, j) :: ms => (quote name ++ ": " ++ prettyAt depth j) :: prettyMembers depth ms

end

def pretty (j : Json) : String := prettyAt 0 j

end Json

end Tabletop

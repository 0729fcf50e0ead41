import Tabletop.Decimal.Reading
import Tabletop.Settings.Basic
import Tabletop.Text.Blank
import Tabletop.Text.Quoted

/-!
Settings from environment variables. A variable whose name begins with a common opening, in any letter case,
sets the key that follows. Its value is trimmed; it is a truth value, a number or quoted text if it
reads as one, and otherwise the text that it is. Without a point only whole numbers of 64 bits, signed or
not, are numbers; so the words for numbers that are not finite are text, and so is `1e5`. Lists, objects and
single characters, which some write in such values, are taken as text as well.
-/

namespace Tabletop.Settings

/-- How the names of variables begin that hold settings. -/
def variableOpening : String := "LOGIDICE_"

/-- The key that a variable sets. -/
def variableKey? (opening name : String) : Option String :=
  let cs := Text.trim name.toList
  let n := opening.length
  if (cs.take n).map Char.toLower = opening.toList.map Char.toLower then
    match Text.trim (cs.drop n) with
    | [] => none
    | key => some (String.ofList (key.map Char.toLower))
  else none

/-- The number that a text with a point, or with a whole number that 64 bits can hold, stands for. -/
def variableNumber? (cs : List Char) : Option Float :=
  if '.' ∈ cs then NumberText.read? cs
  else (NumberText.readInt? cs).bind fun n =>
    if Int64.minValue.toInt ≤ n ∧ n < Int.ofNat UInt64.size then some (.ofInt n) else none

/-- The value that the text of a variable stands for. -/
def variableValue (text : String) : Json :=
  let cs := Text.trim text.toList
  if cs = "true".toList then .bool true
  else if cs = "false".toList then .bool false
  else
    let bare := Json.string (String.ofList cs)
    match cs with
    | '"' :: rest =>
      match Text.readQuoted? rest with
      | some (inner, []) => .string (String.ofList inner)
      | _ => bare
    | cs =>
      match variableNumber? cs with
      | some x => .number x
      | none => bare

/-- The layer that an environment makes, which gives variables by name and text. -/
def ofEnvironment (opening : String) (environment : List (String × String)) : Layer :=
  environment.filterMap fun (name, text) =>
    (variableKey? opening name).map fun key => (key, variableValue text)

end Tabletop.Settings

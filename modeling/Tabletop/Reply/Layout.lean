import Tabletop.Decimal.Layout
import Tabletop.Query.Result
import Tabletop.Reply.Markup

/-!
The text of a reply. What a host can display decides between three layouts: everything on one line, with
each repetition in angular quotes; several lines, with a header for each repetition and an item for each of
its rolls, set in by its depth; or the several lines folded away behind a summary that shows the total.
-/

namespace Tabletop

/-- What a host can display. -/
structure Display where
  multiline : Bool
  collapsible : Bool
  deriving DecidableEq, Repr

inductive Layout where
  | singleLine
  | multiLine
  | collapsible
  deriving DecidableEq, Repr

/-- A block that folds needs several lines as well. -/
def Display.layout : Display → Layout
  | ⟨false, _⟩ => .singleLine
  | ⟨true, false⟩ => .multiLine
  | ⟨true, true⟩ => .collapsible

namespace Result

mutual

/-- The rolls of a result on one line. -/
def lineBody : Result String → String
  | leaf _ _ lines => " | ".intercalate lines
  | repeated _ _ _ parts => " | ".intercalate (quotedBodies parts)

def quotedBodies : List (Result String) → List String
  | [] => []
  | r :: rs => ("«" ++ lineBody r ++ "»") :: quotedBodies rs

end

/-- Two spaces per level. -/
def indent (depth : Nat) : String := String.ofList (List.replicate (2 * depth) ' ')

/-- A repetition's header. -/
def header (markup : Markup) (depth : Nat) (input : String) : String :=
  indent depth ++ markup.emphasize input ++ ":\n"

/-- The item of one roll. -/
def item (depth : Nat) (line : String) : String := indent depth ++ "- " ++ line

mutual

/-- A repetition with its rolls or with the repetitions inside it. -/
def block (markup : Markup) (depth : Nat) : Result String → String
  | leaf input _ lines =>
    header markup depth input ++ "\n".intercalate (lines.map (item depth)) ++ "\n"
  | repeated input _ _ parts =>
    header markup depth input ++ "\n".intercalate (blocks markup (depth + 1) parts) ++ "\n"

def blocks (markup : Markup) (depth : Nat) : List (Result String) → List String
  | [] => []
  | r :: rs => block markup depth r :: blocks markup depth rs

end

/-- The rolls of a result on several lines. -/
def blockBody (markup : Markup) : Result String → String
  | leaf _ _ lines => "\n".intercalate lines
  | repeated _ _ _ parts => "\n".intercalate (blocks markup 0 parts)

def totalText (r : Result String) : String := NumberStyle.plain.text r.total

/-- A result as the text of a reply. -/
def reply (markup : Markup) (layout : Layout) (r : Result String) : String :=
  let total := markup.emphasize r.totalText
  match layout with
  | .singleLine =>
    "You rolled: " ++ r.input ++ " || " ++ r.lineBody ++ " || Total: " ++ total
  | .multiLine =>
    "You rolled " ++ r.input ++ "\n\n" ++ r.blockBody markup ++ "\nTotal: " ++ total
  | .collapsible =>
    markup.collapsible
      (markup.emphasize "Your rolls" ++ ": \n" ++ r.blockBody markup ++ "\nTotal: " ++ total)
      ("You rolled " ++ r.input ++ ": " ++ r.totalText)

section Layouts

variable (markup : Markup) (r : Result String)

theorem reply_singleLine : r.reply markup .singleLine =
    "You rolled: " ++ r.input ++ " || " ++ r.lineBody ++ " || Total: " ++ markup.emphasize r.totalText := rfl

theorem reply_multiLine : r.reply markup .multiLine =
    "You rolled " ++ r.input ++ "\n\n" ++ r.blockBody markup ++ "\nTotal: " ++ markup.emphasize r.totalText := rfl

theorem reply_collapsible : r.reply markup .collapsible = markup.collapsible
    (markup.emphasize "Your rolls" ++ ": \n" ++ r.blockBody markup ++ "\nTotal: " ++ markup.emphasize r.totalText)
    ("You rolled " ++ r.input ++ ": " ++ r.totalText) := rfl

end Layouts

theorem quotedBodies_eq (rs : List (Result String)) :
    quotedBodies rs = rs.map fun r => "«" ++ lineBody r ++ "»" := by
  induction rs with
  | nil => rfl
  | cons r rs ih => rw [quotedBodies, ih, List.map_cons]

theorem blocks_eq (markup : Markup) (depth : Nat) (rs : List (Result String)) :
    blocks markup depth rs = rs.map (block markup depth) := by
  induction rs with
  | nil => rfl
  | cons r rs ih => rw [blocks, ih, List.map_cons]

end Result

end Tabletop

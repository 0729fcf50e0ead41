import Tabletop.Command.Responder
import Tabletop.Json.Encoding

/-!
Settings of a host. They are read off a layer, which gives values to some keys, and checked in the order of the
keys; keys without a value keep their default and unknown keys are ignored. Text folds away only where the host
can fold it and the settings ask for it.
-/

namespace Tabletop

/-- The markups that can be set. -/
inductive MarkupChoice where
  | markdown
  | plain
  deriving DecidableEq, Repr

namespace MarkupChoice

def name : MarkupChoice → String
  | markdown => "markdown"
  | plain => "plain"

def ofName? : String → Option MarkupChoice
  | "markdown" => some markdown
  | "plain" => some plain
  | _ => none

def markup : MarkupChoice → Markup
  | markdown => .markdown
  | plain => .plain

@[simp] theorem ofName?_name (choice : MarkupChoice) : ofName? choice.name = some choice := by
  cases choice <;> rfl

end MarkupChoice

structure Settings where
  /-- Whether text is to be folded away where that can be done. -/
  spoilers : Bool := false
  multiline : Bool := false
  collapsible : Bool := false
  markup : MarkupChoice := .markdown
  logFilter : String := "logidice=info"
  logJson : Bool := false
  deriving DecidableEq, Repr

namespace Settings

/-- The values of some keys. -/
abbrev Layer := List (String × Json)

/-- Why there are no settings: a file cannot be read, or the value of a key is of no use. -/
inductive Fault where
  | malformed
  | invalidType (key : String)
  | unknownVariant (key : String)
  deriving DecidableEq, Repr

def flag (layer : Layer) (key : String) (default : Bool) : Except Fault Bool :=
  match layer.lookup key with
  | none => .ok default
  | some (.bool b) => .ok b
  | some _ => .error (.invalidType key)

def text (layer : Layer) (key : String) (default : String) : Except Fault String :=
  match layer.lookup key with
  | none => .ok default
  | some (.string s) => .ok s
  | some _ => .error (.invalidType key)

def markupChoice (layer : Layer) (key : String) (default : MarkupChoice) : Except Fault MarkupChoice :=
  match layer.lookup key with
  | none => .ok default
  | some j =>
    match j.variantName? with
    | none => .error (.invalidType key)
    | some name =>
      match MarkupChoice.ofName? name with
      | none => .error (.unknownVariant key)
      | some choice => .ok choice

/-- The settings that a layer amounts to. -/
def ofLayer (layer : Layer) : Except Fault Settings := do
  let initial : Settings := {}
  let collapsible ← flag layer "collapsible" initial.collapsible
  let markup ← markupChoice layer "formatter" initial.markup
  let logFilter ← text layer "log_filter" initial.logFilter
  let logJson ← flag layer "log_json" initial.logJson
  let multiline ← flag layer "multiline" initial.multiline
  let spoilers ← flag layer "spoilers" initial.spoilers
  .ok { spoilers, multiline, collapsible, markup, logFilter, logJson }

/-- The values of all keys, in the order in which they are checked. -/
def entries (s : Settings) : Layer :=
  [("collapsible", .bool s.collapsible), ("formatter", .string s.markup.name), ("log_filter", .string s.logFilter),
    ("log_json", .bool s.logJson), ("multiline", .bool s.multiline), ("spoilers", .bool s.spoilers)]

/-- The settings that an object holds. -/
def ofJson? : Json → Option Settings
  | .object members => (ofLayer members).toOption
  | _ => none

def display (s : Settings) : Display where
  multiline := s.multiline
  collapsible := s.collapsible && s.spoilers

def responder (s : Settings) : Responder where
  markup := s.markup.markup
  display := s.display

end Settings

end Tabletop

import Tabletop.Command.Responder

/-!
Running commands. A command is found by its name in the table of the commands and replies with text, or it
shows its result as JSON instead. A session runs one command per line: the first word of the line names the
command and the rest is the query. Replies and faults of a session go to two outputs, each on lines of its
own, and a line at fault does not end the session. What happens on the way can be logged, and then stands
among the faults.
-/

namespace Tabletop.CommandLine

variable {σ : Type} [DieSource σ]

/-- Runs the command with a name on a query. -/
def runCommand (responder : Responder) (jsonText : Result String → String) (json : Bool) (name query : String)
    (tray : Tray σ) : Except Failure String × Tray σ :=
  if json then
    match Command.ofText name with
    | .error e => (.error e, tray)
    | .ok command =>
      let (outcome, tray) := responder.answer query command.mode tray
      (outcome.map jsonText, tray)
  else (responder.activate .empty).dispatch name [query] tray

/-- The command's name and the query on a line; a blank line has none. -/
def lineRequest? (line : List Char) : Option (String × String) :=
  match Text.trim line with
  | [] => none
  | cs =>
    let (name, query) := Text.splitWord cs
    some (String.ofList name, String.ofList (Text.trim query))

/-- What can be logged. -/
inductive Event (σ : Type) where
  | activated (commands : Nat)
  /-- All that happens inside a command, which is settled by what the command is run on. -/
  | ran (json : Bool) (name query : String) (tray : Tray σ)
  | failed (name : String) (failure : Failure)

/-- What is meant for the error output: a text as it is, or an event in case it is logged. -/
inductive Note (σ : Type) where
  | text (text : String)
  | event (event : Event σ)

/-- A command, what it was run on and what came of it. -/
structure Exchange (σ : Type) where
  name : String
  query : String
  tray : Tray σ
  outcome : Except Failure String

namespace Exchange

/-- What an exchange adds to the standard output. -/
def replyText (exchange : Exchange σ) : String :=
  match exchange.outcome with
  | .ok reply => reply ++ "\n"
  | .error _ => ""

/-- What an exchange on a line adds to the error output. -/
def notes (json : Bool) (exchange : Exchange σ) : List (Note σ) :=
  .event (.ran json exchange.name exchange.query exchange.tray) ::
    match exchange.outcome with
    | .ok _ => []
    | .error e => [.event (.failed exchange.name e), .text ("error: " ++ e.message ++ "\n")]

end Exchange

/-- The exchange for each line that is not blank. -/
def runLines (responder : Responder) (jsonText : Result String → String) (json : Bool) :
    List (List Char) → Tray σ → List (Exchange σ)
  | [], _ => []
  | line :: lines, tray =>
    match lineRequest? line with
    | none => runLines responder jsonText json lines tray
    | some (name, query) =>
      let (outcome, after) := runCommand responder jsonText json name query tray
      ⟨name, query, tray, outcome⟩ :: runLines responder jsonText json lines after

end Tabletop.CommandLine

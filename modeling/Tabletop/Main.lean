import Tabletop.CommandLine.Run

/-!
The program itself: it gathers what a run needs, the file of settings, the environment and a seed for the
dice, and writes what the run answers. Without a command it answers line by line as the lines come in.
-/

namespace Tabletop.CommandLine

/-- The text of a file, if there is such a file. -/
def readFile? (path : String) : IO (Option String) := do
  try return some (← IO.FS.readFile path) catch _ => return none

/-- The variables of the environment; where they cannot be listed, those with names in upper case. -/
def environment : IO (List (String × String)) := do
  match ← readFile? "/proc/self/environ" with
  | some listing =>
    return (listing.splitOn "\x00").map fun entry =>
      let cs := entry.toList
      (String.ofList (cs.takeWhile (· != '=')), String.ofList ((cs.dropWhile (· != '=')).drop 1))
  | none =>
    let keys := ["SPOILERS", "MULTILINE", "COLLAPSIBLE", "FORMATTER", "LOG_FILTER", "LOG_JSON"]
    let names := filterVariable :: keys.map (Settings.variableOpening ++ ·)
    names.filterMapM fun name => return (← IO.getEnv name).map fun value => (name, value)

def randomDice : IO RandomDice := do
  let seed ← IO.getRandomBytes 8
  return ⟨mkStdGen (seed.toList.foldl (fun n b => 256 * n + b.toNat) 0)⟩

def write (outcome : Outcome) : IO UInt32 := do
  IO.print outcome.stdout
  IO.eprint outcome.stderr
  return outcome.exit.toUInt32

/-- What is written of notes, behind so many others. -/
def noteTexts {σ : Type} (log : Nat → Event σ → String) (earlier : Nat) (notes : List (Note σ)) : String :=
  String.join ((notes.zipIdx earlier).map (Report.noteText log))

/-- Answers the lines of the standard input until it ends. -/
partial def serve (toolkit : Toolkit RandomDice) (responder : Responder) (json : Bool)
    (log : Nat → Event RandomDice → String) (earlier : Nat) (tray : Tray RandomDice) : IO UInt32 := do
  let stdin ← IO.getStdin
  let line ← stdin.getLine
  if line.isEmpty then return 0
  match lineRequest? line.toList with
  | none => serve toolkit responder json log earlier tray
  | some (name, query) =>
    let (outcome, after) := runCommand responder toolkit.jsonText json name query tray
    let exchange : Exchange RandomDice := ⟨name, query, tray, outcome⟩
    IO.print exchange.replyText
    (← IO.getStdout).flush
    let notes := exchange.notes json
    IO.eprint (noteTexts log earlier notes)
    serve toolkit responder json log (earlier + notes.length) (Tray.ofDice after.dice)

end Tabletop.CommandLine

open Tabletop Tabletop.CommandLine in
def main (arguments : List String) : IO UInt32 := do
  let toolkit : Toolkit RandomDice := .usual
  match toolkit.readArguments arguments with
  | .error outcome => write outcome
  | .ok invocation =>
    let listed ← environment
    match invocation.settings toolkit.settings (← readFile? invocation.file) listed with
    | .error fault => write (.failure (toolkit.complaint fault.message (fault.causes toolkit.settings)))
    | .ok settings =>
      let log := toolkit.logged (toolkit.log listed settings)
      let tray := Tray.ofDice (← randomDice)
      if invocation.words.isEmpty then
        IO.eprint (log 0 (.activated Command.all.length))
        serve toolkit settings.responder (invocation.has .json) log 1 tray
      else write (invocation.report toolkit settings.responder log "" tray).outcome

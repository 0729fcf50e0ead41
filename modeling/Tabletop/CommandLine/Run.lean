import Tabletop.CommandLine.Arguments
import Tabletop.CommandLine.Session
import Tabletop.Json.Encoding
import Tabletop.Settings.Load

/-!
One run of the program. The arguments are read first and the settings next, so that faults of the arguments
come before those of the settings, and both before any die is rolled. Then a single command is run, if one
is named, or else those on the lines of the standard input. How arguments are read, what is logged and in
which words errors and results are told is up to a toolkit; the usual one logs nothing.
-/

namespace Tabletop.CommandLine

/-- How a run ends, and what it has written. -/
structure Outcome where
  exit : Nat
  stdout : String
  stderr : String
  deriving DecidableEq, Repr

namespace Outcome

def success (stdout : String) : Outcome := ⟨0, stdout, ""⟩

/-- A run that ends with an error, whatever is told of it. -/
def failure (told : String) : Outcome := ⟨1, "", "Error: " ++ told ++ "\n"⟩

def usage (fault : UsageFault) : Outcome := ⟨2, "", "error: " ++ fault.message ++ "\n"⟩

end Outcome

/-- Which events are logged, and whether as JSON. -/
structure Log where
  filter : String
  json : Bool
  deriving DecidableEq, Repr

/-- What a run is done with. -/
structure Toolkit (σ : Type) where
  /-- Reads the arguments, or ends the run if they do not ask for one. -/
  readArguments : List String → Except Outcome Invocation
  settings : Settings.Library
  /-- Whether a text can be the filter of a log. -/
  isFilter : String → Bool
  /-- What a log adds to the error output for an event behind so many notes; with the first event also what it has
  to say of its filter. -/
  logged : Log → (earlier : Nat) → Event σ → String
  /-- What is told of an error with its causes. -/
  complaint : (message : String) → (causes : List String) → String
  /-- The text of a result as JSON. -/
  jsonText : Result String → String

/-- Why a run does not get as far as its first command. -/
inductive StartFault where
  | missingFile (path : String)
  | settings (fault : Settings.Fault)
  deriving DecidableEq, Repr

namespace StartFault

def message : StartFault → String
  | missingFile path => "Config file not found: " ++ path
  | settings _ => "Failed to load configuration"

def causes (library : Settings.Library) : StartFault → List String
  | missingFile _ => []
  | settings fault => [library.explain fault]

end StartFault

/-- A run as far as it does not hang on how its events are logged. -/
structure Report (σ : Type) where
  exit : Nat
  stdout : String
  notes : List (Note σ)
  log : (earlier : Nat) → Event σ → String

namespace Report

variable {σ : Type}

/-- A report of a run that has ended before anything could be logged. -/
def ofOutcome (outcome : Outcome) : Report σ where
  exit := outcome.exit
  stdout := outcome.stdout
  notes := [.text outcome.stderr]
  log _ _ := ""

/-- The report of a session with these exchanges. -/
def ofExchanges (json : Bool) (log : (earlier : Nat) → Event σ → String) (exchanges : List (Exchange σ)) :
    Report σ where
  exit := 0
  stdout := String.join (exchanges.map Exchange.replyText)
  notes := .event (.activated Command.all.length) :: exchanges.flatMap (Exchange.notes json)
  log := log

def noteText (log : Nat → Event σ → String) : Note σ × Nat → String
  | (.text text, _) => text
  | (.event event, earlier) => log earlier event

def outcome (report : Report σ) : Outcome where
  exit := report.exit
  stdout := report.stdout
  stderr := String.join (report.notes.zipIdx.map (noteText report.log))

/-- The outcome but for all that is logged, which goes to the error output only. -/
def unlogged (report : Report σ) : Outcome := outcome { report with log := fun _ _ => "" }

end Report

/-- The variable of the environment that can name the filter of the log. -/
def filterVariable : String := "RUST_LOG"

namespace Toolkit

variable {σ : Type}

/-- The log that an environment asks for, or else settings. -/
def log (toolkit : Toolkit σ) (environment : List (String × String)) (s : Settings) : Log where
  filter := ((environment.lookup filterVariable).filter toolkit.isFilter).getD s.logFilter
  json := s.logJson

/-- The outcome of a run for one command. -/
def shotOutcome (toolkit : Toolkit σ) : Except Failure String → Outcome
  | .ok reply => .success (reply ++ "\n")
  | .error e => .failure (toolkit.complaint e.message e.causes)

end Toolkit

namespace Invocation

/-- The file of settings, which must be there only if it was named. -/
def file (invocation : Invocation) : String := invocation.config?.getD Settings.defaultFile

def has (invocation : Invocation) (flag : Flag) : Bool := invocation.flags.contains flag

/-- The settings that flags turn given settings into. -/
def adjust (invocation : Invocation) (s : Settings) : Settings :=
  { s with
    multiline := s.multiline || invocation.has .multiline
    collapsible := s.collapsible || invocation.has .collapsible
    spoilers := s.spoilers || invocation.has .collapsible
    markup := if invocation.has .plain then .plain else s.markup }

/-- The settings of a run, from the text of the file if there is one. -/
def settings (library : Settings.Library) (invocation : Invocation) (file? : Option String)
    (environment : List (String × String)) : Except StartFault Settings :=
  match invocation.config?, file? with
  | some path, none => .error (.missingFile path)
  | _, file? =>
    match library.load file? environment with
    | .error fault => .error (.settings fault)
    | .ok s => .ok (invocation.adjust s)

variable {σ : Type} [DieSource σ]

/-- Runs the command that the words name, or those on the standard input if there are no words. -/
def report (toolkit : Toolkit σ) (invocation : Invocation) (responder : Responder)
    (log : (earlier : Nat) → Event σ → String) (stdin : String) (tray : Tray σ) : Report σ :=
  let json := invocation.has .json
  match invocation.words with
  | name :: words =>
    let query := " ".intercalate words
    let events := [.activated Command.all.length, .ran json name query tray]
    let outcome := toolkit.shotOutcome (runCommand responder toolkit.jsonText json name query tray).1
    ⟨outcome.exit, outcome.stdout, events.map .event ++ [.text outcome.stderr], log⟩
  | [] => .ofExchanges json log (runLines responder toolkit.jsonText json (Text.lines stdin.toList) tray)

end Invocation

/-- What surrounds a run: the files by name, the environment and the standard input. -/
structure Surroundings where
  file? : String → Option String
  environment : List (String × String)
  stdin : String

namespace Toolkit

def versionText : String := "logidice 0.1.0"

/-- Knows no options but those that invocations and versions have, and logs nothing. -/
def usual {σ : Type} : Toolkit σ where
  readArguments arguments :=
    match Request.ofArguments arguments with
    | .error fault => .error (.usage fault)
    | .ok .version => .error (.success (versionText ++ "\n"))
    | .ok (.run invocation) => .ok invocation
  settings := .usual
  isFilter _ := true
  logged _ _ _ := ""
  complaint message causes :=
    match causes with
    | [] => message
    | causes => message ++ "\n\nCaused by:" ++ String.join (causes.map ("\n    " ++ ·))
  jsonText result := result.toJson.pretty

variable {σ : Type} [DieSource σ]

def report (toolkit : Toolkit σ) (arguments : List String) (around : Surroundings) (tray : Tray σ) : Report σ :=
  match toolkit.readArguments arguments with
  | .error outcome => .ofOutcome outcome
  | .ok invocation =>
    match invocation.settings toolkit.settings (around.file? invocation.file) around.environment with
    | .error fault =>
      .ofOutcome (.failure (toolkit.complaint fault.message (fault.causes toolkit.settings)))
    | .ok settings =>
      let log := toolkit.log around.environment settings
      invocation.report toolkit settings.responder (toolkit.logged log) around.stdin tray

/-- A run of the program on its arguments. -/
def run (toolkit : Toolkit σ) (arguments : List String) (around : Surroundings) (tray : Tray σ) : Outcome :=
  (toolkit.report arguments around tray).outcome

end Toolkit

def run {σ : Type} [DieSource σ] (arguments : List String) (around : Surroundings) (tray : Tray σ) : Outcome :=
  Toolkit.usual.run arguments around tray

end Tabletop.CommandLine

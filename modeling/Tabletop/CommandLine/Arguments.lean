/-!
Arguments of the command line. Options may stand anywhere before a lone `--`; the first word that is no
option names a command, and the other words are its query. Each option is given at most once, a flag has no
value, and only the file of settings has one. Arguments are read from left to right, so that of several
faults the first one counts, and asking for the version before it is no fault at all.
-/

namespace Tabletop.CommandLine

/-- Options without a value. -/
inductive Flag where
  | multiline
  | collapsible
  | plain
  | json
  deriving DecidableEq, Repr

namespace Flag

def all : List Flag := [multiline, collapsible, plain, json]

def name : Flag → String
  | multiline => "multiline"
  | collapsible => "collapsible"
  | plain => "plain"
  | json => "json"

def ofName? (name : String) : Option Flag := all.find? fun flag => flag.name = name

end Flag

/-- What is asked of the program. Without a word it takes its commands from the standard input. -/
structure Invocation where
  config? : Option String := none
  flags : List Flag := []
  words : List String := []
  deriving DecidableEq, Repr

inductive Request where
  | version
  | run (invocation : Invocation)
  deriving DecidableEq, Repr

/-- Why arguments make no request. -/
inductive UsageFault where
  | unknownOption (text : String)
  | needlessValue (name : String)
  | missingValue (name : String)
  | repeated (name : String)
  deriving DecidableEq, Repr

def UsageFault.message : UsageFault → String
  | unknownOption text => "unexpected argument '" ++ text ++ "'"
  | needlessValue name => "option '" ++ name ++ "' takes no value"
  | missingValue name => "option '" ++ name ++ "' needs a value"
  | repeated name => "option '" ++ name ++ "' is given more than once"

/-- What a single argument before the lone `--` can be. -/
inductive Argument where
  | word (text : String)
  | separator
  | flag (flag : Flag)
  | version
  /-- The file of settings, which the next argument names if this one does not. -/
  | config (path? : Option String)
  deriving DecidableEq, Repr

namespace Argument

/-- An option in its long form, without the dashes. -/
def ofLong (cs : List Char) : Except UsageFault Argument :=
  let name := String.ofList (cs.takeWhile (· != '='))
  let value? := match cs.dropWhile (· != '=') with
    | [] => none
    | _ :: value => some (String.ofList value)
  if name = "config" then .ok (.config value?)
  else
    let argument? := if name = "version" then some version else (Flag.ofName? name).map flag
    match argument?, value? with
    | some argument, none => .ok argument
    | some _, some _ => .error (.needlessValue name)
    | none, _ => .error (.unknownOption ("--" ++ String.ofList cs))

def ofText (text : String) : Except UsageFault Argument :=
  match text.toList with
  | ['-', '-'] => .ok separator
  | '-' :: '-' :: cs => ofLong cs
  | '-' :: 'V' :: _ => .ok version
  | ['-', 'c'] => .ok (config none)
  | '-' :: 'c' :: '=' :: path => .ok (config (some (String.ofList path)))
  | '-' :: 'c' :: path => .ok (config (some (String.ofList path)))
  | '-' :: _ :: _ => .error (.unknownOption text)
  | _ => .ok (word text)

/-- Whether an argument cannot be the value of an option, because it is one itself. -/
def isOption (text : String) : Bool :=
  match text.toList with
  | '-' :: _ :: _ => true
  | _ => false

end Argument

namespace Invocation

def addWord (invocation : Invocation) (word : String) : Invocation :=
  { invocation with words := invocation.words ++ [word] }

def addFlag (invocation : Invocation) (flag : Flag) : Except UsageFault Invocation :=
  if flag ∈ invocation.flags then .error (.repeated flag.name)
  else .ok { invocation with flags := invocation.flags ++ [flag] }

def setConfig (invocation : Invocation) (path : String) : Except UsageFault Invocation :=
  if path = "" then .error (.missingValue "config")
  else if invocation.config?.isSome then .error (.repeated "config")
  else .ok { invocation with config? := some path }

end Invocation

/-- Reads the arguments behind those that have made up an invocation so far. -/
def Request.ofArgumentsFrom (invocation : Invocation) : List String → Except UsageFault Request
  | [] => .ok (.run invocation)
  | text :: rest =>
    match Argument.ofText text with
    | .error fault => .error fault
    | .ok (.word word) => ofArgumentsFrom (invocation.addWord word) rest
    | .ok .separator => .ok (.run { invocation with words := invocation.words ++ rest })
    | .ok .version => .ok .version
    | .ok (.flag flag) =>
      match invocation.addFlag flag with
      | .error fault => .error fault
      | .ok invocation => ofArgumentsFrom invocation rest
    | .ok (.config (some path)) =>
      match invocation.setConfig path with
      | .error fault => .error fault
      | .ok invocation => ofArgumentsFrom invocation rest
    | .ok (.config none) =>
      match rest with
      | [] => .error (.missingValue "config")
      | path :: rest =>
        if Argument.isOption path then .error (.missingValue "config")
        else match invocation.setConfig path with
          | .error fault => .error fault
          | .ok invocation => ofArgumentsFrom invocation rest

def Request.ofArguments (arguments : List String) : Except UsageFault Request :=
  ofArgumentsFrom {} arguments

end Tabletop.CommandLine

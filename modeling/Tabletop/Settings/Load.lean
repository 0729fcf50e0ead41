import Tabletop.Settings.Environment
import Tabletop.Settings.File

/-!
Loading of settings. The file is put over the defaults, and the environment over both. A missing file sets
nothing; a file that cannot be read is a fault, whatever the environment sets. What a file and a variable say,
and what it is to put one layer over another, is up to a library; the usual one puts the entries of the higher
layer in front.
-/

namespace Tabletop.Settings

/-- What settings are loaded with. -/
structure Library where
  /-- What the text of a file says, if it can be read. -/
  ofFile? : String → Option Layer
  /-- The key that a variable sets whose name begins with an opening. -/
  key? : (opening name : String) → Option String
  /-- What the text of a variable stands for. -/
  value : String → Json
  /-- What the variables of an environment set whose names begin with an opening. -/
  ofEnvironment : (opening : String) → (environment : List (String × String)) → Layer
  /-- A layer with another one over it. -/
  merge : (low high : Layer) → Layer
  /-- What is said of a fault. -/
  explain : Fault → String

namespace Library

/-- The defaults under the entries of a file, and both under the environment. -/
def layer (library : Library) (file : Layer) (environment : List (String × String)) : Layer :=
  library.merge (library.merge (entries {}) file) (library.ofEnvironment variableOpening environment)

def load (library : Library) (file? : Option String) (environment : List (String × String)) :
    Except Fault Settings :=
  match file?.elim (some []) library.ofFile? with
  | none => .error .malformed
  | some file => ofLayer (library.layer file environment)

/-- Reads files and variables that give plain values to keys. -/
def usual : Library where
  ofFile? := Settings.ofFile?
  key? := variableKey?
  value := variableValue
  ofEnvironment := Settings.ofEnvironment
  merge low high := high ++ low
  explain
    | .malformed => "malformed file"
    | .invalidType key => "invalid type for key " ++ key
    | .unknownVariant key => "unknown variant for key " ++ key

end Library

def load (file? : Option String) (environment : List (String × String)) : Except Fault Settings :=
  Library.usual.load file? environment

end Tabletop.Settings

import Tabletop.Arithmetic.Fault
import Tabletop.Dice.Pool

/-!
How an answer can fail: the arithmetic that is left after the dice were rolled is faulty, no command has
the given name, or a pool that adds dice to itself would never be finished.
-/

namespace Tabletop

inductive Failure where
  | arithmetic (error : Arithmetic.Error)
  | unknownCommand (name : String)
  | endless (pool : Pool)
  deriving DecidableEq, Repr

def Failure.message : Failure → String
  | arithmetic e => "arithmetic error: " ++ e.message
  | unknownCommand name => "unknown command: " ++ name
  | endless pool => "roll never ends: " ++ pool.text

/-- What has caused a failure, without what the failure adds to it. -/
def Failure.causes : Failure → List String
  | arithmetic e => [e.message]
  | unknownCommand _ | endless _ => []

end Tabletop

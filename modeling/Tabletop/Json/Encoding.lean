import Tabletop.Dice.Scoring
import Tabletop.Json.Basic
import Tabletop.Query.Result

/-!
Domain values as JSON. A result is an object of its query, its total and its lines, and of the results of
its repetitions if it has any. A scoring mode is its stored name, which is also understood as the name of
the only member of an object, with nothing in it.
-/

namespace Tabletop

mutual

def Result.toJson : Result String → Json
  | .leaf input total lines =>
    .object [("input", .string input), ("total", .number total),
      ("term_breakdowns", .list (lines.map .string))]
  | .repeated input total lines parts =>
    .object [("input", .string input), ("total", .number total),
      ("term_breakdowns", .list (lines.map .string)), ("sub_queries", .list (Result.toJsonAll parts))]

def Result.toJsonAll : List (Result String) → List Json
  | [] => []
  | r :: rs => r.toJson :: Result.toJsonAll rs

end

/-- The name that a value stands for where one of several names is wanted. -/
def Json.variantName? : Json → Option String
  | .string name => some name
  | .object [(name, .null)] => some name
  | _ => none

def Scoring.ofJson? (j : Json) : Option Scoring := j.variantName?.bind Scoring.ofStoredName?

end Tabletop

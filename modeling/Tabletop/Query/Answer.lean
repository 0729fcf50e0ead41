import Tabletop.Query.Pieces
import Tabletop.Query.Repetition
import Tabletop.Query.Result
import Tabletop.Query.Tray

/-!
Answering a query. A query with a repetition mark is answered by answering what is behind the mark as often
as the count says, each time with fresh dice, and by adding up the totals. Any other query has its pools
rolled from left to right and their totals put in their place, and what results is evaluated. Only this last
evaluation can make a query with dice fail; a query without dice that has no value has the empty result.
Repetitions nest at most `maxRepetitions` deep, and what lies deeper is not answered but empty.
-/

namespace Tabletop.Query

/-- How deep repetitions may stand inside each other. -/
def maxRepetitions : Nat := 16

variable {σ : Type}

/-- Answers again and again until the first failure; `done` are the earlier results, the last one first. -/
def repeatAnswer (answer : Tray σ → Except Failure (Result Roll) × Tray σ) :
    (times : Nat) → (done : List (Result Roll)) → Tray σ →
      Except Failure (List (Result Roll)) × Tray σ
  | 0, done, tray => (.ok done.reverse, tray)
  | times + 1, done, tray =>
    match answer tray with
    | (.error e, tray) => (.error e, tray)
    | (.ok r, tray) => repeatAnswer answer times (r :: done) tray

/-- The sum of totals from left to right, beginning with a zero that has no sign. -/
def sumTotals (parts : List (Result Roll)) : Float := parts.foldl (fun sum r => sum + r.total) 0

/-- The text whose dice are rolled and the mode they are rolled in: Fate markers settle both. -/
def effective (cs : List Char) (mode : Scoring) : List Char × Scoring :=
  if hasFateMarker cs then (expandFateMarkers cs, .fate) else (cs, mode)

variable [DieSource σ]

/-- Answers a query that has no repetition mark. -/
def answerTerms (evaluator : Arithmetic.Evaluator) (cs : List Char) (mode : Scoring) (tray : Tray σ) :
    Except Failure (Result Roll) × Tray σ :=
  let input := String.ofList cs
  let (cs, mode) := effective cs mode
  let ps := pieces cs
  match pools ps with
  | [] =>
    match tray.evaluate evaluator (String.ofList cs) with
    | (.error _, tray) => (.ok (.empty input), tray)
    | (.ok total, tray) => (.ok (.leaf input total []), tray)
  | pool :: more =>
    match tray.rollAll mode (pool :: more) with
    | (.error e, tray) => (.error e, tray)
    | (.ok rolls, tray) =>
      match tray.evaluate evaluator (String.ofList (splice ps (rolls.map Roll.total))) with
      | (.error e, tray) => (.error (.arithmetic e), tray)
      | (.ok total, tray) => (.ok (.leaf input total rolls), tray)

/-- Answers a query in which repetitions may nest `levels` deep. -/
def answerWithin (evaluator : Arithmetic.Evaluator) (levels : Nat) (cs : List Char) (mode : Scoring)
    (tray : Tray σ) : Except Failure (Result Roll) × Tray σ :=
  let input := String.ofList cs
  if isWorthReading cs then
    match splitRepetition? cs with
    | none => answerTerms evaluator cs mode tray
    | some (times, inner) =>
      match levels with
      | 0 => (.ok (.empty input), tray)
      | levels + 1 =>
        match repeatAnswer (answerWithin evaluator levels inner mode) times [] tray with
        | (.error e, tray) => (.error e, tray)
        | (.ok parts, tray) => (.ok (.repeated input (sumTotals parts) [] parts), tray)
  else (.ok (.empty input), tray)

/-- Answers a query in a mode, with dice from the tray. -/
def answer (evaluator : Arithmetic.Evaluator) (query : String) (mode : Scoring) (tray : Tray σ) :
    Except Failure (Result Roll) × Tray σ :=
  answerWithin evaluator maxRepetitions query.toList mode tray

end Tabletop.Query

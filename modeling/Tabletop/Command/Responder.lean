import Tabletop.Command.Table
import Tabletop.Query.Answer
import Tabletop.Reply.Layout

/-!
Replies to commands. A responder knows how its host marks text up and what the host can display. It answers
the query that comes with a command in the mode of the command and lays the result out; it can also put all
its commands into a table, where they then reply as the responder itself would.
-/

namespace Tabletop

structure Responder where
  markup : Markup
  display : Display
  evaluator : Arithmetic.Evaluator := Arithmetic.evaluate

namespace Responder

variable {σ : Type} [DieSource σ]

/-- The result of a query, with its rolls as lines of text. -/
def answer (responder : Responder) (query : String) (mode : Scoring) (tray : Tray σ) :
    Except Failure (Result String) × Tray σ :=
  let (outcome, tray) := Query.answer responder.evaluator query mode tray
  (outcome.map (Result.map (Roll.line responder.markup)), tray)

/-- The text that replies to a result. -/
def write (responder : Responder) (result : Result String) : String :=
  result.reply responder.markup responder.display.layout

/-- The reply to a command. Its first argument is the query, which is empty if there is none. -/
def reply (responder : Responder) (command : Command) : Handler σ := fun args tray =>
  let (outcome, tray) := responder.answer (args.headD "") command.mode tray
  (outcome.map responder.write, tray)

/-- Registers the commands with a host. -/
def activate (responder : Responder) (table : CommandTable σ) : CommandTable σ :=
  Command.all.foldl
    (fun table command =>
      table.register command.name command.description (responder.reply command))
    table

end Responder

end Tabletop

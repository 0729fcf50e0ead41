import Tabletop.Arithmetic.Evaluation
import Tabletop.Dice.Roll
import Tabletop.Failure

/-!
The tray on which queries are answered: a source of dice, together with a record of the pools that were
rolled and of the texts that were evaluated, in the order in which that happened. Every action leaves the
tray in the state that it brought it to, also when it fails.
-/

namespace Tabletop

structure Tray (σ : Type) where
  dice : σ
  rolled : Array Roll
  evaluated : Array String

namespace Tray

variable {σ : Type}

def ofDice (dice : σ) : Tray σ := ⟨dice, #[], #[]⟩

/-- Has a text evaluated. -/
def evaluate (evaluator : Arithmetic.Evaluator) (text : String) (tray : Tray σ) :
    Except Arithmetic.Error Float × Tray σ :=
  (evaluator text, { tray with evaluated := tray.evaluated.push text })

/-- Rolls one pool. -/
def roll [DieSource σ] (pool : Pool) (mode : Scoring) (tray : Tray σ) :
    Except Failure Roll × Tray σ :=
  match pool.roll? mode tray.dice with
  | none => (.error (.endless pool.clamped), tray)
  | some (roll, dice) => (.ok roll, { tray with dice, rolled := tray.rolled.push roll })

/-- Rolls pools one after the other. -/
def rollAll [DieSource σ] (mode : Scoring) : List Pool → Tray σ → Except Failure (List Roll) × Tray σ
  | [], tray => (.ok [], tray)
  | pool :: pools, tray =>
    match tray.roll pool mode with
    | (.error e, tray) => (.error e, tray)
    | (.ok roll, tray) =>
      match rollAll mode pools tray with
      | (.error e, tray) => (.error e, tray)
      | (.ok rolls, tray) => (.ok (roll :: rolls), tray)

end Tray

end Tabletop

import Tabletop.Dice.Pool
import Tabletop.Dice.Scoring
import Tabletop.Dice.Source

/-!
Rolling a pool. The dice of a pool are drawn one after the other; a face that explodes puts one more die at
the end of the queue. A roll ends when the queue is empty. It is refused when that has not happened after
as many draws as the pool has dice and the source has patience for.
-/

namespace Tabletop

/-- A pool that was rolled in some mode, with its faces in the order of the draws. -/
structure Roll where
  pool : Pool
  mode : Scoring
  faces : List Nat
  deriving DecidableEq, Repr

namespace Roll

/-- The sum of the scores of the faces. -/
def total (r : Roll) : Int := r.faces.foldr (fun face sum => r.mode.score face + sum) 0

def symbols (r : Roll) : List FateSymbol := r.faces.map FateSymbol.ofFace

@[simp] theorem total_nil (pool : Pool) (mode : Scoring) : total ⟨pool, mode, []⟩ = 0 := rfl

@[simp] theorem total_cons (pool : Pool) (mode : Scoring) (face : Nat) (faces : List Nat) :
    total ⟨pool, mode, face :: faces⟩ = mode.score face + total ⟨pool, mode, faces⟩ := rfl

end Roll

variable {σ : Type} [DieSource σ]

/-- Draws for `queued` dice and for those that they add, with at most `budget` draws in all. -/
def drawQueue (sides : Nat) (mode : Scoring) : (budget queued : Nat) → σ → Option (List Nat × σ)
  | _, 0, s => some ([], s)
  | 0, _ + 1, _ => none
  | budget + 1, queued + 1, s =>
    let (face, s) := draw sides s
    (drawQueue sides mode budget (queued + if mode.explodes face then 1 else 0) s).map
      fun (faces, s) => (face :: faces, s)

/-- Rolls a pool within its limits; `none` if it does not end. -/
def Pool.roll? (p : Pool) (mode : Scoring) (s : σ) : Option (Roll × σ) :=
  let pool := p.clamped
  (drawQueue pool.sides mode (pool.count + patience s) pool.count s).map
    fun (faces, s) => (⟨pool, mode, faces⟩, s)

@[simp] theorem drawQueue_zero (sides : Nat) (mode : Scoring) (budget : Nat) (s : σ) :
    drawQueue sides mode budget 0 s = some ([], s) := by
  cases budget <;> rfl

theorem drawQueue_succ (sides : Nat) (mode : Scoring) (budget queued : Nat) (s : σ) :
    drawQueue sides mode (budget + 1) (queued + 1) s =
      (drawQueue sides mode budget
        (queued + if mode.explodes (draw sides s).1 then 1 else 0) (draw sides s).2).map
          fun r => ((draw sides s).1 :: r.1, r.2) := rfl

theorem Pool.roll?_clamped (p : Pool) (mode : Scoring) (s : σ) :
    p.clamped.roll? mode s = p.roll? mode s := by
  simp [Pool.roll?]

end Tabletop

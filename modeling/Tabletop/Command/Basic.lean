import Tabletop.Dice.Scoring
import Tabletop.Failure
import Tabletop.Text.LowerCase

/-!
The commands that roll dice, one for each scoring mode. A command is found under a key, which is what its
name comes down to when blanks at both ends, exclamation marks before it and letter case are disregarded.
-/

namespace Tabletop

inductive Command where
  | roll
  | whiteWolf
  | scion
  | fate
  deriving DecidableEq, Repr

namespace Command

/-- All commands, in the order in which they are registered. -/
def all : List Command := [roll, whiteWolf, scion, fate]

def name : Command → String
  | roll => "roll"
  | whiteWolf => "rollww"
  | scion => "rollscion"
  | fate => "rollfate"

def description : Command → String
  | roll => "Roll some dice"
  | whiteWolf => "Roll dice for White Wolf games"
  | scion => "Roll dice for Scion"
  | fate => "Roll dice for Fate"

def mode : Command → Scoring
  | roll => .sum
  | whiteWolf => .whiteWolf
  | scion => .scion
  | fate => .fate

/-- The key of a name. -/
def key (name : String) : String :=
  String.ofList (Text.lower ((Text.trim name.toList).dropWhile (· == '!')))

/-- The command that a text names. -/
def ofText (text : String) : Except Failure Command :=
  match all.find? fun command => command.name = key text with
  | some command => .ok command
  | none => .error (.unknownCommand text)

theorem mem_all (command : Command) : command ∈ all := by
  cases command <;> simp [all]

theorem name_injective {c d : Command} (h : c.name = d.name) : c = d := by
  cases c <;> cases d <;> simp_all [name]

theorem ofText_eq_ok_iff {text : String} {command : Command} :
    ofText text = .ok command ↔ key text = command.name := by
  unfold ofText
  split
  · next c h =>
    have hc : c.name = key text := by simpa using List.find?_some h
    rw [Except.ok.injEq, ← hc]
    exact ⟨fun e => e ▸ rfl, name_injective⟩
  · next h =>
    refine ⟨nofun, fun e => ?_⟩
    have := List.find?_eq_none.1 h command (mem_all command)
    simp [e] at this

end Command

end Tabletop

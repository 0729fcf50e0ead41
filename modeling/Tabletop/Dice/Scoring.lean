import Tabletop.Text.Blank
import Tabletop.Text.LowerCase

/-!
Scoring modes. A mode says what each face of a die is worth, which faces add a die to the pool, and which
count as successes that a reply sets off. Only the White Wolf mode adds dice, and only for a ten. The Fate
mode reads a face as one of three symbols, and its score is theirs.
-/

namespace Tabletop

inductive Scoring where
  | sum
  | fate
  | whiteWolf
  | scion
  deriving DecidableEq, Repr

/-- What a Fate die shows. -/
inductive FateSymbol where
  | minus
  | blank
  | plus
  deriving DecidableEq, Repr

namespace FateSymbol

/-- The lower third of a six-sided die, its middle third, and everything above. -/
def ofFace (face : Nat) : FateSymbol :=
  if face ≤ 2 then .minus else if face ≤ 4 then .blank else .plus

def score : FateSymbol → Int
  | minus => -1
  | blank => 0
  | plus => 1

def text : FateSymbol → String
  | minus => "[-]"
  | blank => "[ ]"
  | plus => "[+]"

end FateSymbol

/-- The face that adds a die to a White Wolf pool. -/
def explodingFace : Nat := 10

namespace Scoring

/-- What a face contributes to the total of its pool. -/
def score (mode : Scoring) (face : Nat) : Int :=
  match mode with
  | sum => face
  | fate => (FateSymbol.ofFace face).score
  | whiteWolf => if 7 < face then 1 else 0
  | scion => if face = 10 then 2 else if 6 < face then 1 else 0

/-- Whether a face adds a die to its pool. -/
def explodes (mode : Scoring) (face : Nat) : Bool :=
  mode = whiteWolf ∧ face = explodingFace

/-- Whether a face is set off in a reply. -/
def highlights (mode : Scoring) (face : Nat) : Bool :=
  match mode with
  | whiteWolf => 8 ≤ face ∧ face ≤ 10
  | scion => 7 ≤ face ∧ face ≤ 10
  | sum | fate => false

/-- The name that is shown. -/
def name : Scoring → String
  | sum => "sum"
  | fate => "fate"
  | whiteWolf => "ww"
  | scion => "scion"

/-- The name under which a mode is stored. -/
def storedName : Scoring → String
  | whiteWolf => "whitewolf"
  | mode => mode.name

/-- The mode with a stored name; the shown name is understood too. -/
def ofStoredName? : String → Option Scoring
  | "sum" => some sum
  | "fate" => some fate
  | "whitewolf" => some whiteWolf
  | "ww" => some whiteWolf
  | "scion" => some scion
  | _ => none

/-- No mode has the name, which is given in lower case. -/
structure Unknown where
  name : String
  deriving DecidableEq, Repr

def Unknown.message (e : Unknown) : String := "Unknown scoring mode: " ++ e.name

/-- The mode that a text names, blanks at its ends and letter case aside. -/
def ofText (text : String) : Except Unknown Scoring :=
  match String.ofList (Text.lower (Text.trim text.toList)) with
  | "sum" => .ok sum
  | "default" => .ok sum
  | "fate" => .ok fate
  | "fudge" => .ok fate
  | "ww" => .ok whiteWolf
  | "whitewolf" => .ok whiteWolf
  | "white-wolf" => .ok whiteWolf
  | "scion" => .ok scion
  | other => .error ⟨other⟩

instance : Inhabited Scoring := ⟨sum⟩

theorem score_fate (face : Nat) : fate.score face = (FateSymbol.ofFace face).score := rfl

theorem score_nonneg {mode : Scoring} (h : mode ≠ fate) (face : Nat) : 0 ≤ mode.score face := by
  cases mode with
  | sum => exact Int.natCast_nonneg face
  | fate => exact absurd rfl h
  | whiteWolf | scion =>
    simp only [score]
    omega

@[simp] theorem explodes_iff {mode : Scoring} {face : Nat} :
    mode.explodes face = true ↔ mode = whiteWolf ∧ face = explodingFace := by
  simp [explodes]

@[simp] theorem ofStoredName?_storedName (mode : Scoring) :
    ofStoredName? mode.storedName = some mode := by
  cases mode <;> rfl

end Scoring

end Tabletop

import Tabletop.Decimal.Whole
import Tabletop.Dice.Pool
import Tabletop.Text.DecimalDigit

/-!
The dice of a query. A query without a repetition mark is cut, from left to right, into the pools that it
names and the text between them. A pool is a run of digits, the letter of a die and another run of digits,
each run as long as possible; a run in other digits than the ASCII ones takes part in this, but its pool
cannot be read and stays text. Fate dice are written with a marker that stands for six sides.
-/

namespace Tabletop.Query

def isDieLetter (c : Char) : Bool := c == 'd' || c == 'D'

def isFateLetter (c : Char) : Bool := c == 'f' || c == 'F'

/-- Whether a marker of Fate dice occurs, in any letter case. -/
def hasFateMarker : List Char → Bool
  | c :: c' :: cs => (isDieLetter c && isFateLetter c') || hasFateMarker (c' :: cs)
  | _ => false

/-- Six-sided dice in place of every marker of Fate dice. -/
def expandFateMarkers : List Char → List Char
  | c :: c' :: cs =>
    if isDieLetter c && isFateLetter c' then 'd' :: '6' :: expandFateMarkers cs
    else c :: expandFateMarkers (c' :: cs)
  | cs => cs

/-- A stretch of a query: text, or a pool with the characters that name it. -/
inductive Piece where
  | text (chars : List Char)
  | dice (chars : List Char) (pool : Pool)
  deriving DecidableEq, Repr

namespace Piece

def chars : Piece → List Char
  | text cs => cs
  | dice cs _ => cs

def pool? : Piece → Option Pool
  | text _ => none
  | dice _ pool => some pool

end Piece

/-- The characters of a pool that a text starts with, and the text behind it. -/
def leadingTerm? (cs : List Char) : Option (List Char × List Char) :=
  let count := cs.takeWhile Text.isDecimalDigit
  match cs.dropWhile Text.isDecimalDigit with
  | [] => none
  | letter :: after =>
    let sides := after.takeWhile Text.isDecimalDigit
    if count ≠ [] ∧ isDieLetter letter ∧ sides ≠ [] then
      some (count ++ letter :: sides, after.dropWhile Text.isDecimalDigit)
    else none

/-- The piece that the characters of a pool make. -/
def termPiece (cs : List Char) : Piece :=
  match Pool.ofText (String.ofList cs) with
  | .ok pool => .dice cs pool
  | .error _ => .text cs

@[simp] theorem chars_termPiece (cs : List Char) : (termPiece cs).chars = cs := by
  unfold termPiece
  split <;> rfl

theorem append_of_leadingTerm? {cs written rest : List Char}
    (h : leadingTerm? cs = some (written, rest)) : written ++ rest = cs ∧ written ≠ [] := by
  unfold leadingTerm? at h
  split at h
  · cases h
  · next letter after hdrop =>
    dsimp only at h
    split at h
    · cases h
      refine ⟨?_, by simp⟩
      rw [List.append_assoc, List.cons_append, List.takeWhile_append_dropWhile, ← hdrop,
        List.takeWhile_append_dropWhile]
    · cases h

/-- A text cut into its pools and the text around them. -/
def pieces (cs : List Char) : List Piece :=
  match cs with
  | [] => []
  | c :: others =>
    match _h : leadingTerm? (c :: others) with
    | some (written, rest) => termPiece written :: pieces rest
    | none =>
      if Text.isDecimalDigit c then
        .text (c :: others.takeWhile Text.isDecimalDigit) ::
          pieces (others.dropWhile Text.isDecimalDigit)
      else .text [c] :: pieces others
termination_by cs.length
decreasing_by
  · obtain ⟨happ, hne⟩ := append_of_leadingTerm? _h
    have := congrArg List.length happ
    have := List.length_pos_iff.2 hne
    simp only [List.length_append] at *
    omega
  · have := (List.dropWhile_sublist Text.isDecimalDigit (l := others)).length_le
    simp only [List.length_cons]
    omega
  · simp

theorem pieces_of_leadingTerm? {cs written rest : List Char}
    (h : leadingTerm? cs = some (written, rest)) :
    pieces cs = termPiece written :: pieces rest := by
  cases cs with
  | nil => simp [leadingTerm?] at h
  | cons c others =>
    rw [pieces]
    split <;> simp_all

theorem pieces_cons_of_none {c : Char} {others : List Char}
    (h : leadingTerm? (c :: others) = none) :
    pieces (c :: others) =
      if Text.isDecimalDigit c then
        .text (c :: others.takeWhile Text.isDecimalDigit) ::
          pieces (others.dropWhile Text.isDecimalDigit)
      else .text [c] :: pieces others := by
  rw [pieces]
  split <;> simp_all

/-- Nothing is lost in the cutting. -/
theorem flatMap_chars_pieces (cs : List Char) : (pieces cs).flatMap Piece.chars = cs := by
  induction cs using pieces.induct with
  | case1 => simp [pieces]
  | case2 c others written rest h ih =>
    rw [pieces_of_leadingTerm? h, List.flatMap_cons, chars_termPiece, ih]
    exact (append_of_leadingTerm? h).1
  | case3 c others h digit ih =>
    rw [pieces_cons_of_none h, if_pos digit, List.flatMap_cons, ih]
    simp [Piece.chars]
  | case4 c others h digit ih =>
    rw [pieces_cons_of_none h, if_neg digit, List.flatMap_cons, ih]
    rfl

def pools (ps : List Piece) : List Pool := ps.filterMap Piece.pool?

/-- The text with each pool replaced by its total. -/
def splice : List Piece → List Int → List Char
  | [], _ => []
  | .dice _ _ :: ps, t :: ts => intChars t ++ splice ps ts
  | p :: ps, ts => p.chars ++ splice ps ts

end Tabletop.Query

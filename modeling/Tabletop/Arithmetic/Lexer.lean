import Tabletop.Arithmetic.Fault
import Tabletop.Text.Blank

/-!
Splitting arithmetic text into lexemes. Blanks separate; a run of digits and points is one number, however
long, and a letter with the letters and digits behind it is one name, whose letter case is dropped. The
split stops at the first thing that is no token, and the lexemes before it are kept, because a reader of
the text may fail before it gets there.
-/

namespace Tabletop.Arithmetic

/-- How the lexemes of a text end: with the text, all of which was then read, or at a fault. -/
inductive Ending where
  | finish (position : Nat)
  | fault (fault : Fault) (position : Nat)
  deriving DecidableEq, Repr

def Ending.position : Ending → Nat
  | finish n => n
  | fault _ n => n

/-- What comes next in a text: its ending, or a lexeme and the text behind it. -/
inductive Step where
  | ending (ending : Ending)
  | lexeme (lexeme : Lexeme) (rest : List Char)
  deriving DecidableEq, Repr

/-- The next step at a character that is not blank. -/
def stepAt (start : Nat) (c : Char) (rest : List Char) : Step :=
  match Token.ofChar? c with
  | some token => .lexeme ⟨token, start, start + 1⟩ rest
  | none =>
    if Numeral.isPart c then
      let run := c :: rest.takeWhile Numeral.isPart
      match Numeral.ofChars? run with
      | some n => .lexeme ⟨.number n, start, start + run.length⟩ (rest.dropWhile Numeral.isPart)
      | none => .ending (.fault (.number (String.ofList run)) (start + run.length))
    else if c.isAlpha then
      let run := c :: rest.takeWhile Char.isAlphanum
      .lexeme ⟨.ident (String.ofList (run.map Char.toLower)), start, start + run.length⟩
        (rest.dropWhile Char.isAlphanum)
    else .ending (.fault (.unexpectedChar c) start)

/-- The next step of a text that `position` characters come before. -/
def step (position : Nat) (cs : List Char) : Step :=
  let start := position + (cs.takeWhile Text.isBlank).length
  match cs.dropWhile Text.isBlank with
  | [] => .ending (.finish start)
  | c :: rest => stepAt start c rest

theorem length_dropWhile_le (p : Char → Bool) (cs : List Char) :
    (cs.dropWhile p).length ≤ cs.length :=
  (List.dropWhile_sublist p).length_le

theorem length_rest_stepAt {start : Nat} {c : Char} {rest rest' : List Char} {l : Lexeme}
    (h : stepAt start c rest = .lexeme l rest') : rest'.length ≤ rest.length := by
  unfold stepAt at h
  split at h
  · cases h; exact Nat.le_refl _
  · split at h
    · dsimp only at h
      split at h
      · cases h; exact length_dropWhile_le _ _
      · cases h
    · split at h
      · cases h; exact length_dropWhile_le _ _
      · cases h

/-- Every lexeme uses up some of the text. -/
theorem length_rest_step {position : Nat} {cs rest : List Char} {l : Lexeme}
    (h : step position cs = .lexeme l rest) : rest.length < cs.length := by
  unfold step at h
  have hle := length_dropWhile_le Text.isBlank cs
  split at h
  · cases h
  · next c rest' hdrop =>
    have := length_rest_stepAt h
    rw [hdrop, List.length_cons] at hle
    omega

/-- The lexemes of a text and how they end. -/
structure Lexed where
  lexemes : List Lexeme
  ending : Ending
  deriving DecidableEq, Repr

/-- The lexemes of a text that `position` characters come before. -/
def lexFrom (position : Nat) (cs : List Char) : Lexed :=
  match _h : step position cs with
  | .ending e => ⟨[], e⟩
  | .lexeme l rest =>
    let others := lexFrom l.stop rest
    ⟨l :: others.lexemes, others.ending⟩
termination_by cs.length
decreasing_by exact length_rest_step _h

def lex (cs : List Char) : Lexed := lexFrom 0 cs

theorem lexFrom_of_ending {position : Nat} {cs : List Char} {e : Ending}
    (h : step position cs = .ending e) : lexFrom position cs = ⟨[], e⟩ := by
  rw [lexFrom]
  split <;> simp_all

theorem lexFrom_of_lexeme {position : Nat} {cs rest : List Char} {l : Lexeme}
    (h : step position cs = .lexeme l rest) :
    lexFrom position cs =
      ⟨l :: (lexFrom l.stop rest).lexemes, (lexFrom l.stop rest).ending⟩ := by
  rw [lexFrom]
  split <;> simp_all

end Tabletop.Arithmetic

import Tabletop.Decimal.Whole
import Tabletop.Dice.Roll

/-!
Markup of replies. A host says how text is emphasised and how a detail is folded away behind a summary;
everything else in a reply is the same on every host. The line of a roll shows the pool, its faces and its
total, with the faces that count as successes emphasised, or the symbols if the dice were Fate dice.
-/

namespace Tabletop

structure Markup where
  emphasize : String → String
  collapsible : (detail summary : String) → String

namespace Markup

def markdown : Markup where
  emphasize text := "**" ++ text ++ "**"
  collapsible detail summary :=
    "<details>\n<summary>" ++ summary ++ "</summary>\n\n" ++ detail ++ "\n</details>"

/-- For hosts without markup. -/
def plain : Markup where
  emphasize text := text
  collapsible detail summary := summary ++ "\n" ++ detail

/-- For hosts that set off text by single stars and have nothing to fold. -/
def stars : Markup where
  emphasize text := "*" ++ text ++ "*"
  collapsible detail summary := summary ++ " : " ++ detail

end Markup

namespace Roll

/-- A face as it is shown in a roll of the mode. -/
def faceText (markup : Markup) (mode : Scoring) (face : Nat) : String :=
  match mode with
  | .fate => (FateSymbol.ofFace face).text
  | mode =>
    if mode.highlights face then markup.emphasize (Nat.repr face) else Nat.repr face

def line (markup : Markup) (r : Roll) : String :=
  r.pool.text ++ ": " ++ " ".intercalate (r.faces.map (faceText markup r.mode)) ++ " = " ++
    intText r.total

end Roll

end Tabletop

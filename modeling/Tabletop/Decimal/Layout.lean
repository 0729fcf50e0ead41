import Tabletop.Decimal.Shortest

/-!
How numbers are written. The digits are always the shortest ones; a number style says when a power of ten
is set apart, whether a whole number shows a decimal place, whether positive powers have a sign, and which
of two equally near decimals is written. Three styles are in use: the plain one of totals, the one in which
tokens quote numbers, and the one of JSON.
-/

namespace Tabletop

/-- A nonzero number whose leading digit stands for `10 ^ k` is written without a power of ten iff
`least ≤ k < limit`, where an absent bound excludes nothing. -/
structure NumberStyle where
  least : Option Int
  limit : Option Int
  showsPlace : Bool
  signsPower : Bool
  tie : Tie

namespace NumberStyle

/-- Never a power of ten, and no decimal place for a whole number. -/
def plain : NumberStyle := ⟨none, none, false, false, .up⟩

/-- A power of ten below `0.0001` and from `10 ^ 16` on. -/
def quoted : NumberStyle := ⟨some (-4), some 16, true, false, .up⟩

/-- A signed power of ten below `0.00001` and from `10 ^ 16` on. -/
def json : NumberStyle := ⟨some (-5), some 16, true, true, .even⟩

def isPositional (style : NumberStyle) (k : Int) : Bool :=
  style.least.all (decide <| · ≤ k) && style.limit.all (decide <| k < ·)

end NumberStyle

namespace Decimal

/-- The exponent of the leading digit. -/
def leadingExponent (d : Decimal) : Int :=
  d.exponent + (Nat.toDigits 10 d.digits).length - 1

/-- Digits, zeros and a point, as the exponent demands. -/
def positional (showsPlace : Bool) (d : Decimal) : List Char :=
  let ds := Nat.toDigits 10 d.digits
  match d.exponent with
  | .ofNat p => ds ++ List.replicate p '0' ++ if showsPlace then ['.', '0'] else []
  | .negSucc p =>
    let padded := List.replicate (p + 2 - ds.length) '0' ++ ds
    let whole := padded.length - (p + 1)
    padded.take whole ++ '.' :: padded.drop whole

/-- One digit before the point, and the power of ten behind an `e`. -/
def scientific (signsPower : Bool) (d : Decimal) : List Char :=
  let point := match Nat.toDigits 10 d.digits with
    | [] => []
    | [c] => [c]
    | c :: cs => c :: '.' :: cs
  let power := match d.leadingExponent with
    | .ofNat k => (if signsPower then ['+'] else []) ++ Nat.toDigits 10 k
    | .negSucc k => '-' :: Nat.toDigits 10 (k + 1)
  point ++ 'e' :: power

def write (style : NumberStyle) (d : Decimal) : List Char :=
  if style.isPositional d.leadingExponent then d.positional style.showsPlace
  else d.scientific style.signsPower

end Decimal

/-- The text of a number in a style. -/
def NumberStyle.chars (style : NumberStyle) (x : Float) : List Char :=
  match Binary64.ofFloat x with
  | .nan => ['N', 'a', 'N']
  | .infinite negative => (if negative then ['-'] else []) ++ ['i', 'n', 'f']
  | .finite negative m e =>
    let magnitude :=
      if m = 0 then (Decimal.mk 0 0).positional style.showsPlace
      else (Decimal.shortest style.tie m e).write style
    (if negative then ['-'] else []) ++ magnitude

def NumberStyle.text (style : NumberStyle) (x : Float) : String :=
  String.ofList (style.chars x)

end Tabletop

import Tabletop.Decimal.Layout
import Tabletop.Decimal.Numeral

/-!
Tokens of arithmetic text. A lexeme is a token with the characters that it covers, counted from the start
of the text: `start` is the number of characters before it and `stop` the number up to its end.
-/

namespace Tabletop.Arithmetic

/-- `finish` stands behind the last token of every text. -/
inductive Token where
  | number (value : Numeral)
  | ident (name : String)
  | plus
  | minus
  | times
  | divide
  | comma
  | leftParen
  | rightParen
  | finish
  deriving DecidableEq, Repr

/-- A token and its place in the text. -/
structure Lexeme where
  token : Token
  start : Nat
  stop : Nat
  deriving DecidableEq, Repr

namespace Token

/-- The tokens that consist of one character of their own. -/
def ofChar? : Char → Option Token
  | '+' => some plus
  | '-' => some minus
  | '*' => some times
  | '/' => some divide
  | ',' => some comma
  | '(' => some leftParen
  | ')' => some rightParen
  | _ => none

/-- A token as messages quote it. -/
def quoted : Token → String
  | number n => "Number(" ++ NumberStyle.quoted.text n.toFloat ++ ")"
  | ident name => "Ident(\"" ++ name ++ "\")"
  | plus => "Plus"
  | minus => "Minus"
  | times => "Multiply"
  | divide => "Divide"
  | comma => "Comma"
  | leftParen => "LeftParenthesis"
  | rightParen => "RightParenthesis"
  | finish => "Eof"

end Token

end Tabletop.Arithmetic

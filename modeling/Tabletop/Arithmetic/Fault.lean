import Tabletop.Arithmetic.Expr
import Tabletop.Arithmetic.Token

/-!
What can be wrong with arithmetic text, and the messages that say so. A fault of the text itself is
located: its position is the number of characters that had been read, one token beyond the one in hand
included. A text without tokens and a fault of the value have no position.
-/

namespace Tabletop.Arithmetic

inductive Fault where
  | empty
  | unexpectedChar (c : Char)
  | number (text : String)
  | unexpectedToken (token : Token)
  | unclosedParenthesis
  | trailingInput (token : Token)
  | tooDeep (limit : Nat)
  | value (fault : ValueFault)
  deriving DecidableEq, Repr

structure Error where
  fault : Fault
  position : Option Nat
  deriving DecidableEq, Repr

def ValueFault.message : ValueFault → String
  | divisionByZero => "division by zero"
  | unknownFunction name => "unknown function: " ++ name
  | arity f given =>
    "function " ++ f.name ++ " takes " ++ f.arity ++ " argument(s), got " ++ Nat.repr given

/-- A name that stands where a call was expected is quoted bare. -/
def Fault.message : Fault → String
  | empty => "expression is empty"
  | unexpectedChar c => "unexpected character '" ++ String.ofList [c] ++ "'"
  | number text => "invalid number: " ++ text
  | unexpectedToken (.ident name) => "unexpected token: " ++ name
  | unexpectedToken token => "unexpected token: " ++ token.quoted
  | unclosedParenthesis => "parenthesis was not closed"
  | trailingInput token => "trailing input: " ++ token.quoted
  | tooDeep limit => "expression nested deeper than " ++ Nat.repr limit ++ " levels"
  | value fault => fault.message

def Error.message (e : Error) : String :=
  match e.position with
  | none => e.fault.message
  | some n => "at position " ++ Nat.repr n ++ ": " ++ e.fault.message

end Tabletop.Arithmetic

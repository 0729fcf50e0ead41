import Tabletop.Decimal.Binary64
import Tabletop.Decimal.Numeral

/-!
Arithmetic expressions and their values. Literals are exact decimals, and rounding to binary begins with
the first operation on them. Operands are evaluated from left to right and the arguments of a call before
its name is looked up, so the first fault in that order is the one that counts.
-/

namespace Tabletop.Arithmetic

/-- The functions that a call may name. -/
inductive Function where
  | ceil
  | floor
  | round
  | abs
  | sqrt
  | min
  | max
  deriving DecidableEq, Repr

inductive BinaryOp where
  | add
  | sub
  | mul
  | div
  deriving DecidableEq, Repr

inductive Expr where
  | literal (value : Numeral)
  | neg (operand : Expr)
  | binary (op : BinaryOp) (left right : Expr)
  | call (name : String) (args : List Expr)
  deriving Repr

/-- Why an expression has no value. -/
inductive ValueFault where
  | divisionByZero
  | unknownFunction (name : String)
  | arity (function : Function) (given : Nat)
  deriving DecidableEq, Repr

namespace Function

def name : Function → String
  | ceil => "ceil"
  | floor => "floor"
  | round => "round"
  | abs => "abs"
  | sqrt => "sqrt"
  | min => "min"
  | max => "max"

def ofName? : String → Option Function
  | "ceil" => some ceil
  | "floor" => some floor
  | "round" => some round
  | "abs" => some abs
  | "sqrt" => some sqrt
  | "min" => some min
  | "max" => some max
  | _ => none

/-- How many arguments a function takes, in words. -/
def arity : Function → String
  | ceil | floor | round | abs | sqrt => "1"
  | min | max => "1 or more"

@[simp] theorem ofName?_name (f : Function) : ofName? f.name = some f := by
  cases f <;> rfl

end Function

/-- The lesser number; a number is preferred to what is none. -/
def lesser (x y : Float) : Float :=
  if x.isNaN then y else if y < x then y else x

/-- The greater number; a number is preferred to what is none. -/
def greater (x y : Float) : Float :=
  if x.isNaN then y else if x < y then y else x

/-- A function of one argument. -/
def Function.applyOne (f : Function) (op : Float → Float) : List Float → Except ValueFault Float
  | [x] => .ok (op x)
  | xs => .error (.arity f xs.length)

/-- A function that combines its arguments from left to right. -/
def Function.applyAll (f : Function) (op : Float → Float → Float) :
    List Float → Except ValueFault Float
  | [] => .error (.arity f 0)
  | x :: xs => .ok (xs.foldl op x)

def Function.apply (f : Function) : List Float → Except ValueFault Float :=
  match f with
  | .ceil => f.applyOne wholeAbove
  | .floor => f.applyOne wholeBelow
  | .round => f.applyOne wholeNearest
  | .abs => f.applyOne Float.abs
  | .sqrt => f.applyOne Float.sqrt
  | .min => f.applyAll lesser
  | .max => f.applyAll greater

/-- Division by either zero is a fault. -/
def BinaryOp.apply (op : BinaryOp) (x y : Float) : Except ValueFault Float :=
  match op with
  | .add => .ok (x + y)
  | .sub => .ok (x - y)
  | .mul => .ok (x * y)
  | .div => if y == 0 then .error .divisionByZero else .ok (x / y)

namespace Expr

mutual

def evaluate : Expr → Except ValueFault Float
  | literal n => .ok n.toFloat
  | neg e => do return -(← evaluate e)
  | binary op l r => do
    let x ← evaluate l
    let y ← evaluate r
    op.apply x y
  | call name args => do
    let xs ← evaluateAll args
    match Function.ofName? name with
    | some f => f.apply xs
    | none => .error (.unknownFunction name)

def evaluateAll : List Expr → Except ValueFault (List Float)
  | [] => .ok []
  | e :: es => do
    let x ← evaluate e
    let xs ← evaluateAll es
    return x :: xs

end

mutual

/-- The number of nodes on the longest way down. -/
def height : Expr → Nat
  | literal _ => 1
  | neg e => height e + 1
  | binary _ l r => Nat.max (height l) (height r) + 1
  | call _ args => heightAll args + 1

def heightAll : List Expr → Nat
  | [] => 0
  | e :: es => Nat.max (height e) (heightAll es)

end

end Expr

end Tabletop.Arithmetic

import Tabletop.Arithmetic.Lexer

/-!
Reading an expression from lexemes. The reader holds one token and looks one ahead, so it has always read
one token more than it has used. An expression is a chain of terms, a term a chain of factors, and chains
group to the left; a factor is a number, a signed factor, an expression in parentheses or a call. Signs,
parentheses and calls nest at most `maxNesting` deep: `factor levels` reads a factor in which that many may
still be opened, and is defined from the reader for one level less. Each reader says that what it leaves is
no longer than what it was given, which is why chains and argument lists come to an end.
-/

namespace Tabletop.Arithmetic

/-- How deep signs, parentheses and calls may stand inside each other. -/
def maxNesting : Nat := 256

/-- The token in hand, the lexemes behind it and how they end. -/
structure Window where
  current : Token
  rest : List Lexeme
  ending : Ending
  deriving DecidableEq, Repr

namespace Window

def size (w : Window) : Nat := w.rest.length

/-- The token ahead. -/
def peek (w : Window) : Token :=
  match w.rest with
  | [] => .finish
  | l :: _ => l.token

/-- The number of characters read, the token ahead included. -/
def position (w : Window) : Nat :=
  match w.rest with
  | [] => w.ending.position
  | l :: _ => l.stop

def fail (w : Window) (fault : Fault) : Error := ⟨fault, some w.position⟩

/-- Takes the token ahead into the hand, which needs the one behind it to be readable. -/
def advance (w : Window) : Except Error { w' : Window // w'.size ≤ w.size - 1 } :=
  match h : w.rest, w.ending with
  | [], _ => .ok ⟨{ w with current := .finish }, by simp [size, h]⟩
  | [_], .fault fault position => .error ⟨fault, some position⟩
  | l :: ls, _ => .ok ⟨{ w with current := l.token, rest := ls }, by simp [size, h]⟩

/-- Takes the closing parenthesis that must be ahead. -/
def close (w : Window) : Except Error { w' : Window // w'.size ≤ w.size - 1 } :=
  if w.peek = .rightParen then w.advance else .error (w.fail .unclosedParenthesis)

/-- The first token of a text in hand. -/
def start (text : Lexed) : Except Error Window :=
  match text.lexemes, text.ending with
  | [], .finish _ => .error ⟨.empty, none⟩
  | [], .fault fault position => .error ⟨fault, some position⟩
  | [_], .fault fault position => .error ⟨fault, some position⟩
  | l :: ls, ending => .ok ⟨l.token, ls, ending⟩

end Window

/-- A phrase that was read, and the window with its last token in hand. -/
structure Parsed (bound : Nat) where
  tree : Expr
  window : Window
  size_le : window.size ≤ bound

/-- A reader of phrases whose first token is in hand. -/
abbrev Phrase := (w : Window) → Except Error (Parsed w.size)

/-- An additive operator. -/
def sumOp? : Token → Option BinaryOp
  | .plus => some .add
  | .minus => some .sub
  | _ => none

/-- A multiplicative operator. -/
def productOp? : Token → Option BinaryOp
  | .times => some .mul
  | .divide => some .div
  | _ => none

/-- Reads on from `left` for as long as an operator of the kind is ahead. -/
def chainFrom (op? : Token → Option BinaryOp) (operand : Phrase) (bound : Nat)
    (left : Expr) (w : Window) (size_le : w.size ≤ bound) : Except Error (Parsed bound) :=
  match _h : w.rest with
  | [] => .ok ⟨left, w, size_le⟩
  | ahead :: _ =>
    match op? ahead.token with
    | none => .ok ⟨left, w, size_le⟩
    | some op => do
      let w₁ ← w.advance
      let w₂ ← w₁.val.advance
      let right ← operand w₂
      chainFrom op? operand bound (.binary op left right.tree) right.window (by
        have := w₁.property; have := w₂.property; have := right.size_le; omega)
termination_by w.size
decreasing_by
  have := w₁.property; have := w₂.property; have := right.size_le
  simp only [Window.size, _h, List.length_cons] at *
  omega

/-- One operand or several, joined by operators of the kind. -/
def chain (op? : Token → Option BinaryOp) (operand : Phrase) : Phrase := fun w => do
  let first ← operand w
  chainFrom op? operand w.size first.tree first.window first.size_le

def term (factor : Phrase) : Phrase := chain productOp? factor

def expression (factor : Phrase) : Phrase := chain sumOp? (term factor)

/-- Reads the arguments that are still to come, the opening parenthesis or a comma in hand; `args` are
those before them, the last one first. -/
def arguments (argument : Phrase) (name : String) (bound : Nat) (args : List Expr) (w : Window)
    (size_le : w.size ≤ bound) : Except Error (Parsed bound) := do
  let w₁ ← w.advance
  let arg ← argument w₁
  match _h : arg.window.rest with
  | ⟨.comma, _, _⟩ :: _ => do
    let w₂ ← arg.window.advance
    arguments argument name bound (arg.tree :: args) w₂ (by
      have := w₁.property; have := w₂.property; have := arg.size_le; omega)
  | _ => do
    let w₂ ← arg.window.close
    .ok ⟨.call name (arg.tree :: args).reverse, w₂, by
      have := w₁.property; have := w₂.property; have := arg.size_le; omega⟩
termination_by w.size
decreasing_by
  have := w₁.property; have := w₂.property; have := arg.size_le
  simp only [Window.size, _h, List.length_cons] at *
  omega

/-- Reads a call whose name is in hand. -/
def call (argument : Phrase) (name : String) : Phrase := fun w =>
  if w.peek = .leftParen then do
    let w₁ ← w.advance
    if w₁.val.peek = .rightParen then
      let w₂ ← w₁.val.advance
      .ok ⟨.call name [], w₂, by have := w₁.property; have := w₂.property; omega⟩
    else
      arguments argument name w.size [] w₁ (by have := w₁.property; omega)
  else .error (w.fail (.unexpectedToken (.ident name)))

/-- Reads a factor, given the reader of factors one level further in, if there may be one. -/
def factorWithin (inner? : Option Phrase) : Phrase := fun w =>
  let nested (read : Phrase → Except Error (Parsed w.size)) : Except Error (Parsed w.size) :=
    match inner? with
    | none => .error (w.fail (.tooDeep maxNesting))
    | some inner => read inner
  match w.current with
  | .number n => .ok ⟨.literal n, w, Nat.le_refl _⟩
  | .minus => nested fun inner => do
    let w₁ ← w.advance
    let operand ← inner w₁
    .ok ⟨.neg operand.tree, operand.window, by
      have := w₁.property; have := operand.size_le; omega⟩
  | .plus => nested fun inner => do
    let w₁ ← w.advance
    let operand ← inner w₁
    .ok ⟨operand.tree, operand.window, by have := w₁.property; have := operand.size_le; omega⟩
  | .leftParen => nested fun inner => do
    let w₁ ← w.advance
    let inside ← expression inner w₁
    let w₂ ← inside.window.close
    .ok ⟨inside.tree, w₂, by
      have := w₁.property; have := w₂.property; have := inside.size_le; omega⟩
  | .ident name => nested fun inner => call (expression inner) name w
  | token => .error (w.fail (.unexpectedToken token))

/-- Reads a factor in which `levels` signs, parentheses and calls may be open at once. -/
def factor : (levels : Nat) → Phrase
  | 0 => factorWithin none
  | levels + 1 => factorWithin (some (factor levels))

/-- Reads lexemes as one expression, which must use them all. -/
def parseLexed (text : Lexed) : Except Error Expr := do
  let w ← Window.start text
  let whole ← expression (factor maxNesting) w
  match whole.window.rest with
  | [] => .ok whole.tree
  | ahead :: _ => .error (whole.window.fail (.trailingInput ahead.token))

def parse (text : List Char) : Except Error Expr := parseLexed (lex text)

@[simp] theorem factor_zero : factor 0 = factorWithin none := rfl

@[simp] theorem factor_succ (levels : Nat) :
    factor (levels + 1) = factorWithin (some (factor levels)) := rfl

end Tabletop.Arithmetic

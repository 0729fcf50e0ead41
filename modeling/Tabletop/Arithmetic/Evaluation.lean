import Tabletop.Arithmetic.Parser

/-!
The value of arithmetic text. A zero result never has a sign. Whatever consumes such values takes the
evaluator as a parameter, a function from texts to values or errors, of which `evaluate` is the usual one.
-/

namespace Tabletop.Arithmetic

abbrev Evaluator := String → Except Error Float

/-- Drops the sign of a zero. -/
def unsignedZero (x : Float) : Float := if x == 0 then 0 else x

def evaluate : Evaluator := fun text => do
  let tree ← parse text.toList
  match tree.evaluate with
  | .ok x => .ok (unsignedZero x)
  | .error fault => .error ⟨.value fault, none⟩

end Tabletop.Arithmetic

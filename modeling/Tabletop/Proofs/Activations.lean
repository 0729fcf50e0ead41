import Tabletop.Arithmetic.Parser
import Mathlib.Logic.Relation

/-!
The reader of expressions as a machine that takes one step at a time, with the calls that have not returned on an
explicit stack. A loop over tokens reads a factor and then goes on for as long as an operator is ahead that binds
more tightly than the loop's floor; what follows such an operator is read by another loop, with the operator as its
floor. Signs, parentheses and calls are nested, and a counter tells how many of them are open. Main statement:
between two nested calls the floors rise, so not more than three loops are open for each of them.
-/

namespace Tabletop.Arithmetic

/-- How tightly something binds, the loosest first; a sign binds more tightly than every operator. -/
inductive Precedence where
  | lowest
  | sum
  | product
  | sign
  deriving DecidableEq, Repr

namespace Precedence

def rank : Precedence → Nat
  | lowest => 1
  | sum => 2
  | product => 3
  | sign => 4

/-- The precedence of a token as an operator, which is the lowest if it is none. -/
def ofToken : Token → Precedence
  | .plus | .minus => sum
  | .times | .divide => product
  | _ => lowest

end Precedence

def BinaryOp.precedence : BinaryOp → Precedence
  | add | sub => .sum
  | mul | div => .product

def binaryOp? : Token → Option BinaryOp
  | .plus => some .add
  | .minus => some .sub
  | .times => some .mul
  | .divide => some .div
  | _ => none

/-- What a nested call is about. -/
inductive Task where
  | negate
  | affirm
  | group
  /-- A call, with the arguments before the one that is read, the last one first. -/
  | arguments (name : String) (args : List Expr)

/-- The floor of the loop that a nested call starts. -/
def Task.floor : Task → Precedence
  | negate | affirm => .sign
  | group | arguments .. => .lowest

/-- A call that has not returned. -/
inductive Frame where
  /-- A loop over tokens, whose left side is being read or waits for its operator to be applied. -/
  | loop (floor : Precedence)
  /-- An operator with its left side, the right one being read. -/
  | operand (op : BinaryOp) (left : Expr)
  /-- The guard of a nested call. -/
  | nested
  /-- The body of a nested call. -/
  | body (task : Task)

namespace Frame

def isLoop : Frame → Bool
  | loop _ => true
  | _ => false

def isNested : Frame → Bool
  | nested => true
  | _ => false

end Frame

/-- Whether a factor is to be read, or something is handed back to the innermost call. -/
inductive Control where
  | reading
  | returning (outcome : Except Error Expr)

structure Machine where
  window : Window
  /-- The counter of nested calls. -/
  depth : Nat
  /-- The open calls, the innermost one first. -/
  stack : List Frame
  control : Control

theorem precedence_of_binaryOp? {t : Token} {op : BinaryOp} (h : binaryOp? t = some op) :
    op.precedence = .ofToken t := by
  cases t <;> cases h <;> rfl

theorem Window.current_of_advance {w : Window} {w' : { w' : Window // w'.size ≤ w.size - 1 }}
    (h : w.advance = .ok w') : w'.val.current = w.peek := by
  obtain ⟨current, rest, ending⟩ := w
  rcases rest with _ | ⟨l, _ | ⟨l', ls⟩⟩
  · cases h
    rfl
  all_goals
    cases ending <;> cases h
    all_goals rfl

namespace Machine

/-- The machine that is to read a whole text, its first token in hand. -/
def start (w : Window) : Machine := ⟨w, 0, [.loop .lowest], .reading⟩

def give (m : Machine) (outcome : Except Error Expr) : Machine := { m with control := .returning outcome }

/-- Takes the token ahead, and goes on if it can be taken. -/
def advancing (m : Machine) (next : Machine → Machine) : Machine :=
  match m.window.advance with
  | .error e => m.give (.error e)
  | .ok w => next { m with window := w }

/-- Starts a loop. -/
def enter (floor : Precedence) (m : Machine) : Machine :=
  { m with stack := .loop floor :: m.stack, control := .reading }

/-- Starts a nested call if there may be one more. -/
def nest (m : Machine) (begin : Machine → Machine) : Machine :=
  if m.depth < maxNesting then begin { m with depth := m.depth + 1, stack := .nested :: m.stack }
  else m.give (.error (m.window.fail (.tooDeep maxNesting)))

/-- Reads what a nested call is about, which begins behind the token in hand. -/
def perform (task : Task) (m : Machine) : Machine :=
  m.advancing fun m => enter task.floor { m with stack := .body task :: m.stack }

/-- Reads the call whose name is in hand. -/
def beginCall (name : String) (m : Machine) : Machine :=
  if m.window.peek = .leftParen then
    m.advancing fun m =>
      if m.window.peek = .rightParen then m.advancing fun m => m.give (.ok (.call name []))
      else perform (.arguments name []) m
  else m.give (.error (m.window.fail (.unexpectedToken (.ident name))))

/-- Reads a factor. -/
def readFactor (m : Machine) : Machine :=
  match m.window.current with
  | .number n => m.give (.ok (.literal n))
  | .minus => m.nest (perform .negate)
  | .plus => m.nest (perform .affirm)
  | .leftParen => m.nest (perform .group)
  | .ident name => m.nest (beginCall name)
  | token => m.give (.error (m.window.fail (.unexpectedToken token)))

/-- Starts to read the right side of the operator in hand. -/
def beginOperand (left : Expr) (m : Machine) : Machine :=
  match binaryOp? m.window.current with
  | none => m.give (.error (m.window.fail (.unexpectedToken m.window.current)))
  | some op => m.advancing fun m => enter op.precedence { m with stack := .operand op left :: m.stack }

/-- Goes on with the innermost loop from its left side, or ends it. -/
def resumeLoop (floor : Precedence) (left : Expr) (m : Machine) : Machine :=
  if m.window.peek ≠ .finish ∧ floor.rank < (Precedence.ofToken m.window.peek).rank then
    { m with stack := .loop floor :: m.stack }.advancing (beginOperand left)
  else m.give (.ok left)

/-- Hands the closing parenthesis that must be ahead, and then the expression. -/
def close (e : Expr) (m : Machine) : Machine :=
  match m.window.close with
  | .error e => m.give (.error e)
  | .ok w => { m with window := w }.give (.ok e)

/-- Goes on with a nested call when what it is about was read. -/
def resumeTask (task : Task) (e : Expr) (m : Machine) : Machine :=
  match task with
  | .negate => m.give (.ok (.neg e))
  | .affirm => m.give (.ok e)
  | .group => m.close e
  | .arguments name args =>
    if m.window.peek = .comma then m.advancing (perform (.arguments name (e :: args)))
    else m.close (.call name (e :: args).reverse)

/-- Hands an outcome to a call that was taken off the stack. -/
def resume (frame : Frame) (outcome : Except Error Expr) (m : Machine) : Machine :=
  match frame, outcome with
  | .loop floor, .ok left => m.resumeLoop floor left
  | .operand op left, .ok right => m.give (.ok (.binary op left right))
  | .nested, outcome => { m with depth := m.depth - 1 }.give outcome
  | .body task, .ok e => m.resumeTask task e
  | _, .error e => m.give (.error e)

/-- One step. The machine stops when the outermost loop has returned. -/
def step (m : Machine) : Option Machine :=
  match m.control, m.stack with
  | .reading, _ => some m.readFactor
  | .returning _, [] => none
  | .returning outcome, frame :: stack => some ({ m with stack := stack }.resume frame outcome)

/-- The machine comes from one state to another, in any number of steps. -/
abbrev Run : Machine → Machine → Prop := Relation.ReflTransGen fun m m' => m.step = some m'

end Machine

/-- How many loops are open. -/
def openLoops (stack : List Frame) : Nat := stack.countP Frame.isLoop

/-- How many nested calls are open. -/
def openNested (stack : List Frame) : Nat := stack.countP Frame.isNested

section Stacks

variable {depth : Nat} {floor : Precedence} {stack : List Frame}

/-- The stacks on which a loop with that floor is the innermost call, with so many nested calls. -/
inductive Stacked : Nat → Precedence → List Frame → Prop
  | outermost : Stacked 0 .lowest [.loop .lowest]
  | operand {depth : Nat} {floor : Precedence} {stack : List Frame} (op : BinaryOp) (left : Expr) :
      Stacked depth floor stack → floor.rank < op.precedence.rank →
        Stacked depth op.precedence (.loop op.precedence :: .operand op left :: stack)
  | nested {depth : Nat} {floor : Precedence} {stack : List Frame} (task : Task) :
      Stacked depth floor stack → depth < maxNesting →
        Stacked (depth + 1) task.floor (.loop task.floor :: .body task :: .nested :: stack)

theorem Stacked.depth_le (h : Stacked depth floor stack) : depth ≤ maxNesting := by
  induction h with
  | outermost => exact Nat.zero_le _
  | operand _ _ _ _ ih => exact ih
  | nested _ _ hdepth _ => exact hdepth

theorem Stacked.exists_loop (h : Stacked depth floor stack) : ∃ rest, stack = .loop floor :: rest := by
  cases h <;> exact ⟨_, rfl⟩

theorem openNested_cons (frame : Frame) (stack : List Frame) :
    openNested (frame :: stack) = openNested stack + if frame.isNested then 1 else 0 := List.countP_cons

theorem openLoops_cons (frame : Frame) (stack : List Frame) :
    openLoops (frame :: stack) = openLoops stack + if frame.isLoop then 1 else 0 := List.countP_cons

/-- The counter is right. -/
theorem Stacked.openNested_eq (h : Stacked depth floor stack) : openNested stack = depth := by
  induction h with
  | outermost => rfl
  | operand _ _ _ _ ih => rw [openNested_cons, openNested_cons, ih]; rfl
  | nested _ _ _ ih => rw [openNested_cons, openNested_cons, openNested_cons, ih]; rfl

/-- Each nested call has at most three loops of its own, and no more than its innermost floor is high. -/
theorem Stacked.openLoops_le (h : Stacked depth floor stack) :
    openLoops stack ≤ 3 * depth + min floor.rank 3 := by
  induction h with
  | outermost => decide
  | @operand depth floor stack op left _ hfloor ih =>
    have hop : op.precedence.rank ≤ 3 := by cases op <;> decide
    simp only [openLoops_cons, Frame.isLoop, if_true, Bool.false_eq_true, if_false]
    omega
  | @nested depth floor stack task _ _ ih =>
    have htask : 1 ≤ task.floor.rank := by cases task <;> exact Nat.le_add_left ..
    simp only [openLoops_cons, Frame.isLoop, if_true, Bool.false_eq_true, if_false]
    omega

theorem Stacked.openLoops_le_max (h : Stacked depth floor stack) : openLoops stack ≤ 3 * (maxNesting + 1) := by
  have := h.openLoops_le
  have := h.depth_le
  omega

end Stacks

namespace Machine

variable {m m' : Machine}

/-- The states that are reached. Whatever hands an outcome back has its own calls taken off the stack. -/
inductive Valid : Machine → Prop
  | loop {w : Window} {depth : Nat} {floor : Precedence} {stack : List Frame} {control : Control} :
      Stacked depth floor stack → Valid ⟨w, depth, stack, control⟩
  | operand {w : Window} {depth : Nat} {floor : Precedence} {stack : List Frame} {op : BinaryOp} {left : Expr}
      {outcome : Except Error Expr} :
      Stacked depth floor stack → Valid ⟨w, depth, .operand op left :: stack, .returning outcome⟩
  | body {w : Window} {depth : Nat} {floor : Precedence} {stack : List Frame} {task : Task}
      {outcome : Except Error Expr} :
      Stacked depth floor stack → depth < maxNesting →
        Valid ⟨w, depth + 1, .body task :: .nested :: stack, .returning outcome⟩
  | nested {w : Window} {depth : Nat} {floor : Precedence} {stack : List Frame} {outcome : Except Error Expr} :
      Stacked depth floor stack → depth < maxNesting →
        Valid ⟨w, depth + 1, .nested :: stack, .returning outcome⟩
  | halted {w : Window} {outcome : Except Error Expr} : Valid ⟨w, 0, [], .returning outcome⟩

theorem valid_start (w : Window) : Valid (start w) := .loop .outermost

section Steps

variable {w : Window} {depth : Nat} {floor : Precedence} {stack : List Frame} {control : Control}

/-- What holds when no token can be taken and when one was taken holds after the attempt. -/
theorem advancing_induction {P : Machine → Prop} {next : Machine → Machine} (m : Machine)
    (fail : ∀ e, P (m.give (.error e)))
    (took : ∀ w, m.window.advance = .ok w → P (next { m with window := w })) : P (m.advancing next) := by
  unfold advancing
  split
  · exact fail _
  · next w hadv => exact took w hadv

theorem valid_close (hgive : ∀ w outcome, Valid ⟨w, depth, stack, .returning outcome⟩) (e : Expr) :
    Valid ((⟨w, depth, stack, control⟩ : Machine).close e) := by
  unfold close
  split <;> exact hgive _ _

theorem valid_perform (h : Stacked depth floor stack) (hdepth : depth < maxNesting) (task : Task) :
    Valid (perform task ⟨w, depth + 1, .nested :: stack, control⟩) :=
  advancing_induction _ (fun _ => .nested h hdepth) fun _ _ => .loop (.nested task h hdepth)

theorem valid_beginCall (h : Stacked depth floor stack) (hdepth : depth < maxNesting) (name : String) :
    Valid (beginCall name ⟨w, depth + 1, .nested :: stack, control⟩) := by
  unfold beginCall
  split
  · refine advancing_induction _ (fun _ => .nested h hdepth) fun w _ => ?_
    split
    · exact advancing_induction _ (fun _ => .nested h hdepth) fun _ _ => .nested h hdepth
    · exact valid_perform h hdepth (.arguments name [])
  · exact .nested h hdepth

theorem valid_nest (h : Stacked depth floor stack) {begin : Machine → Machine}
    (hbegin : depth < maxNesting → Valid (begin ⟨w, depth + 1, .nested :: stack, control⟩)) :
    Valid ((⟨w, depth, stack, control⟩ : Machine).nest begin) := by
  unfold nest
  split
  · next hdepth => exact hbegin hdepth
  · exact .loop h

theorem valid_readFactor (h : Stacked depth floor stack) :
    Valid (⟨w, depth, stack, control⟩ : Machine).readFactor := by
  unfold readFactor
  split
  · exact .loop h
  · exact valid_nest h fun hdepth => valid_perform h hdepth .negate
  · exact valid_nest h fun hdepth => valid_perform h hdepth .affirm
  · exact valid_nest h fun hdepth => valid_perform h hdepth .group
  · next name _ => exact valid_nest h fun hdepth => valid_beginCall h hdepth name
  · exact .loop h

/-- What is handed back to a loop when it ends. -/
theorem valid_of_loop (h : Stacked depth floor (.loop floor :: stack)) (w : Window) (outcome : Except Error Expr) :
    Valid ⟨w, depth, stack, .returning outcome⟩ := by
  cases h with
  | outermost => exact .halted
  | operand op left h _ => exact .operand h
  | nested task h hdepth => exact .body h hdepth

theorem valid_resumeLoop (h : Stacked depth floor (.loop floor :: stack)) (left : Expr) :
    Valid ((⟨w, depth, stack, control⟩ : Machine).resumeLoop floor left) := by
  unfold resumeLoop
  split
  · next hfloor =>
    apply advancing_induction _ (fun _ => .loop h)
    intro w₁ hadv
    unfold beginOperand
    split
    · exact .loop h
    · next op hop =>
      refine advancing_induction _ (fun _ => .loop h) fun w₂ _ => .loop (.operand op left h ?_)
      rw [precedence_of_binaryOp? hop, Window.current_of_advance hadv]
      exact hfloor.2
  · exact valid_of_loop h _ _

theorem valid_resumeTask (h : Stacked depth floor stack) (hdepth : depth < maxNesting) (task : Task) (e : Expr) :
    Valid ((⟨w, depth + 1, .nested :: stack, control⟩ : Machine).resumeTask task e) := by
  unfold resumeTask
  split
  · exact .nested h hdepth
  · exact .nested h hdepth
  · exact valid_close (fun _ _ => .nested h hdepth) e
  · split
    · exact advancing_induction _ (fun _ => .nested h hdepth) fun _ _ => valid_perform h hdepth _
    · exact valid_close (fun _ _ => .nested h hdepth) _

theorem valid_resume {frame : Frame} {outcome : Except Error Expr}
    (h : Valid ⟨w, depth, frame :: stack, .returning outcome⟩) :
    Valid ((⟨w, depth, stack, .returning outcome⟩ : Machine).resume frame outcome) := by
  cases h with
  | @loop _ _ floor _ _ h =>
    obtain ⟨rest, hstack⟩ := h.exists_loop
    obtain ⟨rfl, rfl⟩ := List.cons.inj hstack
    cases outcome with
    | error e => exact valid_of_loop h _ _
    | ok left => exact valid_resumeLoop h left
  | operand h => cases outcome <;> exact .loop h
  | body h hdepth =>
    cases outcome with
    | error e => exact .nested h hdepth
    | ok e => exact valid_resumeTask h hdepth _ e
  | nested h hdepth => exact .loop h

end Steps

/-- What one step leads to is valid again. -/
theorem valid_of_step (h : Valid m) (hstep : m.step = some m') : Valid m' := by
  obtain ⟨w, depth, stack, control⟩ := m
  cases control with
  | reading =>
    cases hstep
    cases h with
    | loop h => exact valid_readFactor h
  | returning outcome =>
    cases stack with
    | nil => cases hstep
    | cons frame stack =>
      cases hstep
      exact valid_resume h

theorem Valid.of_run (hm : Valid m) (h : Run m m') : Valid m' := by
  induction h with
  | refl => exact hm
  | tail _ hstep ih => exact valid_of_step ih hstep

theorem valid_of_run {w : Window} (h : Run (start w) m) : Valid m := (valid_start w).of_run h

theorem Valid.openNested_eq (h : Valid m) : openNested m.stack = m.depth := by
  cases h with
  | loop h => exact h.openNested_eq
  | operand h => rw [openNested_cons, h.openNested_eq]; rfl
  | body h _ => rw [openNested_cons, openNested_cons, h.openNested_eq]; rfl
  | nested h _ => rw [openNested_cons, h.openNested_eq]; rfl
  | halted => rfl

theorem Valid.depth_le (h : Valid m) : m.depth ≤ maxNesting := by
  cases h with
  | loop h => exact h.depth_le
  | operand h => exact h.depth_le
  | body _ hdepth => exact hdepth
  | nested _ hdepth => exact hdepth
  | halted => exact Nat.zero_le _

theorem Valid.openLoops_le (h : Valid m) : openLoops m.stack ≤ 3 * (maxNesting + 1) := by
  cases h with
  | loop h => exact h.openLoops_le_max
  | operand h => rw [openLoops_cons]; exact h.openLoops_le_max
  | body h _ => rw [openLoops_cons, openLoops_cons]; exact h.openLoops_le_max
  | nested h _ => rw [openLoops_cons]; exact h.openLoops_le_max
  | halted => exact Nat.zero_le _

end Machine

end Tabletop.Arithmetic

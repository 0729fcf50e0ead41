import Tabletop.Arithmetic.Parser

/-!
The grammar of arithmetic. A derivation is a tree of the rules that were used, and its category is the
nonterminal that it derives: an expression is a sum of terms, a term a product of factors, and both group
to the left because the rules recurse on their left side. Operands are of any type, so the same grammar
serves numbers, dice and what was rolled for them. Nothing in this module mentions how text is read.
-/

namespace Tabletop.Arithmetic

inductive Category where
  | factor
  | term
  | expression
  | arguments
  deriving DecidableEq, Repr

/-- What a phrase of the category is made into: one thing, or one for each argument. -/
abbrev Category.Of (β : Type) : Category → Type
  | .factor => β
  | .term => β
  | .expression => β
  | .arguments => List β

inductive Sign where
  | plus
  | minus
  deriving DecidableEq, Repr

def Sign.token : Sign → Token
  | plus => .plus
  | minus => .minus

def Sign.op : Sign → BinaryOp
  | plus => .add
  | minus => .sub

inductive Scaling where
  | times
  | divide
  deriving DecidableEq, Repr

def Scaling.token : Scaling → Token
  | times => .times
  | divide => .divide

def Scaling.op : Scaling → BinaryOp
  | times => .mul
  | divide => .div

theorem sumOp?_eq_some {t : Token} {op : BinaryOp} :
    sumOp? t = some op ↔ ∃ s : Sign, t = s.token ∧ op = s.op := by
  constructor
  · intro h
    unfold sumOp? at h
    split at h <;> cases h
    · exact ⟨.plus, rfl, rfl⟩
    · exact ⟨.minus, rfl, rfl⟩
  · rintro ⟨s, rfl, rfl⟩
    cases s <;> rfl

theorem productOp?_eq_some {t : Token} {op : BinaryOp} :
    productOp? t = some op ↔ ∃ s : Scaling, t = s.token ∧ op = s.op := by
  constructor
  · intro h
    unfold productOp? at h
    split at h <;> cases h
    · exact ⟨.times, rfl, rfl⟩
    · exact ⟨.divide, rfl, rfl⟩
  · rintro ⟨s, rfl, rfl⟩
    cases s <;> rfl

/-- A terminal: an operand, or one of the fixed tokens. -/
inductive Symbol (α : Type) where
  | operand (value : α)
  | token (token : Token)

/-- What a call of that name makes of its arguments. -/
def applyNamed (name : String) (xs : List Float) : Except ValueFault Float :=
  match Function.ofName? name with
  | some f => f.apply xs
  | none => .error (.unknownFunction name)

theorem evaluate_call (name : String) (args : List Expr) :
    Expr.evaluate (.call name args) = Expr.evaluateAll args >>= applyNamed name := by
  rw [Expr.evaluate]
  rfl

/-- A factor is an operand, a signed factor, an expression in parentheses or a call; a call has no arguments
or a list of them. -/
inductive Derivation (α : Type) : Category → Type where
  | operand (value : α) : Derivation α .factor
  | signed (sign : Sign) (d : Derivation α .factor) : Derivation α .factor
  | group (d : Derivation α .expression) : Derivation α .factor
  | callEmpty (name : String) : Derivation α .factor
  | call (name : String) (args : Derivation α .arguments) : Derivation α .factor
  | factor (d : Derivation α .factor) : Derivation α .term
  | product (l : Derivation α .term) (op : Scaling) (r : Derivation α .factor) : Derivation α .term
  | term (d : Derivation α .term) : Derivation α .expression
  | sum (l : Derivation α .expression) (op : Sign) (r : Derivation α .term) : Derivation α .expression
  | last (d : Derivation α .expression) : Derivation α .arguments
  | more (d : Derivation α .expression) (ds : Derivation α .arguments) : Derivation α .arguments

namespace Derivation

variable {α β : Type} {k : Category}

/-- The sentence that is derived. -/
def symbols {k : Category} : Derivation α k → List (Symbol α)
  | .operand a => [.operand a]
  | .signed s d => .token s.token :: d.symbols
  | .group d => .token .leftParen :: d.symbols ++ [.token .rightParen]
  | .callEmpty name => [.token (.ident name), .token .leftParen, .token .rightParen]
  | .call name ds =>
    .token (.ident name) :: .token .leftParen :: ds.symbols ++ [.token .rightParen]
  | .factor d => d.symbols
  | .product l op r => l.symbols ++ .token op.token :: r.symbols
  | .term d => d.symbols
  | .sum l op r => l.symbols ++ .token op.token :: r.symbols
  | .last d => d.symbols
  | .more d ds => d.symbols ++ .token .comma :: ds.symbols

/-- How many signs, parentheses and calls stand inside each other at most. -/
def nesting {k : Category} : Derivation α k → Nat
  | .operand _ => 0
  | .signed _ d => d.nesting + 1
  | .group d => d.nesting + 1
  | .callEmpty _ => 1
  | .call _ ds => ds.nesting + 1
  | .factor d => d.nesting
  | .product l _ r => max l.nesting r.nesting
  | .term d => d.nesting
  | .sum l _ r => max l.nesting r.nesting
  | .last d => d.nesting
  | .more d ds => max d.nesting ds.nesting

/-- The expression that a sentence stands for: parentheses only group, and a plus sign says nothing. -/
def tree {k : Category} : Derivation Numeral k → k.Of Expr
  | .operand n => Expr.literal n
  | .signed .plus d => d.tree
  | .signed .minus d => Expr.neg d.tree
  | .group d => d.tree
  | .callEmpty name => Expr.call name []
  | .call name ds => Expr.call name ds.tree
  | .factor d => d.tree
  | .product l op r => Expr.binary op.op l.tree r.tree
  | .term d => d.tree
  | .sum l op r => Expr.binary op.op l.tree r.tree
  | .last d => [d.tree]
  | .more d ds => d.tree :: ds.tree

/-- The value of a sentence whose operands have values, read off the derivation. -/
def value (operand : α → Float) {k : Category} : Derivation α k → Except ValueFault (k.Of Float)
  | .operand a => .ok (operand a)
  | .signed .plus d => d.value operand
  | .signed .minus d => do return -(← d.value operand)
  | .group d => d.value operand
  | .callEmpty name => applyNamed name []
  | .call name ds => ds.value operand >>= applyNamed name
  | .factor d => d.value operand
  | .product l op r => do
    let x ← l.value operand
    let y ← r.value operand
    op.op.apply x y
  | .term d => d.value operand
  | .sum l op r => do
    let x ← l.value operand
    let y ← r.value operand
    op.op.apply x y
  | .last d => do return [← d.value operand]
  | .more d ds => do
    let x ← d.value operand
    let xs ← ds.value operand
    return x :: xs

/-- The derivation in which every operand is replaced by a factor. -/
def bind (f : α → Derivation β .factor) {k : Category} : Derivation α k → Derivation β k
  | .operand a => f a
  | .signed s d => .signed s (d.bind f)
  | .group d => .group (d.bind f)
  | .callEmpty name => .callEmpty name
  | .call name ds => .call name (ds.bind f)
  | .factor d => .factor (d.bind f)
  | .product l op r => .product (l.bind f) op (r.bind f)
  | .term d => .term (d.bind f)
  | .sum l op r => .sum (l.bind f) op (r.bind f)
  | .last d => .last (d.bind f)
  | .more d ds => .more (d.bind f) (ds.bind f)

end Derivation

/-- The fixed token stands for itself, an operand for the sentence of its factor. -/
def Symbol.bind {α β : Type} (f : α → Derivation β .factor) : Symbol α → List (Symbol β)
  | .operand a => (f a).symbols
  | .token t => [.token t]

/-- A terminal as the token of a text. -/
def Symbol.toToken : Symbol Numeral → Token
  | .operand n => .number n
  | .token t => t

namespace Derivation

variable {α β : Type} {k : Category}

def tokens (d : Derivation Numeral k) : List Token := d.symbols.map Symbol.toToken

@[simp] theorem tokens_operand (n : Numeral) : (operand n).tokens = [.number n] := rfl

@[simp] theorem tokens_signed (s : Sign) (d : Derivation Numeral .factor) :
    (signed s d).tokens = s.token :: d.tokens := rfl

@[simp] theorem tokens_group (d : Derivation Numeral .expression) :
    (group d).tokens = .leftParen :: (d.tokens ++ [.rightParen]) := by
  simp [tokens, symbols, Symbol.toToken]

@[simp] theorem tokens_callEmpty (name : String) :
    (callEmpty name).tokens = [.ident name, .leftParen, .rightParen] := rfl

@[simp] theorem tokens_call (name : String) (ds : Derivation Numeral .arguments) :
    (call name ds).tokens = .ident name :: .leftParen :: (ds.tokens ++ [.rightParen]) := by
  simp [tokens, symbols, Symbol.toToken]

@[simp] theorem tokens_factor (d : Derivation Numeral .factor) : (factor d).tokens = d.tokens := rfl

@[simp] theorem tokens_product (l : Derivation Numeral .term) (op : Scaling)
    (r : Derivation Numeral .factor) :
    (product l op r).tokens = l.tokens ++ op.token :: r.tokens := by
  simp [tokens, symbols, Symbol.toToken]

@[simp] theorem tokens_term (d : Derivation Numeral .term) : (term d).tokens = d.tokens := rfl

@[simp] theorem tokens_sum (l : Derivation Numeral .expression) (op : Sign)
    (r : Derivation Numeral .term) : (sum l op r).tokens = l.tokens ++ op.token :: r.tokens := by
  simp [tokens, symbols, Symbol.toToken]

@[simp] theorem tokens_last (d : Derivation Numeral .expression) : (last d).tokens = d.tokens := rfl

@[simp] theorem tokens_more (d : Derivation Numeral .expression) (ds : Derivation Numeral .arguments) :
    (more d ds).tokens = d.tokens ++ .comma :: ds.tokens := by
  simp [tokens, symbols, Symbol.toToken]

/-- A sentence begins, and not with the end of a group. -/
theorem tokens_eq_cons (d : Derivation Numeral k) :
    ∃ t ts, d.tokens = t :: ts ∧ t ≠ .rightParen := by
  induction d with
  | operand n => exact ⟨_, _, tokens_operand n, by simp⟩
  | signed s d _ => exact ⟨_, _, tokens_signed s d, by cases s <;> simp [Sign.token]⟩
  | group d _ => exact ⟨_, _, tokens_group d, by simp⟩
  | callEmpty name => exact ⟨_, _, tokens_callEmpty name, by simp⟩
  | call name ds _ => exact ⟨_, _, tokens_call name ds, by simp⟩
  | factor d ih => exact ih
  | term d ih => exact ih
  | last d ih => exact ih
  | product l op r ihl _ =>
    obtain ⟨t, ts, h, ht⟩ := ihl
    exact ⟨t, _, by rw [tokens_product, h, List.cons_append], ht⟩
  | sum l op r ihl _ =>
    obtain ⟨t, ts, h, ht⟩ := ihl
    exact ⟨t, _, by rw [tokens_sum, h, List.cons_append], ht⟩
  | more d ds ihd _ =>
    obtain ⟨t, ts, h, ht⟩ := ihd
    exact ⟨t, _, by rw [tokens_more, h, List.cons_append], ht⟩

theorem tokens_ne_nil (d : Derivation Numeral k) : d.tokens ≠ [] := by
  obtain ⟨t, ts, h, -⟩ := d.tokens_eq_cons
  simp [h]

theorem symbols_bind (f : α → Derivation β .factor) (d : Derivation α k) :
    (d.bind f).symbols = d.symbols.flatMap (Symbol.bind f) := by
  induction d with
  | operand a => simp [bind, symbols, Symbol.bind]
  | _ => simp_all [bind, symbols, Symbol.bind, List.flatMap_cons]

theorem nesting_bind_le {f : α → Derivation β .factor} {n : Nat} (hf : ∀ a, (f a).nesting ≤ n)
    (d : Derivation α k) : (d.bind f).nesting ≤ d.nesting + n := by
  induction d with
  | operand a => simpa [bind, nesting] using hf a
  | _ => simp only [bind, nesting] at *; omega

theorem value_bind {f : α → Derivation β .factor} {x : α → Float} {y : β → Float}
    (hf : ∀ a, (f a).value y = .ok (x a)) (d : Derivation α k) :
    (d.bind f).value y = d.value x := by
  induction d with
  | operand a => exact hf a
  | signed s d ih => cases s <;> simp only [bind, value, ih]
  | _ => simp_all only [bind, value]

end Derivation

/-- Evaluation of what a phrase is made into. -/
def Category.evaluate : (k : Category) → k.Of Expr → Except ValueFault (k.Of Float)
  | .factor => Expr.evaluate
  | .term => Expr.evaluate
  | .expression => Expr.evaluate
  | .arguments => Expr.evaluateAll

namespace Derivation

variable {α : Type} {k : Category}

/-- Evaluating the expression of a sentence is evaluating the sentence. -/
theorem evaluate_tree (d : Derivation Numeral k) :
    k.evaluate d.tree = d.value Numeral.toFloat := by
  induction d with
  | operand n => rfl
  | signed s d ih => cases s <;> simp_all [Category.evaluate, tree, value, Expr.evaluate]
  | callEmpty name => exact evaluate_call name []
  | call name ds ih => exact (evaluate_call name ds.tree).trans (congrArg (· >>= applyNamed name) ih)
  | last d ih =>
    have hd : d.tree.evaluate = d.value Numeral.toFloat := ih
    simp only [Category.evaluate, tree, value, Expr.evaluateAll, hd]
    cases d.value Numeral.toFloat <;> rfl
  | _ => simp_all [Category.evaluate, tree, value, Expr.evaluate, Expr.evaluateAll]

end Derivation

end Tabletop.Arithmetic

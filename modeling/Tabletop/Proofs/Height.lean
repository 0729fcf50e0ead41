import Tabletop.Proofs.Reading

/-!
The height of parsed expressions. An expression is evaluated from its root, so its height is how deep the
evaluation goes. The limit on nesting does not bound it: operators in a row nest nothing, and each of them is
one more step down, because chains group to the left. Main statements: the height is at most the length of the
text, and on every level of nesting it grows at most by the operators that stand in a row; a sum of ones is as
high as it has operands.
-/

namespace Tabletop.Arithmetic

namespace Expr

@[simp] theorem height_literal (n : Numeral) : (literal n).height = 1 := rfl

@[simp] theorem height_neg (e : Expr) : (neg e).height = e.height + 1 := rfl

@[simp] theorem height_binary (op : BinaryOp) (l r : Expr) :
    (binary op l r).height = max l.height r.height + 1 := rfl

@[simp] theorem height_call (name : String) (args : List Expr) :
    (call name args).height = heightAll args + 1 := rfl

@[simp] theorem heightAll_nil : heightAll [] = 0 := rfl

@[simp] theorem heightAll_cons (e : Expr) (es : List Expr) :
    heightAll (e :: es) = max e.height (heightAll es) := rfl

end Expr

/-- The number of nodes on the longest way down in what a phrase is made into. -/
def Category.height : (k : Category) → k.Of Expr → Nat
  | .factor => Expr.height
  | .term => Expr.height
  | .expression => Expr.height
  | .arguments => Expr.heightAll

namespace Derivation

variable {α : Type} {k : Category}

/-- The number of operators that stand in a row at the top of a phrase. -/
def row {k : Category} : Derivation α k → Nat
  | .product l _ _ => l.row + 1
  | .sum l _ _ => l.row + 1
  | _ => 0

/-- The greatest number of operators in a row anywhere in a phrase. -/
def longestRow {k : Category} : Derivation α k → Nat
  | .operand _ => 0
  | .signed _ d => d.longestRow
  | .group d => d.longestRow
  | .callEmpty _ => 0
  | .call _ ds => ds.longestRow
  | .factor d => d.longestRow
  | .product l _ r => max (l.row + 1) (max l.longestRow r.longestRow)
  | .term d => d.longestRow
  | .sum l _ r => max (l.row + 1) (max l.longestRow r.longestRow)
  | .last d => d.longestRow
  | .more d ds => max d.longestRow ds.longestRow

/-- Every node of an expression has a token of its own. -/
theorem height_tree_le_length (d : Derivation Numeral k) : k.height d.tree ≤ d.tokens.length := by
  induction d with
  | operand n => exact Nat.le_refl 1
  | signed s d ih =>
    cases s <;> simp only [Category.height, tree, Expr.height_neg, tokens_signed, List.length_cons] at *
    · exact Nat.le_succ_of_le ih
    · exact Nat.succ_le_succ ih
  | callEmpty name => exact Nat.le_add_left 1 2
  | _ =>
    simp only [Category.height, tree, Expr.height_binary, Expr.height_call, Expr.heightAll_cons,
      Expr.heightAll_nil, tokens_group, tokens_call, tokens_factor, tokens_product, tokens_term, tokens_sum,
      tokens_last, tokens_more, List.length_append, List.length_cons] at *
    omega

/-- How much higher than its factors a phrase can be when no more than `w` operators stand in a row. -/
def widthWithin (w : Nat) {k : Category} (d : Derivation α k) : Nat :=
  match k with
  | .factor => 0
  | .term => d.row
  | .expression => w + d.row
  | .arguments => w + w

theorem row_le_longestRow (d : Derivation α k) : d.row ≤ d.longestRow := by
  cases d with
  | product l op r => exact Nat.le_max_left ..
  | sum l op r => exact Nat.le_max_left ..
  | _ => exact Nat.zero_le _

theorem widthWithin_le {w : Nat} (d : Derivation α k) (h : d.longestRow ≤ w) :
    widthWithin w d ≤ w + w := by
  have hrow := d.row_le_longestRow
  cases k with
  | factor => exact Nat.zero_le _
  | term => exact (hrow.trans h).trans (Nat.le_add_left w w)
  | expression => exact Nat.add_le_add_left (hrow.trans h) w
  | arguments => exact Nat.le_refl _

theorem height_tree_le_of_level {m w : Nat} (d : Derivation Numeral k) (hw : d.longestRow ≤ w)
    (h : k.height d.tree ≤ m * (w + w + 1) + widthWithin w d + 1) :
    k.height d.tree ≤ (m + 1) * (w + w + 1) := by
  have hwidth := d.widthWithin_le hw
  rw [Nat.succ_mul]
  omega

/-- On each level a sum of products has two rows of operators, and a sign or a call adds one node. -/
theorem height_tree_le {n w : Nat} (d : Derivation Numeral k) (hn : d.nesting ≤ n)
    (hw : d.longestRow ≤ w) : k.height d.tree ≤ n * (w + w + 1) + widthWithin w d + 1 := by
  induction d generalizing n with
  | operand a => exact Nat.le_add_left ..
  | signed s d ih =>
    obtain ⟨m, rfl⟩ := Nat.exists_eq_add_of_le' (Nat.one_le_of_lt hn)
    have hd := d.height_tree_le_of_level hw (ih (Nat.le_of_succ_le_succ hn) hw)
    cases s with
    | plus => exact Nat.le_succ_of_le hd
    | minus => exact Nat.succ_le_succ hd
  | group d ih =>
    obtain ⟨m, rfl⟩ := Nat.exists_eq_add_of_le' (Nat.one_le_of_lt hn)
    exact Nat.le_succ_of_le (d.height_tree_le_of_level hw (ih (Nat.le_of_succ_le_succ hn) hw))
  | callEmpty name => exact Nat.le_add_left ..
  | call name ds ih =>
    obtain ⟨m, rfl⟩ := Nat.exists_eq_add_of_le' (Nat.one_le_of_lt hn)
    exact Nat.succ_le_succ (ds.height_tree_le_of_level hw (ih (Nat.le_of_succ_le_succ hn) hw))
  | factor d ih => exact ih hn hw
  | product l op r ihl ihr =>
    simp only [nesting, longestRow, Nat.max_le] at hn hw
    have hl := ihl hn.1 hw.2.1
    have hr := ihr hn.2 hw.2.2
    simp only [Category.height, tree, Expr.height_binary, widthWithin, row] at hl hr ⊢
    omega
  | term d ih =>
    have hd := ih hn hw
    have hrow := d.row_le_longestRow.trans hw
    simp only [Category.height, tree, widthWithin, row] at hd ⊢
    omega
  | sum l op r ihl ihr =>
    simp only [nesting, longestRow, Nat.max_le] at hn hw
    have hl := ihl hn.1 hw.2.1
    have hr := ihr hn.2 hw.2.2
    have hrow := r.row_le_longestRow.trans hw.2.2
    simp only [Category.height, tree, Expr.height_binary, widthWithin, row] at hl hr ⊢
    omega
  | last d ih =>
    have hd := ih hn hw
    have hrow := d.row_le_longestRow.trans hw
    simp only [Category.height, tree, Expr.heightAll_cons, Expr.heightAll_nil, widthWithin] at hd ⊢
    omega
  | more d ds ihd ihds =>
    simp only [nesting, longestRow, Nat.max_le] at hn hw
    have hd := ihd hn.1 hw.1
    have hds := ihds hn.2 hw.2
    have hrow := d.row_le_longestRow.trans hw.1
    simp only [Category.height, tree, Expr.heightAll_cons, widthWithin] at hd hds ⊢
    omega

end Derivation

/-- An expression that is parsed is no higher than its text is long, and no higher than its levels allow with
the operators that stand in a row on each. With one operator in a row at most, that is a fixed bound. -/
theorem height_of_parse {text : String} {e : Expr} (h : parse text.toList = .ok e) :
    e.height ≤ text.length ∧
      ∃ d : Derivation Numeral .expression, Spells d.tokens text.toList ∧ d.tree = e ∧
        e.height ≤ (maxNesting + 1) * (2 * d.longestRow + 1) ∧
          (d.longestRow ≤ 1 → e.height ≤ 4 * (maxNesting + 1)) := by
  obtain ⟨d, hspells, hd, rfl⟩ := spells_of_parse h
  have hbound := d.height_tree_le_of_level (Nat.le_refl _) (d.height_tree_le hd (Nat.le_refl _))
  rw [← Nat.two_mul] at hbound
  refine ⟨?_, d, hspells, rfl, hbound, ?_⟩
  · rw [← String.length_toList]
    exact d.height_tree_le_length.trans hspells.length_le
  · intro hrow
    calc d.tree.height
      _ ≤ (maxNesting + 1) * (2 * d.longestRow + 1) := hbound
      _ ≤ (maxNesting + 1) * 4 := Nat.mul_le_mul_left _ (by omega)
      _ = 4 * (maxNesting + 1) := Nat.mul_comm ..

/-- A signed product in a sum. -/
theorem height_of_parse_signed_product :
    ∃ e, parse "1-2*-3".toList = .ok e ∧ e.height ≤ 6 := by
  have hparsed : (parse "1-2*-3".toList).isOk = true := by decide +kernel
  cases h : parse "1-2*-3".toList with
  | error fault =>
    rw [h] at hparsed
    cases hparsed
  | ok e => exact ⟨e, rfl, (height_of_parse h).1⟩

/-- The sum of a one and of `n` more. -/
def sumOfOnes : Nat → Derivation Numeral .expression
  | 0 => .term (.factor (.operand ⟨1, 0⟩))
  | n + 1 => .sum (sumOfOnes n) .plus (.factor (.operand ⟨1, 0⟩))

theorem nesting_sumOfOnes (n : Nat) : (sumOfOnes n).nesting = 0 := by
  induction n with
  | zero => rfl
  | succ n ih => rw [sumOfOnes, Derivation.nesting, ih]; rfl

theorem height_sumOfOnes (n : Nat) : (sumOfOnes n).tree.height = n + 1 := by
  induction n with
  | zero => rfl
  | succ n ih =>
    rw [sumOfOnes, Derivation.tree, Expr.height_binary, ih]
    simp [Derivation.tree]

theorem tokens_sumOfOnes (n : Nat) :
    (sumOfOnes n).tokens = .number ⟨1, 0⟩ :: (List.replicate n [.plus, .number ⟨1, 0⟩]).flatten := by
  induction n with
  | zero => rfl
  | succ n ih =>
    rw [sumOfOnes, Derivation.tokens_sum, ih, List.replicate_succ', List.flatten_append,
      List.flatten_singleton]
    rfl

/-- The text of the sum. -/
def onesText (n : Nat) : String := String.ofList ('1' :: (List.replicate n ['+', '1']).flatten)

theorem spells_onesText (n : Nat) : Spells (sumOfOnes n).tokens (onesText n).toList := by
  have hone : Token.Writing (.number ⟨1, 0⟩) ['1'] := .number rfl
  have hplus : Token.Writing .plus ['+'] := .mark rfl
  have hmore : Written (fun t run _ => t.Writing run)
      (List.replicate n [Token.plus, .number ⟨1, 0⟩]).flatten (List.replicate n ['+', '1']).flatten := by
    induction n with
    | zero => exact .finish blanks_nil
    | succ n ih =>
      have hsummand := Written.terminal blanks_nil hone ih
      simpa [List.replicate_succ] using Written.terminal blanks_nil hplus hsummand
  apply Derivation.spells_of_written
  rw [tokens_sumOfOnes, onesText, String.toList_ofList]
  exact .terminal blanks_nil hone hmore

/-- No bound on the height is good for texts of any length: a sum is as high as it has operands. -/
theorem exists_parse_onesText (n : Nat) :
    ∃ e, parse (onesText n).toList = .ok e ∧ e.height = n + 1 := by
  refine ⟨(sumOfOnes n).tree, parse_of_spells (spells_onesText n) ?_, height_sumOfOnes n⟩
  rw [nesting_sumOfOnes]
  exact Nat.zero_le maxNesting

/-- The sum of 1029 ones is higher than four times the levels of nesting. -/
theorem height_of_parse_long_sum :
    ∃ e, parse (onesText 1028).toList = .ok e ∧ 4 * (maxNesting + 1) < e.height := by
  obtain ⟨e, he, hheight⟩ := exists_parse_onesText 1028
  refine ⟨e, he, ?_⟩
  rw [hheight]
  decide

end Tabletop.Arithmetic

import Tabletop.Proofs.Reading

/-!
Sentences with other operands. Which sentences there are does not depend on what their operands are. Main
statements: a sentence stays one, nested as deeply and of the same value, if operands are put in the place of its
numbers; and it has a value only if all its names are those of functions.
-/

namespace Tabletop.Arithmetic

/-- A token as a terminal, in which numbers are operands. -/
def Token.symbol {α : Type} (operand : Numeral → α) : Token → Symbol α
  | number n => .operand (operand n)
  | t => .token t

@[simp] theorem Token.isMark_symbol {α : Type} (operand : Numeral → α) (t : Token) :
    (t.symbol operand).isMark = t.isMark := by
  cases t <;> rfl

/-- `t.Relabels numeral s`: the terminal is the token, or an operand for the number that the token is. -/
inductive Token.Relabels {α : Type} (numeral : α → Numeral) : Token → Symbol α → Prop
  | operand (a : α) : Relabels numeral (number (numeral a)) (.operand a)
  | token {t : Token} : (∀ n, t ≠ number n) → Relabels numeral t (.token t)

section Relabelling

variable {α : Type} {numeral : α → Numeral} {k : Category} {ss : List (Symbol α)} {t : Token} {ts us : List Token}

theorem Token.relabels_symbol {operand : Numeral → α} (h : ∀ n, numeral (operand n) = n) (t : Token) :
    t.Relabels numeral (t.symbol operand) := by
  cases t with
  | number n =>
    have hn : Relabels numeral (number (numeral (operand n))) (.operand (operand n)) := .operand _
    rwa [h n] at hn
  | _ => exact .token nofun

theorem exists_of_forall₂_cons (h : List.Forall₂ (Token.Relabels numeral) (t :: ts) ss) (ht : ∀ n, t ≠ .number n) :
    ∃ ss', ss = .token t :: ss' ∧ List.Forall₂ (Token.Relabels numeral) ts ss' := by
  cases h with
  | cons hs h =>
    cases hs with
    | operand a => exact absurd rfl (ht (numeral a))
    | token => exact ⟨_, rfl, h⟩

theorem exists_of_forall₂_append (h : List.Forall₂ (Token.Relabels numeral) (ts ++ us) ss) :
    ∃ ss₁ ss₂, ss = ss₁ ++ ss₂ ∧ List.Forall₂ (Token.Relabels numeral) ts ss₁ ∧
      List.Forall₂ (Token.Relabels numeral) us ss₂ := by
  induction ts generalizing ss with
  | nil => exact ⟨[], ss, rfl, .nil, h⟩
  | cons t ts ih =>
    cases h with
    | cons hs h =>
      obtain ⟨ss₁, ss₂, rfl, h₁, h₂⟩ := ih h
      exact ⟨_, ss₂, rfl, .cons hs h₁, h₂⟩

theorem exists_of_forall₂_infix (h : List.Forall₂ (Token.Relabels numeral) (ts ++ t :: us) ss)
    (ht : ∀ n, t ≠ .number n) :
    ∃ ss₁ ss₂, ss = ss₁ ++ .token t :: ss₂ ∧ List.Forall₂ (Token.Relabels numeral) ts ss₁ ∧
      List.Forall₂ (Token.Relabels numeral) us ss₂ := by
  obtain ⟨ss₁, ss', rfl, h₁, h'⟩ := exists_of_forall₂_append h
  obtain ⟨ss₂, rfl, h₂⟩ := exists_of_forall₂_cons h' ht
  exact ⟨ss₁, ss₂, rfl, h₁, h₂⟩

/-- A sentence of the same shape, with the same value if operands have the values of their numbers. -/
structure Derivation.Relabelled (numeral : α → Numeral) (d : Derivation Numeral k) (d' : Derivation α k) :
    Prop where
  nesting_eq : d'.nesting = d.nesting
  value_eq : d'.value (fun a => (numeral a).toFloat) = d.value Numeral.toFloat

/-- A sentence stays one with operands in the place of its numbers. -/
theorem Derivation.exists_relabelled (d : Derivation Numeral k)
    (h : List.Forall₂ (Token.Relabels numeral) d.tokens ss) :
    ∃ d' : Derivation α k, d'.symbols = ss ∧ d.Relabelled numeral d' := by
  induction d generalizing ss with
  | operand n =>
    obtain _ | ⟨hs, hnil⟩ := h
    cases hnil
    cases hs with
    | operand a => exact ⟨.operand a, rfl, rfl, rfl⟩
    | token ht => exact absurd rfl (ht n)
  | signed s d ih =>
    rw [tokens_signed] at h
    obtain ⟨ss₁, rfl, h₁⟩ := exists_of_forall₂_cons h (by cases s <;> simp [Sign.token])
    obtain ⟨d', rfl, hd⟩ := ih h₁
    exact ⟨.signed s d', rfl, congrArg (· + 1) hd.nesting_eq, by cases s <;> simp only [value, hd.value_eq]⟩
  | group d ih =>
    rw [tokens_group] at h
    obtain ⟨ss₁, rfl, h₁⟩ := exists_of_forall₂_cons h (by simp)
    obtain ⟨ss₂, us, rfl, h₂, hclose⟩ := exists_of_forall₂_infix h₁ (by simp)
    cases hclose
    obtain ⟨d', rfl, hd⟩ := ih h₂
    exact ⟨.group d', rfl, congrArg (· + 1) hd.nesting_eq, hd.value_eq⟩
  | callEmpty name =>
    rw [tokens_callEmpty] at h
    obtain ⟨ss₁, rfl, h₁⟩ := exists_of_forall₂_cons h (by simp)
    obtain ⟨ss₂, rfl, h₂⟩ := exists_of_forall₂_cons h₁ (by simp)
    obtain ⟨ss₃, rfl, h₃⟩ := exists_of_forall₂_cons h₂ (by simp)
    cases h₃
    exact ⟨.callEmpty name, rfl, rfl, rfl⟩
  | call name ds ih =>
    rw [tokens_call] at h
    obtain ⟨ss₁, rfl, h₁⟩ := exists_of_forall₂_cons h (by simp)
    obtain ⟨ss₂, rfl, h₂⟩ := exists_of_forall₂_cons h₁ (by simp)
    obtain ⟨ss₃, us, rfl, h₃, hclose⟩ := exists_of_forall₂_infix h₂ (by simp)
    cases hclose
    obtain ⟨ds', rfl, hds⟩ := ih h₃
    exact ⟨.call name ds', rfl, congrArg (· + 1) hds.nesting_eq, by simp only [value, hds.value_eq]⟩
  | factor d ih =>
    obtain ⟨d', rfl, hd⟩ := ih h
    exact ⟨.factor d', rfl, hd.nesting_eq, hd.value_eq⟩
  | product l op r ihl ihr =>
    rw [tokens_product] at h
    obtain ⟨ss₁, ss₂, rfl, h₁, h₂⟩ := exists_of_forall₂_infix h (by cases op <;> simp [Scaling.token])
    obtain ⟨l', rfl, hl⟩ := ihl h₁
    obtain ⟨r', rfl, hr⟩ := ihr h₂
    exact ⟨.product l' op r', rfl, congrArg₂ max hl.nesting_eq hr.nesting_eq,
      by simp only [value, hl.value_eq, hr.value_eq]⟩
  | term d ih =>
    obtain ⟨d', rfl, hd⟩ := ih h
    exact ⟨.term d', rfl, hd.nesting_eq, hd.value_eq⟩
  | sum l op r ihl ihr =>
    rw [tokens_sum] at h
    obtain ⟨ss₁, ss₂, rfl, h₁, h₂⟩ := exists_of_forall₂_infix h (by cases op <;> simp [Sign.token])
    obtain ⟨l', rfl, hl⟩ := ihl h₁
    obtain ⟨r', rfl, hr⟩ := ihr h₂
    exact ⟨.sum l' op r', rfl, congrArg₂ max hl.nesting_eq hr.nesting_eq,
      by simp only [value, hl.value_eq, hr.value_eq]⟩
  | last d ih =>
    obtain ⟨d', rfl, hd⟩ := ih h
    exact ⟨.last d', rfl, hd.nesting_eq, by simp only [value, hd.value_eq]⟩
  | more d ds ihd ihds =>
    rw [tokens_more] at h
    obtain ⟨ss₁, ss₂, rfl, h₁, h₂⟩ := exists_of_forall₂_infix h (by simp)
    obtain ⟨d', rfl, hd⟩ := ihd h₁
    obtain ⟨ds', rfl, hds⟩ := ihds h₂
    exact ⟨.more d' ds', rfl, congrArg₂ max hd.nesting_eq hds.nesting_eq,
      by simp only [value, hd.value_eq, hds.value_eq]⟩

end Relabelling

section Names

variable {α : Type} {k : Category} {name : String}

theorem isSome_of_applyNamed {xs : List Float} {x : Float} (h : applyNamed name xs = .ok x) :
    (Function.ofName? name).isSome = true := by
  unfold applyNamed at h
  split at h
  · next f hf => rw [hf, Option.isSome_some]
  · cases h

/-- Where a sentence has a value, all its names are known. -/
theorem Derivation.isSome_of_value {operand : α → Float} {d : Derivation α k} {x : k.Of Float}
    (h : d.value operand = .ok x) (hname : .token (.ident name) ∈ d.symbols) :
    (Function.ofName? name).isSome = true := by
  induction d with
  | operand a => simp [symbols] at hname
  | signed s d ih =>
    have hd : Symbol.token (.ident name) ∈ d.symbols := by
      cases s <;> simpa [symbols, Sign.token] using hname
    cases s with
    | plus => exact ih h hd
    | minus =>
      obtain ⟨y, hy, -⟩ := exists_of_bind_eq_ok h
      exact ih hy hd
  | group d ih => exact ih h (by simpa [symbols] using hname)
  | callEmpty name' =>
    obtain rfl : name = name' := by simpa [symbols] using hname
    exact isSome_of_applyNamed h
  | call name' ds ih =>
    obtain ⟨xs, hxs, happly⟩ := exists_of_bind_eq_ok h
    have hnames : name = name' ∨ .token (.ident name) ∈ ds.symbols := by simpa [symbols] using hname
    rcases hnames with rfl | hds
    · exact isSome_of_applyNamed happly
    · exact ih hxs hds
  | factor d ih => exact ih h hname
  | product l op r ihl ihr =>
    obtain ⟨y, hy, hright⟩ := exists_of_bind_eq_ok h
    obtain ⟨z, hz, -⟩ := exists_of_bind_eq_ok hright
    have hnames : .token (.ident name) ∈ l.symbols ∨ .token (.ident name) ∈ r.symbols := by
      cases op <;> simpa [symbols, Scaling.token] using hname
    exact hnames.elim (ihl hy) (ihr hz)
  | term d ih => exact ih h hname
  | sum l op r ihl ihr =>
    obtain ⟨y, hy, hright⟩ := exists_of_bind_eq_ok h
    obtain ⟨z, hz, -⟩ := exists_of_bind_eq_ok hright
    have hnames : .token (.ident name) ∈ l.symbols ∨ .token (.ident name) ∈ r.symbols := by
      cases op <;> simpa [symbols, Sign.token] using hname
    exact hnames.elim (ihl hy) (ihr hz)
  | last d ih =>
    obtain ⟨y, hy, -⟩ := exists_of_bind_eq_ok h
    exact ih hy hname
  | more d ds ihd ihds =>
    obtain ⟨y, hy, hrest⟩ := exists_of_bind_eq_ok h
    obtain ⟨ys, hys, -⟩ := exists_of_bind_eq_ok hrest
    have hnames : .token (.ident name) ∈ d.symbols ∨ .token (.ident name) ∈ ds.symbols := by
      simpa [symbols] using hname
    exact hnames.elim (ihd hy) (ihds hys)

theorem Derivation.mem_symbols_of_mem_tokens {d : Derivation Numeral k} (h : .ident name ∈ d.tokens) :
    .token (.ident name) ∈ d.symbols := by
  obtain ⟨s, hs, htoken⟩ := List.mem_map.mp h
  cases s with
  | operand n => cases htoken
  | token t =>
    obtain rfl : t = .ident name := htoken
    exact hs

theorem not_isDigit_of_isSome (h : (Function.ofName? name).isSome = true) :
    ∀ c ∈ name.toList, c.isDigit = false := by
  have hnone : name.toList.any Char.isDigit = false := by
    unfold Function.ofName? at h
    split at h
    all_goals first | rfl | cases h
  exact fun c hc => Bool.eq_false_iff.mpr (List.any_eq_false.mp hnone c hc)

end Names

end Tabletop.Arithmetic

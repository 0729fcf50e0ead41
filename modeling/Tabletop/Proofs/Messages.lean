import Tabletop.Proofs.Agreement
import Tabletop.Proofs.Answering
import Tabletop.Proofs.LetterCase

/-!
Messages of failures. A message quotes characters, numbers and names of the text that is at fault, and none of
these has a line feed in it: line feeds are blanks, which separate what is quoted. Main statement: whatever the
query, the message of a failure to answer it is a single line.
-/

namespace Tabletop

/-- Without a line feed. -/
def IsLine (s : String) : Prop := '\n' ∉ s.toList

instance (s : String) : Decidable (IsLine s) := inferInstanceAs (Decidable ('\n' ∉ s.toList))

theorem isLine_ofList {cs : List Char} : IsLine (String.ofList cs) ↔ '\n' ∉ cs := by
  rw [IsLine, String.toList_ofList]

theorem IsLine.append {s t : String} (hs : IsLine s) (ht : IsLine t) : IsLine (s ++ t) := by
  rw [IsLine, String.toList_append, List.mem_append, not_or]
  exact ⟨hs, ht⟩

theorem IsLine.after {s words : String} (h : IsLine s) (hwords : IsLine words) : IsLine (words ++ s) :=
  hwords.append h

theorem IsLine.before {s words : String} (h : IsLine s) (hwords : IsLine words) : IsLine (s ++ words) :=
  h.append hwords

section Numbers

open Arithmetic

variable {c : Char}

theorem Decimal.mem_positional {showsPlace : Bool} {d : Decimal} (h : c ∈ d.positional showsPlace) :
    c.isDigit = true ∨ c = '.' := by
  have hpadded : ∀ n, c ∈ List.replicate n '0' ++ Nat.toDigits 10 d.digits → c.isDigit = true := by
    intro n hc
    rcases List.mem_append.mp hc with hc | hc
    · rw [(List.mem_replicate.mp hc).2]
      rfl
    · exact isDigit_of_mem_toDigits hc
  unfold positional at h
  split at h
  · rcases List.mem_append.mp h with h | hplace
    · rcases List.mem_append.mp h with hdigits | hzeros
      · exact .inl (isDigit_of_mem_toDigits hdigits)
      · rw [(List.mem_replicate.mp hzeros).2]
        exact .inl rfl
    · cases showsPlace with
      | false => cases hplace
      | true =>
        rcases List.mem_pair.mp hplace with rfl | rfl
        · exact .inr rfl
        · exact .inl rfl
  · rcases List.mem_append.mp h with hwhole | h
    · exact .inl (hpadded _ (List.mem_of_mem_take hwhole))
    · rcases List.mem_cons.mp h with rfl | hplaces
      · exact .inr rfl
      · exact .inl (hpadded _ (List.mem_of_mem_drop hplaces))

theorem Decimal.mem_scientific {signsPower : Bool} {d : Decimal} (h : c ∈ d.scientific signsPower) :
    c.isDigit = true ∨ c ∈ ['.', 'e', '+', '-'] := by
  have hdigits : ∀ x ∈ Nat.toDigits 10 d.digits, x.isDigit = true := fun _ => isDigit_of_mem_toDigits
  have hpower : ∀ k, ∀ x ∈ Nat.toDigits 10 k, x.isDigit = true := fun _ _ => isDigit_of_mem_toDigits
  unfold scientific at h
  generalize Nat.toDigits 10 d.digits = ds at hdigits h
  rcases List.mem_append.mp h with hpoint | h
  · rcases ds with _ | ⟨d, _ | ⟨d', ds⟩⟩ <;> grind
  · split at h <;> grind

/-- What a written number consists of besides digits. -/
def NumberStyle.marks : List Char := ['.', 'e', '+', '-', 'N', 'a', 'i', 'n', 'f']

theorem NumberStyle.mem_chars {style : NumberStyle} {x : Float} (h : c ∈ style.chars x) :
    c.isDigit = true ∨ c ∈ marks := by
  unfold chars at h
  unfold marks
  split at h
  · grind
  · grind
  · next negative m e _ =>
    rcases List.mem_append.mp h with hsign | h
    · grind
    · have hpositional : ∀ d : Decimal, c ∈ d.positional style.showsPlace →
          c.isDigit = true ∨ c ∈ ['.', 'e', '+', '-'] :=
        fun d hd => (Decimal.mem_positional hd).imp_right fun hc => by simp [hc]
      have hmagnitude : c.isDigit = true ∨ c ∈ ['.', 'e', '+', '-'] := by
        split at h
        · exact hpositional _ h
        · unfold Decimal.write at h
          split at h
          · exact hpositional _ h
          · exact Decimal.mem_scientific h
      exact hmagnitude.imp_right fun hc => List.mem_append_left ['N', 'a', 'i', 'n', 'f'] hc

theorem NumberStyle.not_mem_text (hdigit : c.isDigit = false) (hmark : c ∉ marks) (style : NumberStyle)
    (x : Float) : c ∉ (style.text x).toList := by
  rw [text, String.toList_ofList]
  intro h
  rcases mem_chars h with h | h
  · rw [hdigit] at h
    cases h
  · exact hmark h

theorem newline_not_mem_toDigits (n : Nat) : '\n' ∉ Nat.toDigits 10 n :=
  fun h => absurd (isDigit_of_mem_toDigits h) (by decide)

theorem isLine_repr (n : Nat) : IsLine (Nat.repr n) := isLine_ofList.mpr (newline_not_mem_toDigits n)

theorem NumberStyle.isLine_text (style : NumberStyle) (x : Float) : IsLine (style.text x) :=
  not_mem_text rfl (by decide) style x

theorem Pool.isLine_text (p : Pool) : IsLine p.text := by
  refine isLine_ofList.mpr ?_
  simp [chars, newline_not_mem_toDigits]

end Numbers

/-- The value of an outcome has one property, or its failure has another. -/
def Ends {α ε : Type} (P : α → Prop) (R : ε → Prop) : Except ε α → Prop
  | .ok a => P a
  | .error e => R e

theorem Ends.bind {α β ε : Type} {P : α → Prop} {Q : β → Prop} {R : ε → Prop} {x : Except ε α}
    {f : α → Except ε β} (h : Ends P R x) (hf : ∀ a, P a → Ends Q R (f a)) : Ends Q R (x >>= f) := by
  cases x with
  | ok a => exact hf a h
  | error e => exact h

namespace Arithmetic

section Values

theorem ValueFault.isLine_arity (f : Function) (given : Nat) : IsLine (message (.arity f given)) := by
  have hname : IsLine f.name := by cases f <;> decide
  have harity : IsLine f.arity := by cases f <;> decide
  have htakes : IsLine ("function " ++ f.name ++ " takes ") := (hname.after (by decide)).before (by decide)
  exact ((htakes.append harity).before (by decide)).append (isLine_repr given)

/-- Whatever fault the value of a tree has, its message is a line. -/
def Expr.Clear (e : Expr) : Prop := Ends (fun _ => True) (fun f : ValueFault => IsLine f.message) e.evaluate

theorem clear_evaluateAll {es : List Expr} (h : ∀ e ∈ es, e.Clear) :
    Ends (fun _ => True) (fun f : ValueFault => IsLine f.message) (Expr.evaluateAll es) := by
  induction es with
  | nil => trivial
  | cons e es ih =>
    obtain ⟨he, hes⟩ := List.forall_mem_cons.mp h
    rw [Expr.evaluateAll]
    apply he.bind
    intro x _
    apply (ih hes).bind
    intro xs _
    trivial

theorem Expr.clear_literal (n : Numeral) : (literal n).Clear := trivial

theorem Expr.Clear.neg {e : Expr} (h : e.Clear) : e.neg.Clear := by
  unfold Clear
  rw [evaluate]
  apply h.bind
  intro x _
  trivial

theorem Expr.Clear.binary {l r : Expr} (hl : l.Clear) (hr : r.Clear) (op : BinaryOp) :
    (Expr.binary op l r).Clear := by
  unfold Clear
  rw [evaluate]
  apply hl.bind
  intro x _
  apply hr.bind
  intro y _
  cases op with
  | div =>
    simp only [BinaryOp.apply]
    split
    · exact (by decide : IsLine "division by zero")
    · trivial
  | _ => trivial

theorem Function.clear_apply (f : Function) (xs : List Float) :
    Ends (fun _ => True) (fun f : ValueFault => IsLine f.message) (f.apply xs) := by
  have hone : ∀ op, Ends (fun _ => True) (fun f : ValueFault => IsLine f.message) (f.applyOne op xs) := by
    intro op
    unfold applyOne
    split
    · trivial
    · exact ValueFault.isLine_arity f _
  have hall : ∀ op, Ends (fun _ => True) (fun f : ValueFault => IsLine f.message) (f.applyAll op xs) := by
    intro op
    unfold applyAll
    split
    · exact ValueFault.isLine_arity f _
    · trivial
  cases f with
  | min => exact hall _
  | max => exact hall _
  | _ => exact hone _

theorem Expr.clear_call {name : String} (hname : IsLine name) {args : List Expr} (h : ∀ e ∈ args, e.Clear) :
    (Expr.call name args).Clear := by
  unfold Clear
  rw [evaluate]
  apply (clear_evaluateAll h).bind
  intro xs _
  split
  · exact Function.clear_apply _ xs
  · exact hname.after (by decide)

end Values

section Lexemes

/-- What a token quotes is a line. -/
def Token.Clear (t : Token) : Prop := ∀ name, t = .ident name → IsLine name

theorem Token.Clear.isLine_quoted {t : Token} (h : t.Clear) : IsLine t.quoted := by
  cases t with
  | number n =>
    exact ((NumberStyle.isLine_text _ _).after (by decide)).before (by decide)
  | ident name =>
    exact ((h name rfl).after (by decide)).before (by decide)
  | _ =>
    unfold quoted
    decide

/-- An error whose message is a line. -/
def Error.Clear (e : Error) : Prop := IsLine e.message

theorem Error.clear_mk {fault : Fault} (h : IsLine fault.message) (position : Option Nat) :
    Error.Clear ⟨fault, position⟩ := by
  cases position with
  | none => exact h
  | some n =>
    exact (((isLine_repr n).after (by decide)).before (by decide)).append h

def Ending.Clear (e : Ending) : Prop := ∀ fault n, e = .fault fault n → IsLine fault.message

/-- What is split off a text has no line feed in it, and neither has the character that cannot be. -/
def Step.Clear : Step → Prop
  | .ending e => e.Clear
  | .lexeme l _ => l.token.Clear

theorem toLower_ne_newline {c : Char} (h : c.isAlphanum = true) : c.toLower ≠ '\n' := by
  have hc : 48 ≤ c.toNat := by
    rw [Char.isAlphanum, Bool.or_eq_true, isAlpha_iff_toNat, isDigit_iff_toNat] at h
    omega
  intro hnewline
  have hten : c.toLower.toNat = 10 := by rw [hnewline]; rfl
  rcases Text.toLower_cases c with ⟨-, hsame⟩ | ⟨-, hlower⟩
  · rw [hsame] at hten
    omega
  · omega

theorem clear_stepAt (start : Nat) {c : Char} (rest : List Char) (hc : Text.isBlank c = false) :
    (stepAt start c rest).Clear := by
  have hnewline : '\n' ≠ c := by
    rintro rfl
    cases hc
  unfold stepAt
  split
  · next t ht =>
    rintro name rfl
    unfold Token.ofChar? at ht
    split at ht <;> cases ht
  · split
    · next hpart =>
      dsimp only
      split
      · rintro name ⟨⟩
      · rintro fault n ⟨⟩
        refine (isLine_ofList.mpr ?_).after (by decide)
        intro h
        rcases List.mem_cons.mp h with h | h
        · exact hnewline h
        · have hparts := List.all_eq_true.mp List.all_takeWhile _ h
          revert hparts
          decide
    · split
      · next halpha =>
        rintro name ⟨⟩
        refine isLine_ofList.mpr fun h => ?_
        obtain ⟨x, hx, hlower⟩ := List.mem_map.mp h
        refine toLower_ne_newline ?_ hlower
        rcases List.mem_cons.mp hx with rfl | hx
        · rw [Char.isAlphanum, halpha, Bool.true_or]
        · exact List.all_eq_true.mp List.all_takeWhile x hx
      · rintro fault n ⟨⟩
        refine ((isLine_ofList.mpr ?_).after (by decide)).before (by decide)
        simpa using hnewline

theorem clear_step (position : Nat) (cs : List Char) : (step position cs).Clear := by
  unfold step
  dsimp only
  split
  · rintro fault n ⟨⟩
  · next c rest hdrop =>
    have hfirst : ∀ c ∈ (cs.dropWhile Text.isBlank).head?, Text.isBlank c = false := head?_dropWhile_eq_false
    rw [hdrop] at hfirst
    exact clear_stepAt _ rest (hfirst c rfl)

structure Lexed.Clear (text : Lexed) : Prop where
  lexemes : ∀ l ∈ text.lexemes, l.token.Clear
  ending : text.ending.Clear

theorem clear_lexFrom (position : Nat) (cs : List Char) : (lexFrom position cs).Clear := by
  induction position, cs using lexFrom.induct with
  | case1 position cs e h =>
    have hstep := clear_step position cs
    rw [h] at hstep
    rw [lexFrom_of_ending h]
    exact ⟨List.forall_mem_nil _, hstep⟩
  | case2 position cs l rest h ih =>
    have hstep := clear_step position cs
    rw [h] at hstep
    rw [lexFrom_of_lexeme h]
    exact ⟨List.forall_mem_cons.mpr ⟨hstep, ih.lexemes⟩, ih.ending⟩

end Lexemes

section Windows

structure Window.Clear (w : Window) : Prop where
  current : w.current.Clear
  rest : ∀ l ∈ w.rest, l.token.Clear
  ending : w.ending.Clear

/-- A phrase all of whose quotations, now or later, are lines. -/
structure Parsed.Clear {bound : Nat} (r : Parsed bound) : Prop where
  tree : r.tree.Clear
  window : r.window.Clear

/-- Reading from clear windows gives clear phrases or errors. -/
def Phrase.Clear (read : Phrase) : Prop := ∀ w, w.Clear → Ends Parsed.Clear Error.Clear (read w)

variable {w : Window}

theorem Window.Clear.advance (h : w.Clear) : Ends (fun w₁ => w₁.val.Clear) Error.Clear w.advance := by
  obtain ⟨current, rest, ending⟩ := w
  obtain ⟨-, hrest, hending⟩ := h
  match rest, ending with
  | [], ending => exact ⟨nofun, hrest, hending⟩
  | [_], .fault fault position => exact Error.clear_mk (hending fault position rfl) _
  | [l], .finish n => exact ⟨hrest l List.mem_cons_self, List.forall_mem_nil _, hending⟩
  | l :: l' :: ls, ending =>
    obtain ⟨hl, hls⟩ := List.forall_mem_cons.mp hrest
    cases ending with
    | finish n => exact ⟨hl, hls, hending⟩
    | fault fault n => exact ⟨hl, hls, hending⟩

theorem Window.Clear.close (h : w.Clear) : Ends (fun w₁ => w₁.val.Clear) Error.Clear w.close := by
  unfold Window.close
  split
  · exact h.advance
  · exact Error.clear_mk (by decide) _

section Chains

variable {op? : Token → Option BinaryOp} {operand : Phrase} {bound : Nat} {left : Expr}
  {size_le : w.size ≤ bound}

theorem Phrase.Clear.chainFrom (hoperand : Phrase.Clear operand) (hfinish : op? .finish = none)
    (hleft : left.Clear) (hw : w.Clear) :
    Ends Parsed.Clear Error.Clear (chainFrom op? operand bound left w size_le) := by
  induction hn : w.size using Nat.strong_induction_on generalizing w left with
  | _ n ih =>
    cases hahead : op? w.peek with
    | none =>
      rw [chainFrom_of_none hahead]
      exact ⟨hleft, hw⟩
    | some op =>
      rw [chainFrom_of_some hahead hfinish]
      apply hw.advance.bind
      intro w₁ hw₁
      apply hw₁.advance.bind
      intro w₂ hw₂
      apply (hoperand w₂ hw₂).bind
      intro right hright
      refine ih right.window.size ?_ (hleft.binary hright.tree op) hright.window rfl
      have hne : w.size ≠ 0 := by
        apply Window.size_ne_zero_of_peek rfl
        intro hpeek
        rw [hpeek, hfinish] at hahead
        cases hahead
      have := w₁.property; have := w₂.property; have := right.size_le
      omega

theorem Phrase.Clear.chain (hoperand : Phrase.Clear operand) (hfinish : op? .finish = none) :
    Phrase.Clear (chain op? operand) := by
  intro w hw
  apply (hoperand w hw).bind
  intro first hfirst
  exact hoperand.chainFrom hfinish hfirst.tree hfirst.window

end Chains

theorem Phrase.Clear.expression {factor : Phrase} (h : Phrase.Clear factor) :
    Phrase.Clear (expression factor) :=
  (h.chain rfl).chain rfl

section Calls

variable {argument : Phrase} {name : String}

theorem Phrase.Clear.arguments (hargument : Phrase.Clear argument) (hname : IsLine name) {bound : Nat}
    {args : List Expr} {size_le : w.size ≤ bound} (hargs : ∀ e ∈ args, e.Clear) (hw : w.Clear) :
    Ends Parsed.Clear Error.Clear (arguments argument name bound args w size_le) := by
  induction hn : w.size using Nat.strong_induction_on generalizing w args with
  | _ n ih =>
    rw [arguments_eq]
    apply hw.advance.bind
    intro w₁ hw₁
    apply (hargument w₁ hw₁).bind
    intro arg harg
    have hmore : ∀ e ∈ arg.tree :: args, e.Clear := List.forall_mem_cons.mpr ⟨harg.tree, hargs⟩
    by_cases hcomma : arg.window.peek = .comma
    · rw [if_pos hcomma]
      apply harg.window.advance.bind
      intro w₂ hw₂
      refine ih w₂.val.size ?_ hmore hw₂ rfl
      have hne := Window.size_ne_zero_of_peek hcomma nofun
      have := w₁.property; have := w₂.property; have := arg.size_le
      omega
    · rw [if_neg hcomma]
      apply harg.window.close.bind
      intro w₂ hw₂
      exact ⟨Expr.clear_call hname fun e he => hmore e (List.mem_reverse.mp he), hw₂⟩

theorem Phrase.Clear.call (hargument : Phrase.Clear argument) (hname : IsLine name) :
    Phrase.Clear (call argument name) := by
  intro w hw
  unfold Arithmetic.call
  split
  · apply hw.advance.bind
    intro w₁ hw₁
    split
    · apply hw₁.advance.bind
      intro w₂ hw₂
      exact ⟨Expr.clear_call hname (List.forall_mem_nil _), hw₂⟩
    · exact hargument.arguments hname (List.forall_mem_nil _) hw₁
  · refine Error.clear_mk ?_ _
    exact hname.after (by decide)

end Calls

theorem Token.Clear.isLine_message {t : Token} (h : t.Clear) : IsLine (Fault.message (.unexpectedToken t)) := by
  cases t with
  | ident name => exact (h name rfl).after (by decide)
  | _ => exact h.isLine_quoted.after (by decide)

theorem Window.clear_tooDeep (w : Window) (limit : Nat) : (w.fail (.tooDeep limit)).Clear := by
  refine Error.clear_mk ?_ _
  exact ((isLine_repr limit).after (by decide)).before (by decide)

theorem clear_factorWithin {inner? : Option Phrase} (hinner : ∀ inner ∈ inner?, Phrase.Clear inner) :
    Phrase.Clear (factorWithin inner?) := by
  intro w hw
  have hunexpected := Error.clear_mk hw.current.isLine_message (some w.position)
  obtain ⟨t, rest, ending⟩ := w
  cases inner? with
  | none =>
    cases t with
    | number n => exact ⟨Expr.clear_literal n, hw⟩
    | plus | minus | leftParen | ident => exact Window.clear_tooDeep _ _
    | _ => exact hunexpected
  | some inner =>
    have hinner := hinner inner rfl
    cases t with
    | number n => exact ⟨Expr.clear_literal n, hw⟩
    | plus =>
      apply hw.advance.bind
      intro w₁ hw₁
      apply (hinner w₁ hw₁).bind
      intro operand hoperand
      exact ⟨hoperand.tree, hoperand.window⟩
    | minus =>
      apply hw.advance.bind
      intro w₁ hw₁
      apply (hinner w₁ hw₁).bind
      intro operand hoperand
      exact ⟨hoperand.tree.neg, hoperand.window⟩
    | leftParen =>
      apply hw.advance.bind
      intro w₁ hw₁
      apply (hinner.expression w₁ hw₁).bind
      intro inside hinside
      apply hinside.window.close.bind
      intro w₂ hw₂
      exact ⟨hinside.tree, hw₂⟩
    | ident name => exact hinner.expression.call (hw.current name rfl) _ hw
    | _ => exact hunexpected

theorem clear_factor (levels : Nat) : Phrase.Clear (factor levels) := by
  induction levels with
  | zero => exact clear_factorWithin nofun
  | succ levels ih =>
    apply clear_factorWithin
    rintro inner ⟨⟩
    exact ih

theorem clear_parseLexed {text : Lexed} (h : text.Clear) : Ends Expr.Clear Error.Clear (parseLexed text) := by
  by_cases hne : text.lexemes = []
  · obtain ⟨lexemes, ending⟩ := text
    cases hne
    cases ending with
    | finish n => exact Error.clear_mk (by decide) _
    | fault fault n => exact Error.clear_mk (h.ending fault n rfl) _
  · have hw : Window.Clear ⟨.plus, text.lexemes, text.ending⟩ := ⟨nofun, h.lexemes, h.ending⟩
    rw [parseLexed_eq hne]
    apply hw.advance.bind
    intro w₁ hw₁
    apply ((clear_factor maxNesting).expression w₁ hw₁).bind
    intro whole hwhole
    cases hrest : whole.window.rest with
    | nil => exact hwhole.tree
    | cons l ls =>
      have hl : l.token.Clear := hwhole.window.rest l (by rw [hrest]; exact List.mem_cons_self)
      refine Error.clear_mk ?_ _
      exact hl.isLine_quoted.after (by decide)

/-- Whatever the text, the message of an error in it is a line. -/
theorem isLine_of_evaluate {text : String} {e : Error} (h : evaluate text = .error e) : IsLine e.message := by
  have hclear : Ends (fun _ => True) Error.Clear (evaluate text) := by
    unfold evaluate
    apply (clear_parseLexed (clear_lexFrom 0 text.toList)).bind
    intro tree htree
    unfold Expr.Clear at htree
    split
    · trivial
    · next fault hfault =>
      rw [hfault] at htree
      refine Error.clear_mk ?_ none
      exact htree
  rw [h] at hclear
  exact hclear

end Windows

end Arithmetic

/-- Whatever the query, the message of a failure to answer it is a line. -/
theorem Query.isLine_of_answer {σ : Type} [DieSource σ] {query : String} {mode : Scoring} {tray tray' : Tray σ}
    {e : Failure} (h : Query.answer Arithmetic.evaluate query mode tray = (.error e, tray')) :
    IsLine e.message := by
  obtain ⟨-, leaves, tray₁, -, -, hfail⟩ := Query.answer_eq_error h
  rcases Query.answerTerms_eq_error hfail with hrolls | ⟨-, rolls, tray₂, a, -, hvalue, rfl, -⟩
  · obtain ⟨p, rfl⟩ := Tray.rollAll_eq_error hrolls
    exact p.isLine_text.after (by decide)
  · exact (Arithmetic.isLine_of_evaluate hvalue).after (by decide)

end Tabletop

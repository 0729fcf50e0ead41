import Tabletop.Arithmetic.Lexer
import Tabletop.Proofs.Grammar
import Mathlib.Data.List.Chain

/-!
How sentences are written. The terminals of a sentence stand one behind the other with any blanks between
them, and each is written in one of its ways. Read as tokens, a text must moreover be cut as coarsely as
possible: a number is followed by neither digit nor point, and a name by neither letter nor digit. Main
statement: the lexemes of a text that is read to its end are the tokens that it spells, and no others.
-/

namespace Tabletop.Arithmetic

def Blanks (cs : List Char) : Prop := ∀ c ∈ cs, Text.isBlank c = true

instance (cs : List Char) : Decidable (Blanks cs) := decidable_of_iff (cs.all Text.isBlank = true) List.all_eq_true

theorem blanks_nil : Blanks [] := List.forall_mem_nil _

/-- `Written R ts cs`: the text `cs` is a way to write the terminals `ts`, where `R t run rest` says that
`t` may be written `run` in front of `rest`. -/
inductive Written {τ : Type} (R : τ → List Char → List Char → Prop) : List τ → List Char → Prop
  | finish {gap : List Char} : Blanks gap → Written R [] gap
  | terminal {gap run cs : List Char} {t : τ} {ts : List τ} :
      Blanks gap → R t run cs → Written R ts cs → Written R (t :: ts) (gap ++ run ++ cs)

namespace Token

/-- The ways to write a token. -/
inductive Writing : Token → List Char → Prop
  | mark {t : Token} {c : Char} : ofChar? c = some t → Writing t [c]
  | number {n : Numeral} {run : List Char} : Numeral.ofChars? run = some n → Writing (number n) run
  | ident {c : Char} {run : List Char} : c.isAlpha = true → (∀ x ∈ run, x.isAlphanum = true) →
      Writing (ident (String.ofList ((c :: run).map Char.toLower))) (c :: run)

/-- The tokens of one character, which nothing can lengthen. -/
def isMark : Token → Bool
  | plus | minus | times | divide | comma | leftParen | rightParen => true
  | number _ | ident _ | finish => false

/-- Whether a character behind a token would belong to it. -/
def absorbs : Token → Char → Bool
  | number _, c => Numeral.isPart c
  | ident _, c => c.isAlphanum
  | _, _ => false

/-- A token is written as `run`, and is not continued by what comes behind. -/
def Munch (t : Token) (run rest : List Char) : Prop :=
  t.Writing run ∧ ∀ c ∈ rest.head?, t.absorbs c = false

end Token

/-- The text consists of these tokens, each as long as possible, and blanks. -/
abbrev Spells : List Token → List Char → Prop := Written Token.Munch

section Characters

variable {c : Char}

theorem isDigit_of_mem_toDigits {n : Nat} (h : c ∈ Nat.toDigits 10 n) : c.isDigit = true :=
  Nat.isDigit_of_mem_toDigits (by decide) (by decide) h

theorem isDigit_iff_toNat : c.isDigit = true ↔ 48 ≤ c.toNat ∧ c.toNat ≤ 57 := by
  simp [Char.isDigit_iff_toNat]

theorem isAlpha_iff_toNat :
    c.isAlpha = true ↔ 65 ≤ c.toNat ∧ c.toNat ≤ 90 ∨ 97 ≤ c.toNat ∧ c.toNat ≤ 122 := by
  have halpha : c.isAlpha = (decide (c.val ≥ 'A'.val ∧ c.val ≤ 'Z'.val) ||
      (decide (c.val ≥ 'a'.val) && decide (c.val ≤ 'z'.val))) := rfl
  rw [halpha]
  simp [UInt32.le_iff_toNat_le, ← Char.toNat_val]

theorem isPart_iff_toNat :
    Numeral.isPart c = true ↔ 48 ≤ c.toNat ∧ c.toNat ≤ 57 ∨ c.toNat = 46 := by
  have hpoint : c = '.' ↔ c.toNat = 46 := ⟨fun h => h ▸ rfl, fun h => Char.toNat_inj.mp h⟩
  simp [Numeral.isPart, isDigit_iff_toNat, hpoint]

theorem not_isBlank_of_visible (h : 33 ≤ c.toNat ∧ c.toNat ≤ 126) : Text.isBlank c = false := by
  simp only [Text.isBlank, Bool.or_eq_false_iff, Bool.and_eq_false_iff, decide_eq_false_iff_not,
    beq_eq_false_iff_ne]
  omega

/-- The characters that are tokens of their own. -/
theorem ofChar?_eq_some_toNat {t : Token} (h : Token.ofChar? c = some t) :
    (40 ≤ c.toNat ∧ c.toNat ≤ 45) ∨ c.toNat = 47 := by
  unfold Token.ofChar? at h
  split at h <;> first | (cases h; decide) | cases h

theorem isMark_of_ofChar? {t : Token} (h : Token.ofChar? c = some t) : t.isMark = true := by
  unfold Token.ofChar? at h
  split at h <;> cases h <;> rfl

theorem ofChar?_eq_none_of_isPart (h : Numeral.isPart c = true) : Token.ofChar? c = none := by
  rw [isPart_iff_toNat] at h
  apply Option.eq_none_iff_forall_ne_some.mpr
  intro t ht
  have := ofChar?_eq_some_toNat ht
  omega

theorem ofChar?_eq_none_of_isAlpha (h : c.isAlpha = true) : Token.ofChar? c = none := by
  rw [isAlpha_iff_toNat] at h
  apply Option.eq_none_iff_forall_ne_some.mpr
  intro t ht
  have := ofChar?_eq_some_toNat ht
  omega

theorem not_isPart_of_isAlpha (h : c.isAlpha = true) : Numeral.isPart c = false := by
  rw [isAlpha_iff_toNat] at h
  rw [Bool.eq_false_iff, ne_eq, isPart_iff_toNat]
  omega

/-- A character that no number, no name and no pool goes on with. -/
def IsSeparator (c : Char) : Prop := Text.isBlank c = true ∨ (Token.ofChar? c).isSome = true

theorem IsSeparator.not_isPart (h : IsSeparator c) : Numeral.isPart c = false := by
  apply Bool.eq_false_iff.mpr
  intro hc
  rcases h with h | h
  · rw [not_isBlank_of_visible (by rw [isPart_iff_toNat] at hc; omega)] at h
    cases h
  · rw [ofChar?_eq_none_of_isPart hc] at h
    cases h

theorem IsSeparator.not_isAlpha (h : IsSeparator c) : c.isAlpha = false := by
  apply Bool.eq_false_iff.mpr
  intro hc
  rcases h with h | h
  · rw [not_isBlank_of_visible (by rw [isAlpha_iff_toNat] at hc; omega)] at h
    cases h
  · rw [ofChar?_eq_none_of_isAlpha hc] at h
    cases h

theorem IsSeparator.not_isAlphanum (h : IsSeparator c) : c.isAlphanum = false := by
  have hdigit : c.isDigit = false := by
    have := h.not_isPart
    simp only [Numeral.isPart, Bool.or_eq_false_iff] at this
    exact this.1
  simp [Char.isAlphanum, h.not_isAlpha, hdigit]

end Characters

theorem parts_of_ofChars? {run : List Char} {n : Numeral} (h : Numeral.ofChars? run = some n) :
    ∀ c ∈ run, Numeral.isPart c = true := by
  have hsome := Numeral.ofChars?_isSome run
  simp only [h, Option.isSome_some, Numeral.isWellFormed, Bool.true_eq, Bool.and_eq_true] at hsome
  exact List.all_eq_true.mp hsome.1.1

theorem Token.Writing.head_visible {t : Token} {run : List Char} (h : t.Writing run) :
    ∃ c cs, run = c :: cs ∧ Text.isBlank c = false := by
  cases h with
  | @mark _ c hc =>
    refine ⟨c, [], rfl, not_isBlank_of_visible ?_⟩
    have := ofChar?_eq_some_toNat hc
    omega
  | @number n run hn =>
    cases run with
    | nil => cases hn
    | cons c cs =>
      have hc := parts_of_ofChars? hn c List.mem_cons_self
      refine ⟨c, cs, rfl, not_isBlank_of_visible ?_⟩
      rw [isPart_iff_toNat] at hc
      omega
  | @ident c cs hc _ =>
    refine ⟨c, cs, rfl, not_isBlank_of_visible ?_⟩
    rw [isAlpha_iff_toNat] at hc
    omega

theorem Spells.length_le {ts : List Token} {cs : List Char} (h : Spells ts cs) : ts.length ≤ cs.length := by
  induction h with
  | finish => exact Nat.zero_le _
  | @terminal gap run cs t ts _ hrun _ ih =>
    obtain ⟨c, rest, rfl, -⟩ := hrun.1.head_visible
    simp only [List.length_append, List.length_cons]
    omega

theorem Token.Writing.separator {t : Token} {run : List Char} (h : t.Writing run)
    (ht : t.isMark = true) : ∃ c, run = [c] ∧ IsSeparator c := by
  cases h with
  | mark hc => exact ⟨_, rfl, .inr (by rw [hc]; rfl)⟩
  | number => cases ht
  | ident => cases ht

theorem Token.not_absorbs {t : Token} {c : Char} (h : t.isMark = true ∨ IsSeparator c) :
    t.absorbs c = false := by
  cases t with
  | number n => exact (h.resolve_left (by simp [isMark])).not_isPart
  | ident name => exact (h.resolve_left (by simp [isMark])).not_isAlphanum
  | _ => rfl

/-- What stands in front of a text whose first terminal is a mark, if any, is not continued by it. -/
theorem Written.separator_of_head? {τ : Type} {R : τ → List Char → List Char → Prop} {ts : List τ}
    {cs : List Char} (h : Written R ts cs)
    (hR : ∀ t ∈ ts.head?, ∀ run rest, R t run rest → ∃ c, run = [c] ∧ IsSeparator c) :
    ∀ c ∈ cs.head?, IsSeparator c := by
  cases h with
  | finish hgap => exact fun c hc => .inl (hgap c (List.mem_of_mem_head? hc))
  | @terminal gap run cs t ts hgap hrun _ =>
    intro c hc
    cases gap with
    | nil =>
      obtain ⟨x, rfl, hx⟩ := hR t rfl _ _ hrun
      cases hc
      exact hx
    | cons x gap =>
      cases hc
      exact .inl (hgap _ List.mem_cons_self)

/-- Where of two neighbours one is always a mark, a text cannot be cut in another way. -/
theorem Written.spells {ts : List Token} {cs : List Char}
    (h : Written (fun t run _ => t.Writing run) ts cs)
    (hts : ts.IsChain fun t t' => t.isMark = true ∨ t'.isMark = true) : Spells ts cs := by
  induction h with
  | finish hgap => exact .finish hgap
  | @terminal gap run cs t ts hgap hrun hrest ih =>
    rw [List.isChain_cons] at hts
    refine .terminal hgap ⟨hrun, fun c hc => Token.not_absorbs ?_⟩ (ih hts.2)
    by_cases ht : t.isMark = true
    · exact .inl ht
    · refine .inr (hrest.separator_of_head? (fun t' ht' run' _ hrun' => ?_) c hc)
      exact hrun'.separator ((hts.1 t' ht').resolve_left ht)

/-- A run of characters is as long as possible when the character behind it is not of the kind. -/
theorem span_append {p : Char → Bool} {run : List Char} (rest : List Char) (hrun : ∀ c ∈ run, p c = true)
    (hrest : ∀ c ∈ rest.head?, p c = false) :
    (run ++ rest).takeWhile p = run ∧ (run ++ rest).dropWhile p = rest := by
  rw [List.takeWhile_append_of_pos hrun, List.dropWhile_append_of_pos hrun]
  cases rest with
  | nil => simp
  | cons c cs => simp [hrest c rfl]

/-- A text is cut in one way into such a run and what stands behind it. -/
theorem span_append_inj {p : Char → Bool} {xs xs' ys ys' : List Char} (h : xs ++ ys = xs' ++ ys')
    (hxs : ∀ c ∈ xs, p c = true) (hys : ∀ c ∈ ys.head?, p c = false) (hxs' : ∀ c ∈ xs', p c = true)
    (hys' : ∀ c ∈ ys'.head?, p c = false) : xs = xs' ∧ ys = ys' := by
  obtain ⟨htake, hdrop⟩ := span_append ys hxs hys
  obtain ⟨htake', hdrop'⟩ := span_append ys' hxs' hys'
  rw [h] at htake hdrop
  exact ⟨htake.symm.trans htake', hdrop.symm.trans hdrop'⟩

theorem head?_dropWhile_eq_false {p : Char → Bool} {cs : List Char} :
    ∀ c ∈ (cs.dropWhile p).head?, p c = false := by
  intro c hc
  simpa [Option.mem_def.mp hc] using List.head?_dropWhile_not p cs

theorem Token.Munch.stepAt_eq {t : Token} {c : Char} {run rest : List Char} (start : Nat)
    (h : t.Munch (c :: run) rest) :
    stepAt start c (run ++ rest) = .lexeme ⟨t, start, start + (c :: run).length⟩ rest := by
  obtain ⟨hwriting, hend⟩ := h
  cases hwriting with
  | mark hc => simp [stepAt, hc]
  | number hn =>
    have hparts := parts_of_ofChars? hn
    have hc := hparts c List.mem_cons_self
    obtain ⟨htake, hdrop⟩ := span_append rest (fun x hx => hparts x (List.mem_cons_of_mem c hx)) hend
    simp only [stepAt, ofChar?_eq_none_of_isPart hc, hc, if_true, htake, hdrop, hn]
  | ident hc hrun =>
    obtain ⟨htake, hdrop⟩ := span_append rest hrun hend
    simp [stepAt, ofChar?_eq_none_of_isAlpha hc, not_isPart_of_isAlpha hc, hc, htake, hdrop]

/-- A token is read with its whole run, the blanks before it being skipped. -/
theorem Token.Munch.step_eq {t : Token} {gap run rest : List Char} (position : Nat)
    (hgap : Blanks gap) (h : t.Munch run rest) :
    step position (gap ++ run ++ rest) =
      .lexeme ⟨t, position + gap.length, position + gap.length + run.length⟩ rest := by
  obtain ⟨c, cs, rfl, hc⟩ := h.1.head_visible
  obtain ⟨htake, hdrop⟩ := span_append (c :: cs ++ rest) hgap (by simpa using hc)
  simp only [step, List.append_assoc, htake, hdrop]
  exact h.stepAt_eq _

theorem step_of_blanks {gap : List Char} (position : Nat) (hgap : Blanks gap) :
    step position gap = .ending (.finish (position + gap.length)) := by
  obtain ⟨htake, hdrop⟩ := span_append [] hgap (by simp)
  rw [List.append_nil] at htake hdrop
  simp only [step, htake, hdrop]

theorem Token.munch_of_stepAt {start : Nat} {c : Char} {rest rest' : List Char} {l : Lexeme}
    (h : stepAt start c rest = .lexeme l rest') :
    ∃ run, rest = run ++ rest' ∧ l.token.Munch (c :: run) rest' ∧
      l.start = start ∧ l.stop = start + (c :: run).length := by
  unfold stepAt at h
  split at h
  · next t hc =>
    cases h
    exact ⟨[], rfl, ⟨.mark hc, fun _ _ => not_absorbs (.inl (isMark_of_ofChar? hc))⟩, rfl, rfl⟩
  · split at h
    · dsimp only at h
      split at h
      · next n hn =>
        cases h
        exact ⟨_, List.takeWhile_append_dropWhile.symm, ⟨.number hn, head?_dropWhile_eq_false⟩, rfl, rfl⟩
      · cases h
    · split at h
      · next hc =>
        cases h
        refine ⟨_, List.takeWhile_append_dropWhile.symm, ⟨.ident hc ?_, head?_dropWhile_eq_false⟩,
          rfl, rfl⟩
        exact fun x hx => List.all_eq_true.mp List.all_takeWhile x hx
      · cases h

theorem Token.munch_of_step {position : Nat} {cs rest : List Char} {l : Lexeme}
    (h : step position cs = .lexeme l rest) :
    ∃ gap run, cs = gap ++ run ++ rest ∧ Blanks gap ∧ l.token.Munch run rest ∧
      l.start = position + gap.length ∧ l.stop = l.start + run.length := by
  unfold step at h
  dsimp only at h
  split at h
  · cases h
  · next c rest' hdrop =>
    obtain ⟨run, rfl, hmunch, hstart, hstop⟩ := munch_of_stepAt h
    refine ⟨cs.takeWhile Text.isBlank, c :: run, ?_, ?_, hmunch, hstart, by rw [hstart, hstop]⟩
    · rw [List.append_assoc, List.cons_append, ← hdrop, List.takeWhile_append_dropWhile]
    · exact fun x hx => List.all_eq_true.mp List.all_takeWhile x hx

theorem blanks_of_step {position n : Nat} {cs : List Char}
    (h : step position cs = .ending (.finish n)) : Blanks cs := by
  unfold step at h
  dsimp only at h
  split at h
  · next hdrop =>
    rw [← List.takeWhile_append_dropWhile (p := Text.isBlank) (l := cs), hdrop, List.append_nil]
    exact fun x hx => List.all_eq_true.mp List.all_takeWhile x hx
  · unfold stepAt at h
    dsimp only at h
    repeat' split at h
    all_goals cases h

theorem lexFrom_of_spells {ts : List Token} {cs : List Char} (h : Spells ts cs) (position : Nat) :
    ∃ ls n, lexFrom position cs = ⟨ls, .finish n⟩ ∧ ls.map Lexeme.token = ts := by
  induction h generalizing position with
  | finish hgap => exact ⟨[], _, lexFrom_of_ending (step_of_blanks position hgap), rfl⟩
  | @terminal gap run cs t ts hgap hmunch _ ih =>
    have hstep := hmunch.step_eq position hgap
    obtain ⟨ls, n, hls, hts⟩ := ih (position + gap.length + run.length)
    have hcs := lexFrom_of_lexeme hstep
    rw [hls] at hcs
    exact ⟨_, n, hcs, by rw [List.map_cons, hts]⟩

theorem spells_of_lexFrom {position n : Nat} {cs : List Char} {ls : List Lexeme}
    (h : lexFrom position cs = ⟨ls, .finish n⟩) : Spells (ls.map Lexeme.token) cs := by
  induction ls generalizing position cs with
  | nil =>
    cases hstep : step position cs with
    | ending e =>
      rw [lexFrom_of_ending hstep] at h
      cases h
      exact .finish (blanks_of_step hstep)
    | lexeme l rest => simp [lexFrom_of_lexeme hstep] at h
  | cons l ls ih =>
    cases hstep : step position cs with
    | ending e => simp [lexFrom_of_ending hstep] at h
    | lexeme l' rest =>
      rw [lexFrom_of_lexeme hstep, Lexed.mk.injEq, List.cons.injEq] at h
      obtain ⟨⟨rfl, hls⟩, hend⟩ := h
      obtain ⟨gap, run, rfl, hgap, hmunch, -, -⟩ := Token.munch_of_step hstep
      refine .terminal hgap hmunch (@ih l'.stop _ ?_)
      rw [← hls, ← hend]

/-- A text is read to its end as the tokens that it spells. -/
theorem spells_iff_lex {ts : List Token} {cs : List Char} :
    Spells ts cs ↔ ∃ ls n, lex cs = ⟨ls, .finish n⟩ ∧ ls.map Lexeme.token = ts := by
  constructor
  · intro h
    exact lexFrom_of_spells h 0
  · rintro ⟨ls, n, h, rfl⟩
    exact spells_of_lexFrom h

section Marks

variable {α : Type} {k : Category}

def Symbol.isMark : Symbol α → Bool
  | .operand _ => false
  | .token t => t.isMark

/-- Of two neighbours in a sentence one is always a mark. -/
def Apart (ss : List (Symbol α)) : Prop := ss.IsChain fun s s' => s.isMark = true ∨ s'.isMark = true

theorem Apart.insert {ss us : List (Symbol α)} {s : Symbol α} (hss : Apart ss) (hs : s.isMark = true)
    (hus : Apart us) : Apart (ss ++ s :: us) := by
  unfold Apart at *
  rw [List.isChain_append, List.isChain_cons]
  refine ⟨hss, ⟨fun _ _ => .inl hs, hus⟩, fun _ _ s' hs' => ?_⟩
  cases hs'
  exact .inr hs

theorem apart_nil : Apart ([] : List (Symbol α)) := List.IsChain.nil

theorem Apart.cons {ss : List (Symbol α)} {s : Symbol α} (hs : s.isMark = true) (hss : Apart ss) :
    Apart (s :: ss) := apart_nil.insert hs hss

theorem apart_singleton (s : Symbol α) : Apart [s] := List.IsChain.singleton s

theorem Sign.isMark_token (s : Sign) : s.token.isMark = true := by cases s <;> rfl

theorem Scaling.isMark_token (s : Scaling) : s.token.isMark = true := by cases s <;> rfl

theorem Derivation.apart_symbols (d : Derivation α k) : Apart d.symbols := by
  induction d with
  | operand a => exact apart_singleton _
  | signed s d ih => exact ih.cons s.isMark_token
  | group d ih => exact (ih.insert rfl apart_nil).cons rfl
  | callEmpty name => exact (apart_singleton _).insert rfl (apart_nil.cons rfl)
  | call name ds ih => exact (apart_singleton _).insert rfl (ih.insert rfl apart_nil)
  | factor d ih => exact ih
  | product l op r ihl ihr => exact ihl.insert op.isMark_token ihr
  | term d ih => exact ih
  | sum l op r ihl ihr => exact ihl.insert op.isMark_token ihr
  | last d ih => exact ih
  | more d ds ihd ihds => exact ihd.insert rfl ihds

theorem Derivation.spells_of_written {d : Derivation Numeral k} {cs : List Char}
    (h : Written (fun t run _ => t.Writing run) d.tokens cs) : Spells d.tokens cs := by
  have hmark : ∀ s : Symbol Numeral, s.isMark = true → s.toToken.isMark = true := by
    intro s hs
    cases s with
    | operand n => cases hs
    | token t => exact hs
  apply h.spells
  apply (List.isChain_map _).mpr
  apply d.apart_symbols.imp
  intro s s' hss
  exact hss.imp (hmark s) (hmark s')

end Marks

end Tabletop.Arithmetic

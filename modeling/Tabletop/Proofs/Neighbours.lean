import Tabletop.Proofs.Agreement

/-!
Operands side by side. No sentence has two operands with nothing between them, so a text with such neighbours is
malformed, whatever else it is. Blanks are nothing in this sense: digits, blanks and again digits make such a
text, and it does not matter what surrounds them.
-/

namespace Tabletop.Arithmetic

namespace Token

/-- Both tokens belong to operands, and to different ones; the parenthesis behind a name opens a call. -/
def abut : Token → Token → Bool
  | number _, number _ | number _, ident _ | number _, leftParen => true
  | rightParen, number _ | rightParen, ident _ | rightParen, leftParen => true
  | ident _, number _ | ident _, ident _ => true
  | _, _ => false

theorem abut_of_isOpening {t u : Token} (h : t.isOpening = true) : t.abut u = false := by
  cases t <;> first | rfl | cases h

end Token

/-- No two neighbours belong to different operands. -/
def Joined (ts : List Token) : Prop := ts.IsChain fun t u => t.abut u = false

theorem joined_nil : Joined [] := List.IsChain.nil

theorem Joined.cons {t : Token} {ts : List Token} (ht : t.isOpening = true) (hts : Joined ts) :
    Joined (t :: ts) :=
  List.isChain_cons.mpr ⟨fun _ _ => Token.abut_of_isOpening ht, hts⟩

theorem Joined.append {ts us : List Token} (hts : Joined ts) (hus : Joined us)
    (h : ∀ u ∈ us.head?, ∀ t : Token, t.abut u = false) : Joined (ts ++ us) :=
  List.isChain_append.mpr ⟨hts, hus, fun t _ u hu => h u hu t⟩

/-- An operator or a comma separates. -/
theorem Joined.insert {t : Token} {ts us : List Token} (hts : Joined ts) (ht : t.isOpening = true)
    (hbefore : ∀ u : Token, u.abut t = false) (hus : Joined us) : Joined (ts ++ t :: us) := by
  apply hts.append (hus.cons ht)
  intro u hu
  cases hu
  exact hbefore

/-- A closing parenthesis is no operand's beginning. -/
theorem Joined.close {ts : List Token} (hts : Joined ts) : Joined (ts ++ [.rightParen]) := by
  apply hts.append (List.IsChain.singleton _)
  intro u hu t
  cases hu
  cases t <;> rfl

theorem Sign.isOpening_token (s : Sign) : s.token.isOpening = true := by cases s <;> rfl

theorem Scaling.isOpening_token (s : Scaling) : s.token.isOpening = true := by cases s <;> rfl

theorem Sign.abut_token (s : Sign) (t : Token) : t.abut s.token = false := by cases s <;> cases t <;> rfl

theorem Scaling.abut_token (s : Scaling) (t : Token) : t.abut s.token = false := by
  cases s <;> cases t <;> rfl

/-- In a sentence no operands stand side by side. -/
theorem Derivation.joined_tokens {k : Category} (d : Derivation Numeral k) : Joined d.tokens := by
  induction d with
  | operand n => exact List.IsChain.singleton _
  | signed s d ih =>
    rw [tokens_signed]
    exact ih.cons s.isOpening_token
  | group d ih =>
    rw [tokens_group]
    exact ih.close.cons rfl
  | callEmpty name =>
    have hcall : Joined [.leftParen, .rightParen] := joined_nil.close.cons rfl
    exact List.isChain_cons.mpr ⟨fun t ht => by cases ht; rfl, hcall⟩
  | call name ds ih =>
    rw [tokens_call]
    exact List.isChain_cons.mpr ⟨fun t ht => by cases ht; rfl, ih.close.cons rfl⟩
  | factor d ih => exact ih
  | product l op r ihl ihr =>
    rw [tokens_product]
    exact ihl.insert op.isOpening_token op.abut_token ihr
  | term d ih => exact ih
  | sum l op r ihl ihr =>
    rw [tokens_sum]
    exact ihl.insert op.isOpening_token op.abut_token ihr
  | last d ih => exact ih
  | more d ds ihd ihds =>
    rw [tokens_more]
    exact ihd.insert rfl (fun t => by cases t <;> rfl) ihds

section Blank

variable {c x : Char} {xs ys gap run : List Char} {ts : List Token} {t : Token}

theorem Token.Writing.not_isBlank (h : t.Writing run) : ∀ c ∈ run, Text.isBlank c = false := by
  intro c hc
  apply Bool.eq_false_iff.mpr
  intro hblank
  have hseparator : IsSeparator c := .inl hblank
  cases h with
  | mark ht =>
    rw [List.mem_singleton.mp hc, not_isBlank_of_visible] at hblank
    · cases hblank
    · have := ofChar?_eq_some_toNat ht
      omega
  | number hn =>
    have hpart := parts_of_ofChars? hn c hc
    rw [hseparator.not_isPart] at hpart
    cases hpart
  | ident hfirst hrest =>
    have halphanum : c.isAlphanum = true := by
      rcases List.mem_cons.mp hc with rfl | hc
      · simp [Char.isAlphanum, hfirst]
      · exact hrest c hc
    rw [hseparator.not_isAlphanum] at halphanum
    cases halphanum

theorem append_cons_eq_append {α : Type} {a : α} {xs ys as bs : List α} (h : xs ++ a :: ys = as ++ bs) :
    (∃ es, as = xs ++ a :: es ∧ ys = es ++ bs) ∨ ∃ es, xs = as ++ es ∧ bs = es ++ a :: ys := by
  rcases List.append_eq_append_iff.mp h with ⟨es, rfl, hes⟩ | ⟨es, rfl, hes⟩
  · cases es with
    | nil => exact .inr ⟨[], by rw [List.append_nil, List.append_nil], hes.symm⟩
    | cons e es =>
      obtain ⟨rfl, rfl⟩ := List.cons.inj hes
      exact .inl ⟨es, rfl, rfl⟩
  · exact .inr ⟨es, rfl, hes⟩

/-- A blank separates tokens. -/
theorem spells_append_blank (hc : Text.isBlank c = true) (h : Spells ts (xs ++ c :: ys)) :
    ∃ us vs, ts = us ++ vs ∧ Spells us xs ∧ Spells vs ys := by
  generalize hcs : xs ++ c :: ys = cs at h
  induction h generalizing xs with
  | finish hgap =>
    subst hcs
    have hxs : Blanks xs := fun x hx => hgap x (List.mem_append_left _ hx)
    have hys : Blanks ys := fun y hy => hgap y (List.mem_append_right _ (List.mem_cons_of_mem c hy))
    exact ⟨[], [], rfl, .finish hxs, .finish hys⟩
  | @terminal gap run cs t ts hgap hrun hrest ih =>
    rw [List.append_assoc] at hcs
    rcases append_cons_eq_append hcs with ⟨es, rfl, rfl⟩ | ⟨es, rfl, hes⟩
    · -- The blank stands in front of the token.
      have hxs : Blanks xs := fun x hx => hgap x (List.mem_append_left _ hx)
      have hblanks : Blanks es := fun x hx => hgap x (List.mem_append_right _ (List.mem_cons_of_mem _ hx))
      refine ⟨[], t :: ts, rfl, .finish hxs, ?_⟩
      rw [← List.append_assoc]
      exact .terminal hblanks hrun hrest
    · rcases append_cons_eq_append hes.symm with ⟨fs, rfl, -⟩ | ⟨fs, rfl, hfs⟩
      · have hnot := hrun.1.not_isBlank c (by simp)
        rw [hnot] at hc
        cases hc
      · obtain ⟨us, vs, rfl, hus, hvs⟩ := ih hfs.symm
        refine ⟨t :: us, vs, rfl, ?_, hvs⟩
        rw [← List.append_assoc]
        refine .terminal hgap ⟨hrun.1, fun x hx => hrun.2 x ?_⟩ hus
        rw [hfs]
        exact List.mem_head?_append_of_mem_head? hx

theorem not_isBlank_of_isDigit (hx : x.isDigit = true) : Text.isBlank x = false :=
  not_isBlank_of_isPart (isPart_of_isDigit hx)

theorem not_blanks_of_mem (hx : x.isDigit = true) (hmem : x ∈ xs) : ¬Blanks xs := by
  intro h
  have hblank := h x hmem
  rw [not_isBlank_of_isDigit hx] at hblank
  cases hblank

/-- A token with a digit in it is a number or a name. -/
theorem Token.Writing.abut_of_mem (h : t.Writing run) (hx : x.isDigit = true) (hmem : x ∈ run) (n : Numeral) :
    t.abut (.number n) = true := by
  cases h with
  | mark ht =>
    rw [← List.mem_singleton.mp hmem, ofChar?_eq_none_of_isPart (isPart_of_isDigit hx)] at ht
    cases ht
  | number => rfl
  | ident => rfl

theorem Token.Writing.eq_number (h : t.Writing (x :: run)) (hx : x.isDigit = true) :
    ∃ n, t = Token.number n := by
  cases h with
  | mark ht =>
    rw [ofChar?_eq_none_of_isPart (isPart_of_isDigit hx)] at ht
    cases ht
  | number => exact ⟨_, rfl⟩
  | ident hfirst =>
    have hpart := not_isPart_of_isAlpha hfirst
    rw [isPart_of_isDigit hx] at hpart
    cases hpart

theorem exists_last_of_spells (hx : x.isDigit = true) (h : Spells ts (xs ++ [x])) :
    ∃ us t, ts = us ++ [t] ∧ ∀ n, t.abut (.number n) = true := by
  generalize hcs : xs ++ [x] = cs at h
  induction h generalizing xs with
  | finish hgap => exact absurd hgap (not_blanks_of_mem hx (by simp [← hcs]))
  | @terminal gap run cs t ts hgap hrun hrest ih =>
    rw [List.append_assoc] at hcs
    rcases append_cons_eq_append hcs with ⟨es, rfl, -⟩ | ⟨es, rfl, hes⟩
    · exact absurd hgap (not_blanks_of_mem hx (by simp))
    · rcases append_cons_eq_append hes.symm with ⟨fs, rfl, hfs⟩ | ⟨fs, rfl, hfs⟩
      · -- The digit belongs to this token, and nothing is behind it.
        have hlength := Spells.length_le hrest
        rw [(List.append_eq_nil_iff.mp hfs.symm).2] at hlength
        have hts : ts = [] := List.eq_nil_of_length_eq_zero (Nat.le_zero.mp hlength)
        exact ⟨[], t, by rw [hts, List.nil_append], hrun.1.abut_of_mem hx (by simp)⟩
      · obtain ⟨us, u, rfl, hu⟩ := ih hfs.symm
        exact ⟨t :: us, u, rfl, hu⟩

theorem exists_first_of_spells (hgap : Blanks gap) (hx : x.isDigit = true) (h : Spells ts (gap ++ x :: ys)) :
    ∃ n us, ts = .number n :: us := by
  generalize hcs : gap ++ x :: ys = cs at h
  cases h with
  | finish hblanks => exact absurd hblanks (not_blanks_of_mem hx (by simp [← hcs]))
  | @terminal gap' run cs t ts hgap' hrun hrest =>
    rw [List.append_assoc] at hcs
    rcases append_cons_eq_append hcs with ⟨es, rfl, -⟩ | ⟨es, rfl, hes⟩
    · exact absurd hgap' (not_blanks_of_mem hx (by simp))
    · obtain ⟨c, rest, rfl, hc⟩ := hrun.1.head_visible
      cases es with
      | nil =>
        cases hes
        obtain ⟨n, rfl⟩ := hrun.1.eq_number hx
        exact ⟨n, ts, rfl⟩
      | cons e es =>
        obtain ⟨rfl, -⟩ := List.cons.inj hes
        rw [hgap c (by simp)] at hc
        cases hc

/-- Digits that blanks separate make a text malformed, whatever surrounds them. -/
theorem malformed_of_digits_apart {y : Char} (hx : x.isDigit = true) (hc : Text.isBlank c = true)
    (hgap : Blanks gap) (hy : y.isDigit = true) :
    ∃ k, malformationIn (parse (xs ++ [x] ++ c :: (gap ++ y :: ys))) = some k := by
  cases h : parse (xs ++ [x] ++ c :: (gap ++ y :: ys)) with
  | error e => exact exists_malformation (not_blanks_of_mem hx (by simp)) h
  | ok e =>
    obtain ⟨d, hspells, -⟩ := spells_of_parse h
    obtain ⟨us, vs, htokens, hus, hvs⟩ := spells_append_blank hc hspells
    obtain ⟨us, t, rfl, ht⟩ := exists_last_of_spells hx hus
    obtain ⟨n, vs, rfl⟩ := exists_first_of_spells hgap hy hvs
    have hjoined := d.joined_tokens
    rw [htokens, Joined, List.isChain_append] at hjoined
    have habut := hjoined.2.2 t (by simp) (.number n) rfl
    rw [ht n] at habut
    cases habut

/-- Operands side by side make a text malformed. -/
theorem malformed_of_abut {cs : List Char} {l l' : Lexeme} (h : [l, l'] <:+: (lex cs).lexemes)
    (habut : l.token.abut l'.token = true) : ∃ k, malformationIn (parse cs) = some k := by
  have hcs : ¬Blanks cs := by
    intro hblanks
    have hlex : lex cs = ⟨[], _⟩ := lexFrom_of_ending (step_of_blanks 0 hblanks)
    rw [hlex] at h
    cases List.infix_nil.mp h
  cases hparse : parse cs with
  | error e => exact exists_malformation hcs hparse
  | ok e =>
    obtain ⟨m, -, d, -, htokens, -⟩ := parseLexed_sound hparse
    have hjoined := d.joined_tokens
    rw [htokens] at hjoined
    have hpair : Joined [l.token, l'.token] := List.IsChain.infix hjoined (h.map Lexeme.token)
    have hnot := List.isChain_pair.mp hpair
    rw [habut] at hnot
    cases hnot

end Blank

end Tabletop.Arithmetic

import Tabletop.Proofs.Spelling

/-!
The places of lexemes. What a text is split into lies in it from left to right, with nothing but blanks between.
Main statements: where the lexemes are divided the text is divided too, between what some of them spell and what is
left for the others; a lexeme covers the run that its token was read from; and a text ends either with blanks, or at
a character that begins no token, or with a run of digits and points that is no number.
-/

namespace Tabletop.Arithmetic

section Spelling

variable {t : Token} {ts : List Token} {run rest cs gap : List Char}

theorem Token.Munch.of_append (h : t.Munch run (cs ++ rest)) : t.Munch run cs := by
  refine ⟨h.1, fun c hc => h.2 c ?_⟩
  cases cs with
  | nil => cases hc
  | cons => exact hc

theorem Blanks.append (h : Blanks cs) (hgap : Blanks gap) : Blanks (cs ++ gap) :=
  fun c hc => (List.mem_append.mp hc).elim (h c) (hgap c)

theorem Spells.append_blanks (h : Spells ts cs) (hgap : Blanks gap) : Spells ts (cs ++ gap) := by
  induction h with
  | finish hblanks => exact .finish (hblanks.append hgap)
  | @terminal lead run cs t ts hlead hrun _ ih =>
    rw [List.append_assoc]
    refine .terminal hlead ⟨hrun.1, ?_⟩ ih
    intro c hc
    cases cs with
    | nil => exact Token.not_absorbs (.inr (.inl (hgap c (List.mem_of_mem_head? hc))))
    | cons => exact hrun.2 c hc

theorem Token.Writing.ne_nil (h : t.Writing run) : run ≠ [] := by
  obtain ⟨c, cs, rfl, -⟩ := h.head_visible
  exact List.cons_ne_nil c cs

/-- A digit or a point at the end of a token that none of them continues is a digit of a name. -/
theorem Token.Munch.isPart_getLast {x y : Char} (h : t.Munch run (y :: rest)) (hy : Numeral.isPart y = true)
    (hx : x ∈ run.getLast?) (hpart : Numeral.isPart x = true) :
    x.isDigit = true ∧ ∃ letter name, run = letter :: name ∧ letter.isAlpha = true ∧
      ∀ c ∈ name, c.isAlphanum = true := by
  obtain ⟨hwriting, hend⟩ := h
  cases hwriting with
  | @mark t c hc =>
    obtain rfl : c = x := by simpa using hx
    rw [ofChar?_eq_none_of_isPart hpart] at hc
    cases hc
  | number =>
    have hnot : Numeral.isPart y = false := hend y rfl
    rw [hy] at hnot
    cases hnot
  | @ident letter name hletter hname =>
    refine ⟨?_, letter, name, rfl, hletter, hname⟩
    have halphanum : x.isAlphanum = true := by
      rcases List.mem_cons.mp (List.mem_of_getLast? hx) with rfl | hmem
      · rw [not_isPart_of_isAlpha hletter] at hpart
        cases hpart
      · exact hname x hmem
    have halpha : x.isAlpha = false := by
      apply Bool.eq_false_iff.mpr
      intro halpha
      rw [not_isPart_of_isAlpha halpha] at hpart
      cases hpart
    simpa [Char.isAlphanum, halpha] using halphanum

end Spelling

section Division

variable {position : Nat} {cs pre rest : List Char} {before after : List Lexeme} {l : Lexeme} {e : Ending}

/-- The lexemes are those of `pre`, which ends with the last of them and is empty if there is none. -/
structure Leads (before : List Lexeme) (pre rest : List Char) : Prop where
  spells : Spells (before.map Lexeme.token) pre
  cut : pre = [] ∨ ∃ t front run, pre = front ++ run ∧ Token.Munch t run rest

/-- Where the lexemes are divided, so is the text. -/
theorem lexFrom_append (h : lexFrom position cs = ⟨before ++ after, e⟩) :
    ∃ pre rest, cs = pre ++ rest ∧ Leads before pre rest ∧
      lexFrom (position + pre.length) rest = ⟨after, e⟩ := by
  induction before generalizing position cs with
  | nil => exact ⟨[], cs, rfl, ⟨.finish blanks_nil, .inl rfl⟩, h⟩
  | cons l before ih =>
    cases hstep : step position cs with
    | ending e => simp [lexFrom_of_ending hstep] at h
    | lexeme l' rest' =>
      rw [lexFrom_of_lexeme hstep, Lexed.mk.injEq, List.cons_append, List.cons.injEq] at h
      obtain ⟨⟨rfl, hbehind⟩, hend⟩ := h
      obtain ⟨gap, run, rfl, hgap, hmunch, hstart, hstop⟩ := Token.munch_of_step hstep
      have hlater : lexFrom l'.stop rest' = ⟨before ++ after, e⟩ := by rw [← hbehind, ← hend]
      obtain ⟨pre, rest, rfl, hleads, hrest⟩ := ih hlater
      refine ⟨gap ++ run ++ pre, rest, by simp, ⟨.terminal hgap hmunch.of_append hleads.spells, .inr ?_⟩, ?_⟩
      · rcases hleads.cut with rfl | ⟨t, front, run', rfl, hcut⟩
        · exact ⟨_, gap, run, by simp, hmunch⟩
        · exact ⟨t, gap ++ run ++ front, run', by simp, hcut⟩
      · rw [← hrest, hstop, hstart]
        simp only [List.length_append, Nat.add_assoc]

/-- A lexeme is the token that stands between its start and its stop, as far to the right as it goes. -/
def Lexeme.StandsIn (l : Lexeme) (cs : List Char) : Prop :=
  ∃ pre run post, cs = pre ++ run ++ post ∧ l.token.Munch run post ∧ l.start = pre.length ∧
    l.stop = (pre ++ run).length

theorem place_of_lexFrom (h : lexFrom position cs = ⟨before ++ l :: after, e⟩) :
    ∃ pre run post, cs = pre ++ run ++ post ∧ Spells (before.map Lexeme.token) pre ∧ l.token.Munch run post ∧
      l.start = position + pre.length ∧ l.stop = position + (pre ++ run).length ∧ lexFrom l.stop post = ⟨after, e⟩ := by
  obtain ⟨pre, rest, rfl, ⟨hspells, -⟩, hrest⟩ := lexFrom_append h
  cases hstep : step (position + pre.length) rest with
  | ending e => simp [lexFrom_of_ending hstep] at hrest
  | lexeme l' post =>
    rw [lexFrom_of_lexeme hstep, Lexed.mk.injEq, List.cons.injEq] at hrest
    obtain ⟨⟨rfl, hbehind⟩, hend⟩ := hrest
    obtain ⟨gap, run, rfl, hgap, hmunch, hstart, hstop⟩ := Token.munch_of_step hstep
    refine ⟨pre ++ gap, run, post, by simp, hspells.append_blanks hgap, hmunch, ?_, ?_, by rw [← hbehind, ← hend]⟩
    · rw [hstart, List.length_append, Nat.add_assoc]
    · rw [hstop, hstart]
      simp only [List.length_append, Nat.add_assoc]

/-- What stops the splitting of a text in front of which `position` characters stand. -/
inductive Stops (position : Nat) : List Char → Ending → Prop
  | finish {gap : List Char} : Blanks gap → Stops position gap (.finish (position + gap.length))
  | char {gap post : List Char} {c : Char} : Blanks gap → Text.isBlank c = false → Token.ofChar? c = none →
      Numeral.isPart c = false → c.isAlpha = false →
      Stops position (gap ++ c :: post) (.fault (.unexpectedChar c) (position + gap.length))
  | number {gap run post : List Char} : Blanks gap → run ≠ [] → (∀ c ∈ run, Numeral.isPart c = true) →
      Numeral.ofChars? run = none → (∀ c ∈ post.head?, Numeral.isPart c = false) →
      Stops position (gap ++ run ++ post) (.fault (.number (String.ofList run)) (position + (gap ++ run).length))

theorem stops_of_step (h : step position cs = .ending e) : Stops position cs e := by
  have hsplit := List.takeWhile_append_dropWhile (p := Text.isBlank) (l := cs)
  have hblanks : Blanks (cs.takeWhile Text.isBlank) := fun c hc => List.all_eq_true.mp List.all_takeWhile c hc
  unfold step at h
  dsimp only at h
  split at h
  · next hdrop =>
    cases h
    rw [hdrop, List.append_nil] at hsplit
    rw [hsplit] at hblanks ⊢
    exact .finish hblanks
  · next c post hdrop =>
    have hc : Text.isBlank c = false := head?_dropWhile_eq_false c (by rw [hdrop]; rfl)
    rw [hdrop] at hsplit
    rw [← hsplit]
    unfold stepAt at h
    split at h
    · cases h
    · next hmark =>
      split at h
      · next hpart =>
        dsimp only at h
        split at h
        · cases h
        · next hnone =>
          cases h
          have hstops := @Stops.number position _ _ (post.dropWhile Numeral.isPart) hblanks
            (List.cons_ne_nil c (post.takeWhile Numeral.isPart))
            (List.forall_mem_cons.mpr ⟨hpart, fun x hx => List.all_eq_true.mp List.all_takeWhile x hx⟩) hnone
            head?_dropWhile_eq_false
          simpa [Nat.add_assoc] using hstops
      · next hpart =>
        split at h
        · cases h
        · next halpha =>
          cases h
          exact .char hblanks hc hmark (by simpa using hpart) (by simpa using halpha)

/-- The ending of a text stands behind what its lexemes spell. -/
theorem stops_of_lexFrom (h : lexFrom position cs = ⟨before, e⟩) :
    ∃ pre rest, cs = pre ++ rest ∧ Leads before pre rest ∧ Stops (position + pre.length) rest e := by
  rw [← List.append_nil before] at h
  obtain ⟨pre, rest, hcs, hleads, hrest⟩ := lexFrom_append h
  refine ⟨pre, rest, hcs, hleads, ?_⟩
  cases hstep : step (position + pre.length) rest with
  | ending e' =>
    rw [lexFrom_of_ending hstep] at hrest
    cases hrest
    exact stops_of_step hstep
  | lexeme l post => simp [lexFrom_of_lexeme hstep] at hrest

theorem Stops.position_le (h : Stops position cs e) : position ≤ e.position ∧ e.position ≤ position + cs.length := by
  cases h <;> simp only [Ending.position, List.length_append, List.length_cons] <;> omega

/-- A text that is read to its end is read to its last character. -/
theorem finish_eq {n : Nat} (h : lexFrom position cs = ⟨before, .finish n⟩) : n = position + cs.length := by
  obtain ⟨pre, rest, rfl, -, hstops⟩ := stops_of_lexFrom h
  cases hstops with
  | finish => rw [List.length_append, Nat.add_assoc]

theorem stops_of_ending (h : (lex cs).ending = e) :
    ∃ pre rest, cs = pre ++ rest ∧ Leads (lex cs).lexemes pre rest ∧ Stops pre.length rest e := by
  have hlex : lexFrom 0 cs = ⟨(lex cs).lexemes, e⟩ := by rw [← h]; rfl
  obtain ⟨pre, rest, hcs, hleads, hstops⟩ := stops_of_lexFrom hlex
  rw [Nat.zero_add] at hstops
  exact ⟨pre, rest, hcs, hleads, hstops⟩

theorem ending_position_le (cs : List Char) : (lex cs).ending.position ≤ cs.length := by
  obtain ⟨pre, rest, hcs, -, hstops⟩ := stops_of_ending (rfl : (lex cs).ending = _)
  have hle := hstops.position_le.2
  have hlength := congrArg List.length hcs
  rw [List.length_append] at hlength
  omega

theorem place_of_lexemes (h : (lex cs).lexemes = before ++ l :: after) :
    ∃ pre run post, cs = pre ++ run ++ post ∧ Spells (before.map Lexeme.token) pre ∧ l.token.Munch run post ∧
      l.start = pre.length ∧ l.stop = (pre ++ run).length := by
  have hlex : lexFrom 0 cs = ⟨before ++ l :: after, (lex cs).ending⟩ := by rw [← h]; rfl
  obtain ⟨pre, run, post, hcs, hspells, hmunch, hstart, hstop, -⟩ := place_of_lexFrom hlex
  rw [Nat.zero_add] at hstart hstop
  exact ⟨pre, run, post, hcs, hspells, hmunch, hstart, hstop⟩

theorem standsIn_of_mem (h : l ∈ (lex cs).lexemes) : l.StandsIn cs := by
  obtain ⟨before, after, hlexemes⟩ := List.append_of_mem h
  obtain ⟨pre, run, post, hcs, -, hplace⟩ := place_of_lexemes hlexemes
  exact ⟨pre, run, post, hcs, hplace⟩

theorem Lexeme.StandsIn.start_lt_stop (h : l.StandsIn cs) : l.start < l.stop ∧ l.stop ≤ cs.length := by
  obtain ⟨pre, run, post, rfl, hmunch, hstart, hstop⟩ := h
  have hrun := List.length_pos_iff.mpr hmunch.1.ne_nil
  simp only [List.length_append] at *
  omega

end Division

end Tabletop.Arithmetic

import Tabletop.Proofs.Spelling

/-!
Texts that differ in their numbers. Where one text has a run of digits the other may have another one, and if
signs are left free also a minus sign in front of it, provided that an operand is due there: at the start of the
text, and behind an operator, an opening parenthesis or a comma. Main statement: such texts are split into the
same tokens, up to the numbers, the names that digits stand in and the free signs, and their lexemes end alike.
-/

namespace Tabletop.Arithmetic

/-- The kinds of what can be wrong with the text of an expression. -/
inductive Malformation where
  | unexpectedChar
  | number
  | unexpectedToken
  | unclosedParenthesis
  | trailingInput
  | tooDeep
  deriving DecidableEq, Repr

/-- A text without tokens is not malformed, and neither is one whose expression has no value. -/
def Fault.malformation? : Fault → Option Malformation
  | empty => none
  | unexpectedChar _ => some .unexpectedChar
  | number _ => some .number
  | unexpectedToken _ => some .unexpectedToken
  | unclosedParenthesis => some .unclosedParenthesis
  | trailingInput _ => some .trailingInput
  | tooDeep _ => some .tooDeep
  | value _ => none

namespace Token

/-- An operator, an opening parenthesis or a comma: an operand is due behind it. -/
def isOpening : Token → Bool
  | plus | minus | times | divide | comma | leftParen => true
  | number _ | ident _ | rightParen | finish => false

/-- The same token, whatever number or name it is. -/
inductive Alike : Token → Token → Prop
  | number (m n : Numeral) : Alike (number m) (number n)
  | ident (name name' : String) : Alike (ident name) (ident name')
  | same (t : Token) : Alike t t

end Token

/-- Both are ends of the text, or faults of one kind. -/
inductive Ending.Alike : Ending → Ending → Prop
  | finish (m n : Nat) : Alike (finish m) (finish n)
  | fault {f f' : Fault} {k : Malformation} (m n : Nat) : f.malformation? = some k →
      f'.malformation? = some k → Alike (fault f m) (fault f' n)

/-- The tokens are alike one by one. If `signs`, a minus sign may stand before a number of the second list
where an operand is due, as `due` says of the start. -/
inductive Matched (signs : Bool) : (due : Bool) → List Token → List Token → Prop
  | nil {due : Bool} : Matched signs due [] []
  | token {due : Bool} {t t' : Token} {ts ts' : List Token} : t.Alike t' →
      Matched signs t.isOpening ts ts' → Matched signs due (t :: ts) (t' :: ts')
  | signed {ts ts' : List Token} (m n : Numeral) : signs = true → Matched signs false ts ts' →
      Matched signs true (.number m :: ts) (.minus :: .number n :: ts')

theorem Matched.eq_nil_iff {signs due : Bool} {ts ts' : List Token} (h : Matched signs due ts ts') :
    ts = [] ↔ ts' = [] := by
  cases h <;> simp

/-- Whether an operand is due behind a character, before which one is due or not. -/
def isDue (due : Bool) (c : Char) : Bool :=
  if Text.isBlank c then due else (Token.ofChar? c).any Token.isOpening

def Digits (cs : List Char) : Prop := cs ≠ [] ∧ ∀ c ∈ cs, c.isDigit = true

/-- The texts differ in runs of digits. If `signs`, a minus sign may stand before such a run in the second text
where an operand is due, unless the number goes on behind the digits. -/
inductive Similar (signs : Bool) : (due : Bool) → List Char → List Char → Prop
  | nil {due : Bool} : Similar signs due [] []
  | char {due : Bool} {cs cs' : List Char} (c : Char) : Similar signs (isDue due c) cs cs' →
      Similar signs due (c :: cs) (c :: cs')
  | digits {due : Bool} {ds ds' cs cs' : List Char} : Digits ds → Digits ds' → Similar signs false cs cs' →
      Similar signs due (ds ++ cs) (ds' ++ cs')
  | signed {ds ds' cs cs' : List Char} : signs = true → Digits ds → Digits ds' →
      (∀ c ∈ cs.head?, Numeral.isPart c = false) → Similar signs false cs cs' →
        Similar signs true (ds ++ cs) ('-' :: (ds' ++ cs'))

variable {signs due : Bool} {c : Char} {cs cs' ds : List Char} {position position' : Nat}

theorem isPart_of_isDigit (h : c.isDigit = true) : Numeral.isPart c = true := by
  simp [Numeral.isPart, h]

theorem not_isBlank_of_isPart (h : Numeral.isPart c = true) : Text.isBlank c = false := by
  apply not_isBlank_of_visible
  rw [isPart_iff_toNat] at h
  omega

theorem isDue_eq_false (h : ¬IsSeparator c) : isDue due c = false := by
  have hblank : Text.isBlank c = false := Bool.eq_false_iff.mpr fun hc => h (.inl hc)
  have hmark : Token.ofChar? c = none := Option.not_isSome_iff_eq_none.mp fun hc => h (.inr hc)
  simp [isDue, hblank, hmark]

theorem isDue_of_isPart (h : Numeral.isPart c = true) : isDue due c = false := by
  apply isDue_eq_false
  intro hc
  rw [hc.not_isPart] at h
  cases h

theorem isDue_of_isAlphanum (h : c.isAlphanum = true) : isDue due c = false := by
  apply isDue_eq_false
  intro hc
  rw [hc.not_isAlphanum] at h
  cases h

theorem takeWhile_digits {p : Char → Bool} (hp : ∀ c, c.isDigit = true → p c = true) (hds : Digits ds)
    (cs : List Char) :
    (ds ++ cs).takeWhile p = ds ++ cs.takeWhile p ∧ (ds ++ cs).dropWhile p = cs.dropWhile p :=
  have hall := fun c hc => hp c (hds.2 c hc)
  ⟨List.takeWhile_append_of_pos hall, List.dropWhile_append_of_pos hall⟩

theorem Digits.count_point (h : Digits ds) : ds.count '.' = 0 :=
  List.count_eq_zero_of_not_mem fun hmem => absurd (h.2 _ hmem) (by decide)

theorem Digits.any (h : Digits ds) : ds.any Char.isDigit = true := by
  obtain ⟨c, hc⟩ := List.exists_mem_of_ne_nil ds h.1
  exact List.any_eq_true.mpr ⟨c, hc, h.2 c hc⟩

/-- Where no operand is due, runs of characters among which are the digits end at the same place. -/
theorem Similar.span {p : Char → Bool} (hdigits : ∀ c, c.isDigit = true → p c = true)
    (hp : ∀ c, p c = true → isDue false c = false) (h : Similar signs false cs cs') :
    Similar signs false (cs.dropWhile p) (cs'.dropWhile p) ∧
      (cs.takeWhile p).count '.' = (cs'.takeWhile p).count '.' ∧
        (cs.takeWhile p).any Char.isDigit = (cs'.takeWhile p).any Char.isDigit := by
  generalize hdue : false = due at h
  induction h with
  | nil => exact ⟨hdue ▸ .nil, rfl, rfl⟩
  | @char due cs cs' c hrest ih =>
    subst hdue
    by_cases hc : p c = true
    · obtain ⟨hdrop, hcount, hany⟩ := ih (hp c hc).symm
      simp only [List.dropWhile_cons_of_pos hc, List.takeWhile_cons_of_pos hc, List.count_cons,
        List.any_cons, hcount, hany]
      rw [hp c hc] at hdrop
      exact ⟨hdrop, trivial, trivial⟩
    · simp only [List.dropWhile_cons_of_neg hc, List.takeWhile_cons_of_neg hc]
      exact ⟨.char c hrest, trivial, trivial⟩
  | @digits due ds ds' cs cs' hds hds' hrest ih =>
    subst hdue
    obtain ⟨hdrop, hcount, hany⟩ := ih rfl
    obtain ⟨htake, hdropWhile⟩ := takeWhile_digits hdigits hds cs
    obtain ⟨htake', hdropWhile'⟩ := takeWhile_digits hdigits hds' cs'
    rw [htake, htake', hdropWhile, hdropWhile']
    simp only [List.count_append, hds.count_point, hds'.count_point, hcount, List.any_append, hds.any,
      hds'.any, Bool.true_or]
    exact ⟨hdrop, trivial, trivial⟩
  | signed => cases hdue

theorem step_blank (hc : Text.isBlank c = true) : step position (c :: cs) = step (position + 1) cs := by
  simp only [step, List.takeWhile_cons_of_pos hc, List.dropWhile_cons_of_pos hc, List.length_cons]
  rw [Nat.add_right_comm, Nat.add_assoc]

theorem lexFrom_blank (hc : Text.isBlank c = true) :
    lexFrom position (c :: cs) = lexFrom (position + 1) cs := by
  cases h : step (position + 1) cs with
  | ending e => rw [lexFrom_of_ending h, lexFrom_of_ending ((step_blank hc).trans h)]
  | lexeme l rest => rw [lexFrom_of_lexeme h, lexFrom_of_lexeme ((step_blank hc).trans h)]

theorem step_not_blank (hc : Text.isBlank c = false) :
    step position (c :: cs) = stepAt position c cs := by
  simp [step, hc]

theorem step_of_isPart (hc : Numeral.isPart c = true) :
    step position (c :: cs) =
      match Numeral.ofChars? ((c :: cs).takeWhile Numeral.isPart) with
      | some n => .lexeme
          ⟨.number n, position, position + ((c :: cs).takeWhile Numeral.isPart).length⟩
          ((c :: cs).dropWhile Numeral.isPart)
      | none => .ending (.fault (.number (String.ofList ((c :: cs).takeWhile Numeral.isPart)))
          (position + ((c :: cs).takeWhile Numeral.isPart).length)) := by
  have hstep : step position (c :: cs) = stepAt position c cs :=
    step_not_blank (not_isBlank_of_isPart hc)
  simp only [stepAt, ofChar?_eq_none_of_isPart hc, hc, if_true] at hstep
  rw [List.takeWhile_cons_of_pos hc, List.dropWhile_cons_of_pos hc]
  exact hstep

/-- The steps read tokens that are alike and leave texts that are similar, or end alike. -/
inductive Step.Alike (signs : Bool) : Step → Step → Prop
  | ending {e e' : Ending} : e.Alike e' → Step.Alike signs (.ending e) (.ending e')
  | lexeme {l l' : Lexeme} {cs cs' : List Char} : l.token.Alike l'.token →
      Similar signs l.token.isOpening cs cs' → Step.Alike signs (.lexeme l cs) (.lexeme l' cs')

theorem Similar.step_number {c' : Char} (h : Similar signs false (c :: cs) (c' :: cs'))
    (hc : Numeral.isPart c = true) (hc' : Numeral.isPart c' = true) :
    (step position (c :: cs)).Alike signs (step position' (c' :: cs')) := by
  obtain ⟨hdrop, hcount, hany⟩ := h.span (fun _ => isPart_of_isDigit) fun _ => isDue_of_isPart
  have hwell : Numeral.isWellFormed ((c :: cs).takeWhile Numeral.isPart) =
      Numeral.isWellFormed ((c' :: cs').takeWhile Numeral.isPart) := by
    simp only [Numeral.isWellFormed, List.all_takeWhile, hcount, hany]
  rw [step_of_isPart hc, step_of_isPart hc']
  simp only [Numeral.ofChars?, ← hwell]
  cases Numeral.isWellFormed ((c :: cs).takeWhile Numeral.isPart) with
  | true => exact .lexeme (.number _ _) hdrop
  | false => exact .ending (.fault _ _ rfl rfl)

/-- One step from a character that is no blank. -/
theorem Similar.step_char (hc : Text.isBlank c = false) (h : Similar signs (isDue due c) cs cs') :
    (step position (c :: cs)).Alike signs (step position' (c :: cs')) := by
  have hdue : isDue due c = (Token.ofChar? c).any Token.isOpening := by simp [isDue, hc]
  by_cases hpart : Numeral.isPart c = true
  · have hsimilar : Similar signs false (c :: cs) (c :: cs') := by
      apply Similar.char
      rwa [isDue_of_isPart hpart] at h ⊢
    exact hsimilar.step_number hpart hpart
  · rw [step_not_blank hc, step_not_blank hc, stepAt, stepAt]
    cases ht : Token.ofChar? c with
    | some t =>
      rw [hdue, ht] at h
      exact .lexeme (.same t) h
    | none =>
      have hrest : Similar signs false cs cs' := by rwa [hdue, ht] at h
      obtain ⟨hdrop, -⟩ := hrest.span (p := Char.isAlphanum) (fun c hc => by simp [Char.isAlphanum, hc])
        fun _ => isDue_of_isAlphanum
      dsimp only
      rw [if_neg hpart, if_neg hpart]
      by_cases halpha : c.isAlpha = true
      · rw [if_pos halpha, if_pos halpha]
        exact .lexeme (.ident _ _) hdrop
      · rw [if_neg halpha, if_neg halpha]
        exact .ending (@Ending.Alike.fault (.unexpectedChar c) (.unexpectedChar c) _ _ _ rfl rfl)

/-- One step from runs of digits. -/
theorem Similar.step_digits {ds' : List Char} (hds : Digits ds) (hds' : Digits ds')
    (h : Similar signs false cs cs') :
    (step position (ds ++ cs)).Alike signs (step position' (ds' ++ cs')) := by
  obtain ⟨d, rest, rfl⟩ := List.exists_cons_of_ne_nil hds.1
  obtain ⟨d', rest', rfl⟩ := List.exists_cons_of_ne_nil hds'.1
  have hd := isPart_of_isDigit (hds.2 d List.mem_cons_self)
  have hd' := isPart_of_isDigit (hds'.2 d' List.mem_cons_self)
  exact Similar.step_number (.digits hds hds' h) hd hd'

theorem Digits.munch (h : Digits ds) (hcs : ∀ c ∈ cs.head?, Numeral.isPart c = false) :
    ∃ n, (Token.number n).Munch ds cs := by
  have hparts : ds.all Numeral.isPart = true :=
    List.all_eq_true.mpr fun c hc => isPart_of_isDigit (h.2 c hc)
  have hwell : Numeral.isWellFormed ds = true := by
    simp [Numeral.isWellFormed, hparts, h.any, h.count_point]
  exact ⟨Numeral.ofChars ds, .number (if_pos hwell), hcs⟩

theorem Similar.head_not_isPart (h : Similar signs false cs cs')
    (hcs : ∀ c ∈ cs.head?, Numeral.isPart c = false) : ∀ c ∈ cs'.head?, Numeral.isPart c = false := by
  cases h with
  | nil => exact hcs
  | char c _ => exact hcs
  | @digits _ ds _ _ _ hds _ _ =>
    obtain ⟨d, rest, rfl⟩ := List.exists_cons_of_ne_nil hds.1
    have hd := hcs d rfl
    rw [isPart_of_isDigit (hds.2 d List.mem_cons_self)] at hd
    cases hd

theorem lexFrom_of_munch {t : Token} {run : List Char} (h : t.Munch run cs) :
    lexFrom position (run ++ cs) =
      ⟨⟨t, position, position + run.length⟩ :: (lexFrom (position + run.length) cs).lexemes,
        (lexFrom (position + run.length) cs).ending⟩ :=
  lexFrom_of_lexeme (@h.step_eq _ [] _ _ position blanks_nil)

/-- The tokens of the two texts match, and their lexemes end alike. -/
structure Lexed.Alike (signs due : Bool) (text text' : Lexed) : Prop where
  tokens : Matched signs due (text.lexemes.map Lexeme.token) (text'.lexemes.map Lexeme.token)
  ending : text.ending.Alike text'.ending

/-- Texts that are similar have lexemes that are alike. -/
theorem Similar.lexed (h : Similar signs due cs cs') (position position' : Nat) :
    (lexFrom position cs).Alike signs due (lexFrom position' cs') := by
  induction hn : cs.length using Nat.strong_induction_on generalizing cs cs' due position position' with
  | _ n ih =>
    have hlexed : (step position cs).Alike signs (step position' cs') →
        (lexFrom position cs).Alike signs due (lexFrom position' cs') := by
      intro hsteps
      generalize hs : step position cs = s at hsteps
      generalize hs' : step position' cs' = s' at hsteps
      cases hsteps with
      | ending he =>
        rw [lexFrom_of_ending hs, lexFrom_of_ending hs']
        exact ⟨.nil, he⟩
      | @lexeme l l' _ _ hl hrest =>
        rw [lexFrom_of_lexeme hs, lexFrom_of_lexeme hs']
        have hlexed := ih _ (hn ▸ length_rest_step hs) hrest l.stop l'.stop rfl
        exact ⟨.token hl hlexed.tokens, hlexed.ending⟩
    cases h with
    | nil =>
      rw [lexFrom_of_ending (step_of_blanks position blanks_nil),
        lexFrom_of_ending (step_of_blanks position' blanks_nil)]
      exact ⟨.nil, .finish _ _⟩
    | @char _ cs cs' c hrest =>
      cases hc : Text.isBlank c with
      | true =>
        rw [lexFrom_blank hc, lexFrom_blank hc]
        have hdue : isDue due c = due := if_pos hc
        rw [hdue] at hrest
        exact ih _ (hn ▸ Nat.lt_succ_self _) hrest _ _ rfl
      | false => exact hlexed (hrest.step_char hc)
    | digits hds hds' hrest => exact hlexed (Similar.step_digits hds hds' hrest)
    | @signed ds ds' cs cs' hsigns hds hds' hhead hrest =>
      -- The second text has the sign as a lexeme of its own, and behind it both have a whole number.
      obtain ⟨m, hm⟩ := hds.munch hhead
      obtain ⟨m', hm'⟩ := hds'.munch (hrest.head_not_isPart hhead)
      have hminus : Token.minus.Munch ['-'] (ds' ++ cs') := ⟨.mark rfl, fun _ _ => rfl⟩
      have hsign := @lexFrom_of_munch _ position' _ _ hminus
      rw [List.singleton_append, lexFrom_of_munch hm'] at hsign
      rw [lexFrom_of_munch hm, hsign]
      have hlt : cs.length < n := by
        have := List.length_pos_iff.mpr hds.1
        rw [← hn, List.length_append]
        omega
      have hlexed := ih _ hlt hrest (position + ds.length) (position' + ['-'].length + ds'.length) rfl
      exact ⟨.signed m m' hsigns hlexed.tokens, hlexed.ending⟩

theorem similar_refl (signs due : Bool) (cs : List Char) : Similar signs due cs cs := by
  induction cs generalizing due with
  | nil => exact .nil
  | cons c cs ih => exact .char c (ih (isDue due c))

end Tabletop.Arithmetic

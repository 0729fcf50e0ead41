import Tabletop.Proofs.FateMarkers

/-!
Queries in other letter case. Whatever reads a query asks of a character only what its ASCII lower case answers as
well, and commutes therefore with putting a text in that case: the marks and their counts, the markers of Fate dice,
the pools, and the lexemes of what is evaluated. Main statement: under the usual evaluator two queries that differ
only in the letter case of ASCII letters are answered alike.
-/

namespace Tabletop

namespace Text

section Classes

variable {α : Type} {f : Char → α} {c : Char} {cs : List Char}

/-- What takes a capital for its small letter does so with every character. -/
theorem comp_toLower (h : ∀ n < 26, f (Char.ofNat (0x61 + n)) = f (Char.ofNat (0x41 + n))) :
    f ∘ Char.toLower = f := by
  funext c
  rw [Function.comp_apply]
  rcases toLower_cases c with ⟨-, hsame⟩ | ⟨⟨hle, hge⟩, hlower⟩
  · rw [hsame]
  · have hcapital : Char.ofNat (0x41 + (c.toNat - 0x41)) = c := by
      rw [Nat.add_sub_cancel' hle, Char.ofNat_toNat]
    have hsmall : Char.ofNat (0x61 + (c.toNat - 0x41)) = c.toLower := by
      rw [← Char.ofNat_toNat c.toLower, hlower]
      exact congrArg Char.ofNat (by omega)
    have hletter := h (c.toNat - 0x41) (by omega)
    rwa [hcapital, hsmall] at hletter

theorem inRanges_comp_toLower {ranges : List (Nat × Nat)}
    (h : ∀ r ∈ ranges, r.2 < 0x41 ∨ 0x5A < r.1 ∧ r.2 < 0x61 ∨ 0x7A < r.1) :
    inRanges ranges ∘ Char.toLower = inRanges ranges := by
  have hletter : ∀ n : Nat, 0x41 ≤ n ∧ n ≤ 0x5A ∨ 0x61 ≤ n ∧ n ≤ 0x7A →
      (ranges.any fun r => decide (r.1 ≤ n) && decide (n ≤ r.2)) = false := by
    intro n hn
    refine List.any_eq_false.mpr fun r hr => ?_
    have := h r hr
    simp only [Bool.and_eq_true, decide_eq_true_eq, not_and]
    omega
  funext c
  rw [Function.comp_apply]
  rcases toLower_cases c with ⟨-, hsame⟩ | ⟨⟨hle, hge⟩, hlower⟩
  · rw [hsame]
  · rw [inRanges, inRanges, hlower, hletter _ (.inl ⟨hle, hge⟩), hletter _ (.inr (by omega))]

theorem toLower_comp_toLower : Char.toLower ∘ Char.toLower = Char.toLower := comp_toLower (by decide)

theorem isBlank_comp_toLower : isBlank ∘ Char.toLower = isBlank := comp_toLower (by decide)

theorem isDigit_comp_toLower : Char.isDigit ∘ Char.toLower = Char.isDigit := comp_toLower (by decide)

theorem isAlpha_comp_toLower : Char.isAlpha ∘ Char.toLower = Char.isAlpha := comp_toLower (by decide)

theorem isAlphanum_comp_toLower : Char.isAlphanum ∘ Char.toLower = Char.isAlphanum := comp_toLower (by decide)

theorem isCased_comp_toLower : isCased ∘ Char.toLower = isCased := comp_toLower (by decide +kernel)

theorem lowerChar_comp_toLower : lowerChar ∘ Char.toLower = lowerChar := comp_toLower (by decide)

theorem isCaseIgnorable_comp_toLower : isCaseIgnorable ∘ Char.toLower = isCaseIgnorable :=
  inRanges_comp_toLower (by decide +kernel)

theorem isDecimalDigit_comp_toLower : isDecimalDigit ∘ Char.toLower = isDecimalDigit := by
  have hranges : inRanges decimalDigitRanges ∘ Char.toLower = inRanges decimalDigitRanges :=
    inRanges_comp_toLower (by decide +kernel)
  funext c
  exact congrArg₂ or (congrFun isDigit_comp_toLower c) (congrFun hranges c)

theorem toLower_of_not_isAlpha (h : c.isAlpha = false) : c.toLower = c := by
  rcases toLower_cases c with ⟨-, hsame⟩ | ⟨hcapital, -⟩
  · exact hsame
  · rw [Arithmetic.isAlpha_iff_toNat.mpr (.inl hcapital)] at h
    cases h

theorem map_toLower_of_not_isAlpha (h : ∀ c ∈ cs, c.isAlpha = false) : cs.map Char.toLower = cs := by
  rw [List.map_congr_left fun c hc => toLower_of_not_isAlpha (h c hc), List.map_id']

end Classes

section Texts

variable (cs : List Char)

theorem trim_map_toLower : trim (cs.map Char.toLower) = (trim cs).map Char.toLower := by
  simp only [trim, trimLeft, trimRight, List.dropWhile_map, isBlank_comp_toLower, ← List.map_reverse]

theorem continuesWord_map_toLower : continuesWord (cs.map Char.toLower) = continuesWord cs := by
  unfold continuesWord
  rw [List.dropWhile_map, isCaseIgnorable_comp_toLower]
  cases cs.dropWhile isCaseIgnorable with
  | nil => rfl
  | cons c _ => exact congrFun isCased_comp_toLower c

theorem lowerFrom_map_toLower (inWord : Bool) :
    lowerFrom inWord (cs.map Char.toLower) = lowerFrom inWord cs := by
  induction cs generalizing inWord with
  | nil => rfl
  | cons c cs ih =>
    have hsigma : c.toLower = 'Σ' ↔ c = 'Σ' := by
      rcases toLower_cases c with ⟨-, hsame⟩ | ⟨hcapital, hlower⟩
      · rw [hsame]
      · constructor
        · intro h
          rw [h] at hlower
          have hsigma : 'Σ'.toNat = 0x3A3 := rfl
          omega
        · rintro rfl
          rfl
    have hchar : lowerChar c.toLower = lowerChar c := congrFun lowerChar_comp_toLower c
    have hignorable : isCaseIgnorable c.toLower = isCaseIgnorable c := congrFun isCaseIgnorable_comp_toLower c
    have hcased : isCased c.toLower = isCased c := congrFun isCased_comp_toLower c
    rw [List.map_cons, lowerFrom, lowerFrom, continuesWord_map_toLower, hchar, hignorable, hcased, ih]
    simp only [hsigma]

theorem lower_map_toLower : lower (cs.map Char.toLower) = lower cs := lowerFrom_map_toLower cs false

end Texts

end Text

namespace Arithmetic

section Lexing

variable {c : Char} {cs rest : List Char} {position start : Nat}

/-- The same step in a text with its letters in lower case. -/
def Step.lowered : Step → Step
  | .ending e => .ending e
  | .lexeme l rest => .lexeme l (rest.map Char.toLower)

theorem not_isAlpha_of_isPart (h : Numeral.isPart c = true) : c.isAlpha = false := by
  apply Bool.eq_false_iff.mpr
  intro halpha
  rw [not_isPart_of_isAlpha halpha] at h
  cases h

theorem isPart_comp_toLower : Numeral.isPart ∘ Char.toLower = Numeral.isPart := Text.comp_toLower (by decide)

theorem ofChar?_comp_toLower : Token.ofChar? ∘ Char.toLower = Token.ofChar? := Text.comp_toLower (by decide)

theorem stepAt_toLower (start : Nat) (c : Char) (rest : List Char) :
    stepAt start c.toLower (rest.map Char.toLower) = (stepAt start c rest).lowered := by
  have hmark : Token.ofChar? c.toLower = Token.ofChar? c := congrFun ofChar?_comp_toLower c
  have hpart : Numeral.isPart c.toLower = Numeral.isPart c := congrFun isPart_comp_toLower c
  have halpha : c.toLower.isAlpha = c.isAlpha := congrFun Text.isAlpha_comp_toLower c
  unfold stepAt
  simp only [hmark, hpart, halpha, List.takeWhile_map, List.dropWhile_map, isPart_comp_toLower,
    Text.isAlphanum_comp_toLower, ← List.map_cons]
  cases hc : Token.ofChar? c with
  | some t => rfl
  | none =>
    by_cases hnumber : Numeral.isPart c = true
    · have hrun : (c :: rest.takeWhile Numeral.isPart).map Char.toLower = c :: rest.takeWhile Numeral.isPart := by
        refine Text.map_toLower_of_not_isAlpha (List.forall_mem_cons.mpr ⟨not_isAlpha_of_isPart hnumber, ?_⟩)
        exact fun x hx => not_isAlpha_of_isPart (List.all_eq_true.mp List.all_takeWhile x hx)
      simp only [hnumber, if_true, hrun]
      cases Numeral.ofChars? (c :: rest.takeWhile Numeral.isPart) <;> rfl
    · simp only [hnumber, Bool.false_eq_true, if_false]
      by_cases hname : c.isAlpha = true
      · simp only [hname, if_true, List.map_map, Text.toLower_comp_toLower, List.length_map]
        rfl
      · rw [if_neg hname, if_neg hname, Text.toLower_of_not_isAlpha (Bool.eq_false_iff.mpr hname)]
        rfl

theorem step_map_toLower (position : Nat) (cs : List Char) :
    step position (cs.map Char.toLower) = (step position cs).lowered := by
  unfold step
  simp only [List.takeWhile_map, List.dropWhile_map, Text.isBlank_comp_toLower, List.length_map]
  cases cs.dropWhile Text.isBlank with
  | nil => rfl
  | cons c rest => exact stepAt_toLower _ c rest

theorem lexFrom_map_toLower (position : Nat) (cs : List Char) :
    lexFrom position (cs.map Char.toLower) = lexFrom position cs := by
  induction position, cs using lexFrom.induct with
  | case1 position cs e h =>
    rw [lexFrom_of_ending h, lexFrom_of_ending (by rw [step_map_toLower, h]; rfl)]
  | case2 position cs l rest h ih =>
    rw [lexFrom_of_lexeme h, lexFrom_of_lexeme (by rw [step_map_toLower, h]; rfl), ih]

/-- What a text is worth, or what is wrong with it and where, does not depend on the case of its letters. -/
theorem evaluate_map_toLower (cs : List Char) :
    evaluate (String.ofList (cs.map Char.toLower)) = evaluate (String.ofList cs) := by
  simp only [evaluate, parse, lex, String.toList_ofList, lexFrom_map_toLower]

end Lexing

end Arithmetic

namespace Query

section Reading

variable {cs inner : List Char} {times : Nat}

theorem isDieLetter_comp_toLower : isDieLetter ∘ Char.toLower = isDieLetter := Text.comp_toLower (by decide)

theorem isFateLetter_comp_toLower : isFateLetter ∘ Char.toLower = isFateLetter := Text.comp_toLower (by decide)

theorem isWorthReading_map_toLower (cs : List Char) : isWorthReading (cs.map Char.toLower) = isWorthReading cs := by
  unfold isWorthReading
  rw [List.any_map, Text.comp_toLower (by decide)]

/-- A count without the plus sign that it may have. -/
def unsigned : List Char → List Char
  | '+' :: ds => ds
  | ds => ds

theorem unsigned_of_ne_plus {c : Char} (hc : c ≠ '+') (ds : List Char) : unsigned (c :: ds) = c :: ds := by
  unfold unsigned
  split
  · next hcons => exact absurd (List.cons.inj hcons).1 hc
  · rfl

theorem unsigned_map_toLower (cs : List Char) : unsigned (cs.map Char.toLower) = (unsigned cs).map Char.toLower := by
  cases cs with
  | nil => rfl
  | cons c ds =>
    have hplus : (c.toLower == '+') = (c == '+') :=
      congrFun (Text.comp_toLower (f := (· == '+')) (by decide)) c
    by_cases hc : c = '+'
    · subst hc
      rfl
    · have hlowered : c.toLower ≠ '+' := by simpa [hc] using hplus
      rw [List.map_cons, unsigned_of_ne_plus hlowered, unsigned_of_ne_plus hc, List.map_cons]

theorem repetitionCount_eq (cs : List Char) :
    repetitionCount cs =
      if unsigned (Text.trim cs) ≠ [] ∧ (unsigned (Text.trim cs)).all Char.isDigit ∧
          Nat.ofDigitChars 10 (unsigned (Text.trim cs)) 0 < UInt64.size
        then Nat.ofDigitChars 10 (unsigned (Text.trim cs)) 0 else 0 := rfl

theorem repetitionCount_map_toLower (cs : List Char) :
    repetitionCount (cs.map Char.toLower) = repetitionCount cs := by
  rw [repetitionCount_eq, repetitionCount_eq, Text.trim_map_toLower, unsigned_map_toLower]
  generalize unsigned (Text.trim cs) = ds
  have hall : (ds.map Char.toLower).all Char.isDigit = ds.all Char.isDigit := by
    rw [List.all_map, Text.isDigit_comp_toLower]
  by_cases hds : ds.all Char.isDigit = true
  · rw [map_toLower_of_isDigit (List.all_eq_true.mp hds)]
  · rw [if_neg fun h => hds (hall ▸ h.2.1), if_neg fun h => hds h.2.1]

theorem splitRepetition?_map_toLower (cs : List Char) :
    splitRepetition? (cs.map Char.toLower) =
      (splitRepetition? cs).map fun split => (split.1, split.2.map Char.toLower) := by
  unfold splitRepetition?
  rw [List.dropWhile_map, List.takeWhile_map]
  have hmark : (fun c => !isRepetitionMark c) ∘ Char.toLower = fun c => !isRepetitionMark c :=
    Text.comp_toLower (by decide)
  rw [hmark, repetitionCount_map_toLower]
  cases cs.dropWhile (fun c => !isRepetitionMark c) <;> rfl

theorem hasFateMarker_map_toLower (cs : List Char) : hasFateMarker (cs.map Char.toLower) = hasFateMarker cs := by
  fun_induction hasFateMarker cs with
  | case1 c c' cs ih =>
    have hdie : isDieLetter c.toLower = isDieLetter c := congrFun isDieLetter_comp_toLower c
    have hfate : isFateLetter c'.toLower = isFateLetter c' := congrFun isFateLetter_comp_toLower c'
    rw [List.map_cons] at ih
    rw [List.map_cons, List.map_cons, hasFateMarker, hdie, hfate, ih]
  | case2 cs hshort =>
    obtain rfl | ⟨c, rfl⟩ := eq_nil_or_singleton hshort <;> rfl

theorem expandFateMarkers_map_toLower (cs : List Char) :
    expandFateMarkers (cs.map Char.toLower) = (expandFateMarkers cs).map Char.toLower := by
  fun_induction expandFateMarkers cs with
  | case1 c c' cs hmarker ih =>
    have hdie : isDieLetter c.toLower = isDieLetter c := congrFun isDieLetter_comp_toLower c
    have hfate : isFateLetter c'.toLower = isFateLetter c' := congrFun isFateLetter_comp_toLower c'
    rw [List.map_cons, List.map_cons, expandFateMarkers, hdie, hfate, if_pos hmarker, ih]
    rfl
  | case2 c c' cs hmarker ih =>
    have hdie : isDieLetter c.toLower = isDieLetter c := congrFun isDieLetter_comp_toLower c
    have hfate : isFateLetter c'.toLower = isFateLetter c' := congrFun isFateLetter_comp_toLower c'
    rw [List.map_cons] at ih
    rw [List.map_cons, List.map_cons, expandFateMarkers, hdie, hfate, if_neg hmarker, ih]
    rfl
  | case3 cs hshort =>
    obtain rfl | ⟨c, rfl⟩ := eq_nil_or_singleton hshort <;> rfl

/-- The same piece with its letters in lower case. -/
def Piece.lowered : Piece → Piece
  | .text cs => .text (cs.map Char.toLower)
  | .dice cs pool => .dice (cs.map Char.toLower) pool

theorem leadingTerm?_map_toLower (cs : List Char) :
    leadingTerm? (cs.map Char.toLower) =
      (leadingTerm? cs).map fun cut => (cut.1.map Char.toLower, cut.2.map Char.toLower) := by
  unfold leadingTerm?
  simp only [List.takeWhile_map, List.dropWhile_map, Text.isDecimalDigit_comp_toLower]
  cases cs.dropWhile Text.isDecimalDigit with
  | nil => rfl
  | cons letter after =>
    have hdie : isDieLetter letter.toLower = isDieLetter letter := congrFun isDieLetter_comp_toLower letter
    simp only [List.map_cons, hdie, List.takeWhile_map, List.dropWhile_map, Text.isDecimalDigit_comp_toLower,
      ne_eq, List.map_eq_nil_iff]
    split
    · simp only [Option.map_some, List.map_append, List.map_cons]
    · rfl

theorem ofText_map_toLower (cs : List Char) :
    (Pool.ofText (String.ofList (cs.map Char.toLower))).toOption = (Pool.ofText (String.ofList cs)).toOption := by
  simp only [Pool.ofText, String.toList_ofList, Text.trim_map_toLower, Text.lower_map_toLower]
  cases (Text.lower (Text.trim cs)).dropWhile (· != 'd') <;> rfl

theorem termPiece_map_toLower (cs : List Char) : termPiece (cs.map Char.toLower) = (termPiece cs).lowered := by
  have hpool := ofText_map_toLower cs
  unfold termPiece
  cases hlowered : Pool.ofText (String.ofList (cs.map Char.toLower)) <;>
    cases hcs : Pool.ofText (String.ofList cs) <;> rw [hlowered, hcs] at hpool <;> cases hpool <;> rfl

theorem pieces_map_toLower (cs : List Char) : pieces (cs.map Char.toLower) = (pieces cs).map Piece.lowered := by
  induction cs using pieces.induct with
  | case1 => simp [pieces]
  | case2 c others written rest h ih =>
    have hlowered := leadingTerm?_map_toLower (c :: others)
    rw [h] at hlowered
    rw [pieces_of_leadingTerm? h, pieces_of_leadingTerm? hlowered, termPiece_map_toLower, ih, List.map_cons]
  | case3 c others h digit ih =>
    have hlowered := leadingTerm?_map_toLower (c :: others)
    have hdigit : Text.isDecimalDigit c.toLower = Text.isDecimalDigit c := congrFun Text.isDecimalDigit_comp_toLower c
    rw [h] at hlowered
    rw [pieces_cons_of_none h, if_pos digit, List.map_cons, pieces_cons_of_none hlowered, hdigit, if_pos digit,
      List.takeWhile_map, List.dropWhile_map, Text.isDecimalDigit_comp_toLower, ih]
    rfl
  | case4 c others h digit ih =>
    have hlowered := leadingTerm?_map_toLower (c :: others)
    have hdigit : Text.isDecimalDigit c.toLower = Text.isDecimalDigit c := congrFun Text.isDecimalDigit_comp_toLower c
    rw [h] at hlowered
    rw [pieces_cons_of_none h, if_neg digit, List.map_cons, pieces_cons_of_none hlowered, hdigit, if_neg digit, ih]
    rfl

theorem pools_map_lowered (ps : List Piece) : pools (ps.map Piece.lowered) = pools ps := by
  have hpool : Piece.pool? ∘ Piece.lowered = Piece.pool? := by
    funext p
    cases p <;> rfl
  rw [pools, List.filterMap_map, hpool, pools]

theorem map_toLower_intChars (t : Int) : (intChars t).map Char.toLower = intChars t := by
  have hsame : ∀ c ∈ intChars t, c.toLower = c := by
    intro c hc
    rcases isDigit_or_of_mem_intChars hc with hdigit | rfl
    · exact toLower_of_isDigit hdigit
    · rfl
  rw [List.map_congr_left hsame, List.map_id']

theorem splice_map_lowered (ps : List Piece) (ts : List Int) :
    splice (ps.map Piece.lowered) ts = (splice ps ts).map Char.toLower := by
  induction ps generalizing ts with
  | nil => rfl
  | cons p ps ih =>
    cases p with
    | text cs => simp only [List.map_cons, Piece.lowered, splice, Piece.chars, ih, List.map_append]
    | dice cs pool =>
      cases ts with
      | nil => simp only [List.map_cons, Piece.lowered, splice, Piece.chars, ih, List.map_append]
      | cons t ts => simp only [List.map_cons, Piece.lowered, splice, ih, List.map_append, map_toLower_intChars]

theorem rolledText_map_toLower (cs : List Char) :
    rolledText (cs.map Char.toLower) = (rolledText cs).map Char.toLower := by
  unfold rolledText
  rw [hasFateMarker_map_toLower, expandFateMarkers_map_toLower]
  split <;> rfl

theorem rolledMode_map_toLower (cs : List Char) (mode : Scoring) :
    rolledMode (cs.map Char.toLower) mode = rolledMode cs mode := by
  rw [rolledMode, hasFateMarker_map_toLower, rolledMode]

theorem leafPools_map_toLower (cs : List Char) : leafPools (cs.map Char.toLower) = leafPools cs := by
  rw [leafPools, rolledText_map_toLower, pieces_map_toLower, pools_map_lowered, leafPools]

theorem leafText_map_toLower (cs : List Char) (rolls : List Roll) :
    leafText (cs.map Char.toLower) rolls = String.ofList ((leafText cs rolls).toList.map Char.toLower) := by
  rw [leafText, rolledText_map_toLower, pieces_map_toLower, splice_map_lowered, leafText, String.toList_ofList]

end Reading

end Query

namespace Tray

variable {σ : Type} {tray tray' tray₁ : Tray σ}

/-- Trays with the same dice and the same rolls, on which the same texts were evaluated, letter case aside. -/
structure Alike (tray tray' : Tray σ) : Prop where
  dice : tray.dice = tray'.dice
  rolled : tray.rolled = tray'.rolled
  evaluated : (tray.evaluated.map fun text => text.toList.map Char.toLower) =
    tray'.evaluated.map fun text => text.toList.map Char.toLower

theorem Alike.refl (tray : Tray σ) : Alike tray tray := ⟨rfl, rfl, rfl⟩

theorem Alike.trans_symm (h : Alike tray₁ tray) (h' : Alike tray₁ tray') : Alike tray tray' where
  dice := h.dice.symm.trans h'.dice
  rolled := h.rolled.symm.trans h'.rolled
  evaluated := h.evaluated.symm.trans h'.evaluated

/-- What was evaluated so far may be kept apart from the rest of the trays. -/
theorem Alike.exists_withTexts (h : Alike tray tray') :
    ∃ (base : Tray σ) (texts texts' : List String), tray = base.withTexts texts ∧ tray' = base.withTexts texts' ∧
      (texts.map fun text => text.toList.map Char.toLower) = texts'.map fun text => text.toList.map Char.toLower := by
  obtain ⟨dice, rolled, ⟨texts⟩⟩ := tray
  obtain ⟨dice', rolled', ⟨texts'⟩⟩ := tray'
  obtain ⟨rfl, rfl, hevaluated⟩ := h
  exact ⟨⟨dice, rolled, #[]⟩, texts, texts', by simp [withTexts], by simp [withTexts],
    by simpa using hevaluated⟩

theorem alike_withTexts (base : Tray σ) {texts texts' : List String}
    (h : (texts.map fun text => text.toList.map Char.toLower) = texts'.map fun text => text.toList.map Char.toLower) :
    Alike (base.withTexts texts) (base.withTexts texts') where
  dice := rfl
  rolled := rfl
  evaluated := by
    apply Array.ext'
    simp [h]

end Tray

namespace Query

section Answers

variable {σ : Type} [DieSource σ] {mode : Scoring} {cs : List Char} {tray tray' : Tray σ}

theorem answerTerms_map_toLower (h : tray.Alike tray') :
    ((answerTerms Arithmetic.evaluate (cs.map Char.toLower) mode tray).2.Alike
        (answerTerms Arithmetic.evaluate cs mode tray').2) ∧
      (answerTerms Arithmetic.evaluate (cs.map Char.toLower) mode tray).1.map Result.unnamed =
        (answerTerms Arithmetic.evaluate cs mode tray').1.map Result.unnamed := by
  obtain ⟨base, texts, texts', rfl, rfl, htexts⟩ := h.exists_withTexts
  cases hbase : base.rollAll (rolledMode cs mode) (leafPools cs) with
  | mk outcome after =>
    have hrolls : (base.withTexts texts).rollAll (rolledMode (cs.map Char.toLower) mode)
        (leafPools (cs.map Char.toLower)) = (outcome, after.withTexts texts) := by
      rw [rolledMode_map_toLower, leafPools_map_toLower, Tray.rollAll_withTexts, hbase]
    have hrolls' : (base.withTexts texts').rollAll (rolledMode cs mode) (leafPools cs) =
        (outcome, after.withTexts texts') := by
      rw [Tray.rollAll_withTexts, hbase]
    cases outcome with
    | error e =>
      rw [answerTerms_of_rollAll_error hrolls, answerTerms_of_rollAll_error hrolls']
      exact ⟨after.alike_withTexts htexts, rfl⟩
    | ok rolls =>
      rw [answerTerms_of_rollAll hrolls, answerTerms_of_rollAll hrolls', ← Tray.withTexts_singleton,
        ← Tray.withTexts_singleton, Tray.withTexts_withTexts, Tray.withTexts_withTexts, leafText_map_toLower,
        leafPools_map_toLower, Arithmetic.evaluate_map_toLower, String.ofList_toList]
      constructor
      · apply after.alike_withTexts
        simp only [List.map_append, htexts, List.map_cons, List.map_nil, String.toList_ofList, List.map_map,
          Text.toLower_comp_toLower]
      · cases Arithmetic.evaluate (leafText cs rolls) with
        | ok total => rfl
        | error e =>
          dsimp only
          split <;> rfl

theorem answerWithin_map_toLower {levels : Nat} (h : tray.Alike tray') :
    ((answerWithin Arithmetic.evaluate levels (cs.map Char.toLower) mode tray).2.Alike
        (answerWithin Arithmetic.evaluate levels cs mode tray').2) ∧
      (answerWithin Arithmetic.evaluate levels (cs.map Char.toLower) mode tray).1.map Result.unnamed =
        (answerWithin Arithmetic.evaluate levels cs mode tray').1.map Result.unnamed := by
  induction cs using markInduction generalizing levels tray tray' with
  | plain cs hcs =>
    have hsplit := splitRepetition?_map_toLower cs
    rw [hcs, Option.map_none] at hsplit
    rw [answerWithin_of_none hcs, answerWithin_of_none hsplit, isWorthReading_map_toLower]
    split
    · exact answerTerms_map_toLower h
    · exact ⟨h, rfl⟩
  | marked cs times inner hcs ih =>
    have hsplit := splitRepetition?_map_toLower cs
    rw [hcs, Option.map_some] at hsplit
    cases levels with
    | zero =>
      rw [answerWithin_zero_of_some hcs, answerWithin_zero_of_some hsplit]
      exact ⟨h, rfl⟩
    | succ levels =>
      rw [answerWithin_succ_of_some hcs, answerWithin_succ_of_some hsplit]
      exact unnamed_repeated (repeatAnswer_unnamed (fun _ _ htrays => ih htrays) times h rfl)

/-- Letter case makes no difference to a query. Two queries that differ only in the case of ASCII letters either fail
with the same failure, position and message included, or have results that differ only in what they repeat of the
query; and the trays are left with the same dice, the same rolls and, letter case aside, the same evaluated texts. -/
theorem answer_of_same_letters {query query' : String}
    (h : query.toList.map Char.toLower = query'.toList.map Char.toLower) (mode : Scoring) (tray : Tray σ) :
    (answer Arithmetic.evaluate query mode tray).1.map Result.unnamed =
        (answer Arithmetic.evaluate query' mode tray).1.map Result.unnamed ∧
      (answer Arithmetic.evaluate query mode tray).2.Alike (answer Arithmetic.evaluate query' mode tray).2 := by
  obtain ⟨htray, houtcome⟩ :=
    @answerWithin_map_toLower σ _ mode query.toList tray tray maxRepetitions (.refl tray)
  obtain ⟨htray', houtcome'⟩ :=
    @answerWithin_map_toLower σ _ mode query'.toList tray tray maxRepetitions (.refl tray)
  rw [h] at htray houtcome
  exact ⟨houtcome.symm.trans houtcome', htray.trans_symm htray'⟩

/-- Everything that has a letter in it: a mark, a pool, a marker of Fate dice and a name that no function has. -/
theorem answer_mixed_case :
    let tray := Tray.ofDice (Script.ofList [1, 6, 3])
    "2X1DF+Foo(2D4)".toList.map Char.toLower = "2x1df+foO(2d4)".toList.map Char.toLower ∧
      (answer Arithmetic.evaluate "2X1DF+Foo(2D4)" .sum tray).1.map Result.unnamed =
        (answer Arithmetic.evaluate "2x1df+foO(2d4)" .sum tray).1.map Result.unnamed ∧
      (answer Arithmetic.evaluate "2X1DF+Foo(2D4)" .sum tray).2.Alike
        (answer Arithmetic.evaluate "2x1df+foO(2d4)" .sum tray).2 := by
  intro tray
  have hletters : "2X1DF+Foo(2D4)".toList.map Char.toLower = "2x1df+foO(2d4)".toList.map Char.toLower := by decide
  exact ⟨hletters, answer_of_same_letters hletters .sum tray⟩

end Answers

end Query

end Tabletop

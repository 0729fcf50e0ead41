import Tabletop.Proofs.Answering
import Tabletop.Proofs.Matches

/-!
Totals in the place of matches, one search after the other. For each match in turn the first place where its
characters stand gets the total of the match; what was written there before is searched again. Main statement: where
no match has the letter of a die directly behind it this gives, in ASCII, the text that is evaluated. No match can be
found too early, because its characters have a letter of a die between two digits, and in front of the match there is
no such letter: not in the text between matches, not where a total was written and not where the two meet.
-/

namespace Tabletop.Query

open Arithmetic

/-- The text in which `new` stands in the first place where `old` did. -/
def replaceFirst (old new cs : List Char) : List Char :=
  if old <+: cs then new ++ cs.drop old.length
  else
    match cs with
    | [] => []
    | c :: cs => c :: replaceFirst old new cs

/-- Replaces one text after the other, each in what the replacements before it left. -/
def replaceEach : (olds news : List (List Char)) → List Char → List Char
  | old :: olds, new :: news, cs => replaceEach olds news (replaceFirst old new cs)
  | _, _, cs => cs

section Quiet

variable {cs xs ys : List Char}

/-- No letter of a die has digits on both sides. -/
def Quiet (cs : List Char) : Prop :=
  ∀ x letter y, [x, letter, y] <:+: cs → Text.isDecimalDigit x = true → isDieLetter letter = true →
    Text.isDecimalDigit y = false

theorem quiet_of_not_letter (h : ∀ c ∈ cs, isDieLetter c = false) : Quiet cs := by
  intro x letter y hin _ hletter
  rw [h letter (hin.subset (by simp))] at hletter
  cases hletter

/-- Three characters in two texts are in one of them, or the middle one is where the texts meet. -/
theorem infix_append_cases {x letter y : Char} (h : [x, letter, y] <:+: xs ++ ys) :
    [x, letter, y] <:+: xs ∨ [x, letter, y] <:+: ys ∨ ys.head? = some letter ∨
      ([x, letter] <:+ xs ∧ ys.head? = some y) := by
  rcases List.infix_append_iff_ne_nil.mp h with h | h | ⟨front, back, hfront, hback, htext, hxs, hys⟩
  · exact .inl h
  · exact .inr (.inl h)
  · match front, hfront, htext with
    | [_], _, htext =>
      obtain ⟨zs, rfl⟩ := hys
      obtain ⟨rfl, rfl⟩ := List.cons.inj htext
      exact .inr (.inr (.inl rfl))
    | [_, _], _, htext =>
      obtain ⟨zs, rfl⟩ := hys
      simp only [List.cons_append, List.nil_append, List.cons.injEq] at htext
      obtain ⟨rfl, rfl, rfl⟩ := htext
      exact .inr (.inr (.inr ⟨hxs, rfl⟩))
    | _ :: _ :: _ :: front, _, htext =>
      simp only [List.cons_append, List.cons.injEq] at htext
      exact absurd (List.append_eq_nil_iff.mp htext.2.2.2.symm).2 hback

theorem Quiet.append (hxs : Quiet xs) (hys : Quiet ys) (hlast : ∀ x ∈ xs.getLast?, isDieLetter x = false)
    (hhead : ∀ y ∈ ys.head?, isDieLetter y = false) : Quiet (xs ++ ys) := by
  intro x letter y hin hx hletter
  rcases infix_append_cases hin with hin | hin | hmeet | ⟨hmeet, -⟩
  · exact hxs x letter y hin hx hletter
  · exact hys x letter y hin hx hletter
  · rw [hhead letter hmeet] at hletter
    cases hletter
  · obtain ⟨zs, rfl⟩ := hmeet
    rw [hlast letter (by simp)] at hletter
    cases hletter

/-- Behind a text a total is no worse than any digit. -/
theorem Quiet.append_of_digit {d : Char} (h : Quiet (xs ++ [d])) (hd : Text.isDecimalDigit d = true)
    (hys : ∀ y ∈ ys, isDieLetter y = false) : Quiet (xs ++ ys) := by
  intro x letter y hin hx hletter
  rcases infix_append_cases hin with hin | hin | hmeet | ⟨hmeet, -⟩
  · exact h x letter y (hin.trans (List.prefix_append ..).isInfix) hx hletter
  · exact quiet_of_not_letter hys x letter y hin hx hletter
  · rw [hys letter (List.mem_of_mem_head? hmeet)] at hletter
    cases hletter
  · obtain ⟨zs, rfl⟩ := hmeet
    have hdigit := h x letter d ⟨zs, [], by simp⟩ hx hletter
    rw [hd] at hdigit
    cases hdigit

end Quiet

section First

variable {before behind front back new term others : List Char} {d : Char}

/-- A pool begins with digits, behind which a letter of a die has digits on both sides. -/
theorem IsTerm.eq_append (h : IsTerm term) :
    ∃ count x letter y sides, term = count ++ [x] ++ letter :: y :: sides ∧
      (∀ c ∈ count ++ [x], Text.isDecimalDigit c = true) ∧ isDieLetter letter = true ∧
        Text.isDecimalDigit y = true := by
  obtain @⟨count, sides, letter, hcount, hcounts, hletter, hsides, hsidess⟩ := h
  obtain ⟨y, sides, rfl⟩ := List.exists_cons_of_ne_nil hsides
  rcases List.eq_nil_or_concat' count with rfl | ⟨count, x, rfl⟩
  · exact absurd rfl hcount
  · exact ⟨count, x, letter, y, sides, rfl, hcounts, hletter, hsidess y List.mem_cons_self⟩

theorem IsTerm.isDecimalDigit_head (h : IsTerm (d :: others)) : Text.isDecimalDigit d = true := by
  generalize hterm : d :: others = term at h
  obtain @⟨count, sides, letter, hcount, hcounts, -, -, -⟩ := h
  obtain ⟨c, count, rfl⟩ := List.exists_cons_of_ne_nil hcount
  obtain ⟨rfl, -⟩ := List.cons.inj hterm
  exact hcounts d List.mem_cons_self

theorem isTerm_of_digits {x letter y : Char} (hx : Text.isDecimalDigit x = true) (hletter : isDieLetter letter = true)
    (hy : Text.isDecimalDigit y = true) : IsTerm [x, letter, y] :=
  .mk (List.cons_ne_nil x []) (by simpa using hx) hletter (List.cons_ne_nil y []) (by simpa using hy)

/-- The text before the first match is quiet, also with the digit that the match begins with. -/
theorem quiet_of_first (hfirst : ∀ front term' back, before ++ term ++ behind = front ++ term' ++ back →
    IsTerm term' → before.length ≤ front.length) (hd : term = d :: others) : Quiet (before ++ [d]) := by
  intro x letter y hin hx hletter
  apply Bool.eq_false_iff.mpr
  intro hy
  obtain ⟨front, back, htext⟩ := hin
  have hle := hfirst front [x, letter, y] (back ++ others ++ behind)
    (by rw [hd, ← List.append_assoc, ← List.append_assoc, htext]; simp) (isTerm_of_digits hx hletter hy)
  have hlength := congrArg List.length htext
  simp only [List.length_append, List.length_cons, List.length_nil] at hlength
  omega

/-- In front of a text that is done, the first match is still quiet up to its first digit. -/
theorem Quiet.append_first {done : List Char} (hdone : Quiet done)
    (hlast : ∀ c ∈ done.getLast?, isDieLetter c = false)
    (hmeet : done ≠ [] → ∀ c ∈ before.head?, isDieLetter c = false) (hd : Text.isDecimalDigit d = true)
    (hfirst : Quiet (before ++ [d])) : Quiet (done ++ before ++ [d]) := by
  rw [List.append_assoc]
  rcases eq_or_ne done [] with rfl | hne
  · exact hfirst
  · refine hdone.append hfirst hlast ?_
    intro c hc
    cases before with
    | nil =>
      obtain rfl : d = c := by simpa using hc
      exact not_isDieLetter_of_isDecimalDigit hd
    | cons b before => exact hmeet hne c hc

/-- Where the same digits are found earlier in a text, with a letter of a die behind them, they end before they are
found again, because that letter is no digit. -/
theorem length_lt_of_digits {digits : List Char} {letter : Char} (hdigits : ∀ c ∈ digits, Text.isDecimalDigit c = true)
    (hletter : isDieLetter letter = true) (htext : front ++ digits ++ letter :: back = before ++ digits ++ behind)
    (hlt : front.length < before.length) : front.length + digits.length < before.length := by
  by_contra hle
  have hfound : front ++ digits ++ [letter] <+: before ++ digits ++ behind := ⟨back, by simp [← htext]⟩
  have hwithin : front ++ digits ++ [letter] <+: before ++ digits := by
    refine List.prefix_of_prefix_length_le hfound (List.prefix_append ..) ?_
    simp only [List.length_append, List.length_singleton]
    omega
  obtain ⟨more, hmore⟩ := hwithin
  have hlast : letter :: more <:+ digits := by
    refine List.suffix_of_suffix_length_le ⟨front ++ digits, ?_⟩ (List.suffix_append before digits) ?_
    · rw [← hmore, List.append_assoc _ [letter], List.singleton_append]
    · have hlength := congrArg List.length hmore
      simp only [List.length_append, List.length_cons] at hlength ⊢
      omega
  have hdigit := hdigits letter (hlast.subset List.mem_cons_self)
  rw [not_isDieLetter_of_isDecimalDigit hdigit] at hletter
  cases hletter

/-- A pool is found behind text that is quiet up to its first digit, and nowhere before. -/
theorem IsTerm.length_le_of_quiet (hterm : IsTerm term) (hd : term = d :: others)
    (hquiet : Quiet (before ++ [d])) (htext : before ++ term ++ behind = front ++ term ++ back) :
    before.length ≤ front.length := by
  by_contra hlt
  obtain ⟨count, x, letter, y, sides, hsplit, hdigits, hletter, hy⟩ := hterm.eq_append
  have hearly : front.length + (count ++ [x]).length < before.length := by
    refine @length_lt_of_digits before (letter :: y :: sides ++ behind) front (y :: sides ++ back) _ letter hdigits
      hletter ?_ (Nat.lt_of_not_le hlt)
    rw [hsplit] at htext
    simpa using htext.symm
  rw [List.length_append, List.length_singleton] at hearly
  -- The letter and the digits around it are in the quiet text.
  have hquietText : before ++ [d] <+: before ++ term ++ behind := ⟨others ++ behind, by simp [hd]⟩
  have hfound : front ++ count ++ [x, letter, y] <+: before ++ term ++ behind :=
    ⟨sides ++ back, by rw [htext, hsplit]; simp⟩
  have hwithin : front ++ count ++ [x, letter, y] <+: before ++ [d] := by
    refine List.prefix_of_prefix_length_le hfound hquietText ?_
    simp only [List.length_append, List.length_cons, List.length_nil]
    omega
  have hin : [x, letter, y] <:+: before ++ [d] := (List.suffix_append ..).isInfix.trans hwithin.isInfix
  have hnot := hquiet x letter y hin (hdigits x (by simp)) hletter
  rw [hy] at hnot
  cases hnot

theorem replaceFirst_eq (hfirst : ∀ front back, before ++ term ++ behind = front ++ term ++ back →
    before.length ≤ front.length) : replaceFirst term new (before ++ term ++ behind) = before ++ new ++ behind := by
  induction before with
  | nil =>
    unfold replaceFirst
    rw [if_pos ⟨behind, rfl⟩]
    simp
  | cons c before ih =>
    have hnot : ¬term <+: c :: before ++ term ++ behind := by
      rintro ⟨back, hback⟩
      exact absurd (hfirst [] back hback.symm) (by simp)
    unfold replaceFirst
    rw [if_neg hnot]
    refine congrArg (c :: ·) (ih ?_)
    intro front back htext
    exact Nat.le_of_succ_le_succ (hfirst (c :: front) back (congrArg (c :: ·) htext))

end First

section Woven

variable {cs rest : List Char} {found : List Match} {done : List Char} {totals : List Int}

theorem Match.isReadable_of_ascii {m : Match} (hterm : IsTerm m.written) (hascii : ∀ c ∈ m.written, c.toNat < 128) :
    m.isReadable = true := by
  refine List.all_eq_true.mpr ?_
  intro c hc
  rcases hterm.isDecimalDigit_or_isDieLetter hc with hdigit | hletter
  · have := toNat_of_isDecimalDigit hdigit
    have := hascii c hc
    have hin : c.isDigit = true := isDigit_iff_toNat.mpr (by omega)
    simp [hin]
  · simp [hletter]

theorem isDigit_or_of_mem_intChars {t : Int} {c : Char} (hc : c ∈ intChars t) : c.isDigit = true ∨ c = '-' := by
  cases t with
  | ofNat n => exact .inl (isDigit_of_mem_toDigits hc)
  | negSucc n =>
    rcases List.mem_cons.mp hc with rfl | hc
    · exact .inr rfl
    · exact .inl (isDigit_of_mem_toDigits hc)

theorem intChars_ne_nil (t : Int) : intChars t ≠ [] := by
  cases t with
  | ofNat n => exact Nat.toDigits_ne_nil
  | negSucc n => exact List.cons_ne_nil _ _

theorem not_isDieLetter_of_mem_intChars {t : Int} {c : Char} (hc : c ∈ intChars t) : isDieLetter c = false := by
  apply Bool.eq_false_iff.mpr
  intro hletter
  rcases isDieLetter_iff.mp hletter with rfl | rfl <;> exact absurd (isDigit_or_of_mem_intChars hc) (by decide)

/-- Behind a text that was rewritten each search finds the match that it is for. -/
theorem Matches.replaceEach_eq (h : Matches cs found rest) (hascii : ∀ c ∈ cs, c.toNat < 128)
    (hlength : totals.length = (terms found).length)
    (hbehind : ∀ gap ∈ (gaps found rest).tail, ∀ c ∈ gap.head?, isDieLetter c = false)
    (hdone : Quiet done) (hlast : ∀ c ∈ done.getLast?, isDieLetter c = false)
    (hmeet : done ≠ [] → ∀ gap ∈ (gaps found rest).head?, ∀ c ∈ gap.head?, isDieLetter c = false) :
    replaceEach (terms found) (totals.map intChars) (done ++ cs) =
      done ++ weave (gaps found rest) (totals.map intChars) := by
  -- What is carried along is that the text in front stays quiet and does not end in a letter.
  induction h generalizing done totals with
  | none =>
    rw [List.eq_nil_of_length_eq_zero hlength]
    simp [replaceEach, weave]
  | @next before written behind rest found hterm hfirst _ hrest ih =>
    have hreadable : Match.isReadable ⟨before, written⟩ = true :=
      Match.isReadable_of_ascii hterm fun c hc => hascii c (by simp [hc])
    rw [gaps_cons, if_pos hreadable] at hbehind hmeet ⊢
    rw [terms_cons, if_pos hreadable] at hlength ⊢
    obtain ⟨total, totals, rfl⟩ := List.exists_cons_of_length_eq_add_one hlength
    obtain ⟨d, others, hd⟩ := List.exists_cons_of_ne_nil hterm.ne_nil
    have hdigit : Text.isDecimalDigit d = true := (hd ▸ hterm).isDecimalDigit_head
    have hquiet : Quiet (done ++ before ++ [d]) :=
      hdone.append_first hlast (fun hne => hmeet hne before rfl) hdigit (quiet_of_first hfirst hd)
    have hreplaced : replaceFirst written (intChars total) (done ++ (before ++ written ++ behind)) =
        done ++ before ++ intChars total ++ behind := by
      have hplace := @replaceFirst_eq (done ++ before) behind (intChars total) written
        fun front back htext => hterm.length_le_of_quiet hd hquiet htext
      simpa using hplace
    have hletters : ∀ c ∈ intChars total, isDieLetter c = false := fun c => not_isDieLetter_of_mem_intChars
    have hgaps : ∀ gap ∈ gaps found rest, ∀ c ∈ gap.head?, isDieLetter c = false := hbehind
    rw [List.map_cons, replaceEach, hreplaced, ih, weave]
    · simp
    · exact fun c hc => hascii c (by simp [hc])
    · exact Nat.succ.inj hlength
    · exact fun gap hgap => hgaps gap (List.mem_of_mem_tail hgap)
    · exact hquiet.append_of_digit hdigit hletters
    · intro c hc
      rw [List.getLast?_append_of_ne_nil _ (intChars_ne_nil total)] at hc
      exact hletters c (List.mem_of_getLast? hc)
    · intro _ gap hgap
      exact hgaps gap (List.mem_of_mem_head? hgap)

end Woven

section Evaluated

variable {σ : Type} [DieSource σ] {query : String} {found : List Match} {rest : List Char}

theorem mem_expandFateMarkers {cs : List Char} {c : Char} (hc : c ∈ expandFateMarkers cs) :
    c ∈ cs ∨ c = 'd' ∨ c = '6' := by
  fun_induction expandFateMarkers cs with
  | case1 x y cs _ ih =>
    simp only [List.mem_cons] at hc ⊢
    rcases hc with rfl | rfl | hc
    · simp
    · simp
    · rcases ih hc with hc | hc <;> simp [hc]
  | case2 x y cs _ ih =>
    rcases List.mem_cons.mp hc with rfl | hc
    · simp
    · exact (ih hc).imp_left (List.mem_cons_of_mem x)
  | case3 => exact .inl hc

theorem ascii_rolledText {cs : List Char} (h : ∀ c ∈ cs, c.toNat < 128) : ∀ c ∈ rolledText cs, c.toNat < 128 := by
  intro c hc
  unfold rolledText at hc
  split at hc
  · rcases mem_expandFateMarkers hc with hc | rfl | rfl
    · exact h c hc
    · decide
    · decide
  · exact h c hc

/-- In an ASCII query without a mark, in which no match has the letter of a die directly behind it, the totals over
the matches make the text that one gets by replacing the first occurrence of each match in turn, whatever the totals
are, and this is the text that is evaluated. -/
theorem evaluated_eq_replaceEach (hascii : ∀ c ∈ query.toList, c.toNat < 128)
    (hmarks : ∀ c ∈ query.toList, isRepetitionMark c = false)
    (hfound : Matches (rolledText query.toList) found rest)
    (hbehind : ∀ gap ∈ (gaps found rest).tail, ∀ c ∈ gap.head?, isDieLetter c = false) :
    (∀ totals : List Int, totals.length = (terms found).length →
      splice (pieces (rolledText query.toList)) totals =
        replaceEach (terms found) (totals.map intChars) (rolledText query.toList)) ∧
    ∀ (evaluator : Evaluator) (mode : Scoring) (tray tray' : Tray σ) (rolls : List Roll),
      isWorthReading query.toList = true →
      tray.rollAll (rolledMode query.toList mode) (leafPools query.toList) = (.ok rolls, tray') →
      rolls.length = (terms found).length ∧
        (answer evaluator query mode tray).2.evaluated = tray.evaluated.push (String.ofList
          (replaceEach (terms found) (rolls.map fun roll => intChars roll.total) (rolledText query.toList))) := by
  have hreplace : ∀ totals : List Int, totals.length = (terms found).length →
      splice (pieces (rolledText query.toList)) totals =
        replaceEach (terms found) (totals.map intChars) (rolledText query.toList) := by
    intro totals hlength
    have hquiet : Quiet [] := quiet_of_not_letter (List.forall_mem_nil _)
    have hlast : ∀ c ∈ [].getLast?, isDieLetter c = false := by simp
    rw [hfound.cutsAt.splice_eq totals hlength]
    exact (hfound.replaceEach_eq (ascii_rolledText hascii) hlength hbehind hquiet hlast fun h => absurd rfl h).symm
  refine ⟨hreplace, ?_⟩
  intro evaluator mode tray tray' rolls hworth hrolls
  have hlength : rolls.length = (terms found).length :=
    (Tray.length_of_rollAll hrolls).trans hfound.cutsAt.pools_eq.length_eq.symm
  refine ⟨hlength, ?_⟩
  have htext := hreplace (rolls.map Roll.total) (by rw [List.length_map, hlength])
  rw [List.map_map] at htext
  rw [answer, answerWithin_of_none (splitRepetition?_eq_none_iff.mpr hmarks), if_pos hworth,
    answerTerms_of_rollAll hrolls, leafText, htext, Tray.evaluated_of_rollAll hrolls]
  rfl

/-- The second pool is written within the first one as well, but that is gone when it is looked for. -/
theorem evaluated_eq_replaceEach_elevenDice :
    (answer evaluate "11d6-1d6" .sum (Tray.ofDice (Script.always 2))).2.evaluated =
      #[String.ofList (replaceEach ["11d6".toList, "1d6".toList] [intChars 22, intChars 2] "11d6-1d6".toList)] := by
  have hlast : Matches "-1d6".toList [⟨['-'], "1d6".toList⟩] [] :=
    .cons_of_leadingTerm? (by decide) (by decide) matches_nil
  have hfound : Matches "11d6-1d6".toList [⟨[], "11d6".toList⟩, ⟨['-'], "1d6".toList⟩] [] :=
    .of_leadingTerm? rfl hlast
  have hascii : ∀ c ∈ "11d6-1d6".toList, c.toNat < 128 := by simp
  have hbehind : ∀ gap ∈ [['-'], []], ∀ c ∈ gap.head?, isDieLetter c = false := by simp [isDieLetter]
  have hmarks : ∀ c ∈ "11d6-1d6".toList, isRepetitionMark c = false := splitRepetition?_eq_none_iff.mp rfl
  have hpools : leafPools "11d6-1d6".toList = [⟨11, 6⟩, ⟨1, 6⟩] := by decide +kernel
  let tray := Tray.ofDice (Script.always 2)
  have hrolls : tray.rollAll (rolledMode "11d6-1d6".toList .sum) (leafPools "11d6-1d6".toList) =
      (.ok [⟨⟨11, 6⟩, .sum, List.replicate 11 2⟩, ⟨⟨1, 6⟩, .sum, [2]⟩],
        ⟨⟨[], 2⟩, #[⟨⟨11, 6⟩, .sum, List.replicate 11 2⟩, ⟨⟨1, 6⟩, .sum, [2]⟩], #[]⟩) := by
    rw [hpools]
    rfl
  obtain ⟨-, hevaluated⟩ := @evaluated_eq_replaceEach Script _ _ _ _ hascii hmarks hfound hbehind
  exact (hevaluated evaluate .sum tray _ _ rfl hrolls).2

end Evaluated

end Tabletop.Query

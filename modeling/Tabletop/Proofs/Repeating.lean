import Tabletop.Proofs.Answering

/-!
Repeating a query. How deep a query stands inside repetitions does not matter as long as all of its marks are
read, so the parts of a repetition are answers to what is behind the mark, asked on their own. Main statement:
a repetition gives these answers one after the other up to the first that fails, and leaves the tray as they
leave it.
-/

namespace Tabletop.Query

variable {σ : Type}

section Repeated

variable {answer : Tray σ → Except Failure (Result Roll) × Tray σ} {tray tray₁ tray' : Tray σ}
  {parts done : List (Result Roll)} {e : Failure}

theorem repeatAnswer_of_answers (h : Answers answer tray parts tray') :
    repeatAnswer answer parts.length done tray = (.ok (done.reverse ++ parts), tray') := by
  induction h generalizing done with
  | nil tray => rw [List.append_nil]; rfl
  | cons hr _ ih =>
    rw [List.length_cons, repeatAnswer]
    simp only [hr, ih, List.reverse_cons, List.append_assoc, List.singleton_append]

theorem repeatAnswer_of_answers_error {times : Nat} (h : Answers answer tray parts tray₁)
    (hlength : parts.length < times) (hfail : answer tray₁ = (.error e, tray')) :
    repeatAnswer answer times done tray = (.error e, tray') := by
  induction h generalizing done times with
  | nil tray =>
    obtain ⟨times, rfl⟩ := Nat.exists_eq_succ_of_ne_zero (Nat.ne_zero_of_lt hlength)
    simp only [repeatAnswer, hfail]
  | cons hr _ ih =>
    obtain ⟨times, rfl⟩ := Nat.exists_eq_succ_of_ne_zero (Nat.ne_zero_of_lt hlength)
    rw [repeatAnswer]
    simp only [hr]
    exact ih (Nat.lt_of_succ_lt_succ hlength) hfail

theorem repeatAnswer_eq_ok_iff {times : Nat} :
    repeatAnswer answer times [] tray = (.ok parts, tray') ↔
      parts.length = times ∧ Answers answer tray parts tray' := by
  constructor
  · intro h
    obtain ⟨more, rfl, hlength, hmore⟩ := answers_of_repeatAnswer h
    exact ⟨hlength, hmore⟩
  · rintro ⟨rfl, h⟩
    exact repeatAnswer_of_answers h

theorem repeatAnswer_eq_error_iff {times : Nat} :
    repeatAnswer answer times [] tray = (.error e, tray') ↔
      ∃ parts tray₁, parts.length < times ∧ Answers answer tray parts tray₁ ∧
        answer tray₁ = (.error e, tray') := by
  constructor
  · exact answers_of_repeatAnswer_error
  · rintro ⟨parts, tray₁, hlength, h, hfail⟩
    exact repeatAnswer_of_answers_error h hlength hfail

end Repeated

variable [DieSource σ] {evaluator : Arithmetic.Evaluator} {mode : Scoring}

/-- Levels beyond the marks of a query make no difference. -/
theorem answerWithin_congr_levels {levels levels' : Nat} {cs : List Char} {tray : Tray σ}
    (h : (counts cs).length ≤ levels) (h' : (counts cs).length ≤ levels') :
    answerWithin evaluator levels cs mode tray = answerWithin evaluator levels' cs mode tray := by
  induction cs using markInduction generalizing levels levels' tray with
  | plain cs hcs => rw [answerWithin_of_none hcs, answerWithin_of_none hcs]
  | marked cs times inner hcs ih =>
    rw [counts_of_some hcs, List.length_cons] at h h'
    obtain ⟨levels, rfl⟩ := Nat.exists_eq_add_one_of_ne_zero (Nat.ne_zero_of_lt h)
    obtain ⟨levels', rfl⟩ := Nat.exists_eq_add_one_of_ne_zero (Nat.ne_zero_of_lt h')
    have hinner : answerWithin evaluator levels inner mode =
        (answerWithin evaluator levels' inner mode : Tray σ → _) :=
      funext fun tray => ih (Nat.le_of_succ_le_succ h) (Nat.le_of_succ_le_succ h')
    rw [answerWithin_succ_of_some hcs, answerWithin_succ_of_some hcs, hinner]

theorem splitRepetition?_append {count inner : List Char} {mark : Char}
    (hcount : ∀ c ∈ count, isRepetitionMark c = false) (hmark : isRepetitionMark mark = true) :
    splitRepetition? (count ++ mark :: inner) = some (repetitionCount count, inner) := by
  have hbefore : ∀ c ∈ count, (!isRepetitionMark c) = true := fun c hc => by rw [hcount c hc]; rfl
  have hbehind : ∀ c ∈ (mark :: inner).head?, (!isRepetitionMark c) = false := by simp [hmark]
  obtain ⟨htake, hdrop⟩ := Arithmetic.span_append (mark :: inner) hbefore hbehind
  simp only [splitRepetition?, htake, hdrop]

section Repetition

variable {query inner : String} {count : List Char} {mark : Char}

theorem answer_eq_repeatAnswer {tray : Tray σ} (hquery : query.toList = count ++ mark :: inner.toList)
    (hcount : ∀ c ∈ count, isRepetitionMark c = false) (hmark : isRepetitionMark mark = true)
    (hmarks : query.toList.countP isRepetitionMark ≤ 16) :
    answer evaluator query mode tray =
      match repeatAnswer (answer evaluator inner mode) (repetitionCount count) [] tray with
      | (.error e, tray) => (.error e, tray)
      | (.ok parts, tray) => (.ok (.repeated query (sumTotals parts) [] parts), tray) := by
  have hsplit : splitRepetition? query.toList = some (repetitionCount count, inner.toList) := by
    rw [hquery]
    exact splitRepetition?_append hcount hmark
  rw [← length_counts, counts_of_some hsplit, List.length_cons] at hmarks
  have hlevels : (counts inner.toList).length ≤ 15 := Nat.le_of_succ_le_succ hmarks
  have hinner : answerWithin evaluator 15 inner.toList mode =
      (answer evaluator inner mode : Tray σ → _) :=
    funext fun tray => answerWithin_congr_levels hlevels (hlevels.trans (by decide))
  have hanswer : answer evaluator query mode tray = _ := answerWithin_succ_of_some hsplit
  rw [hinner, String.ofList_toList] at hanswer
  exact hanswer

/-- A repetition comes to asking again and again. It has an answer iff all of the repeated query's answers
are there, which are then its parts; it fails iff one of them does, and with the same failure. Either way the
tray, with its dice and the texts evaluated on it, is left as the answers left it. -/
theorem answer_repetition_iff (hquery : query.toList = count ++ mark :: inner.toList)
    (hcount : ∀ c ∈ count, isRepetitionMark c = false) (hmark : isRepetitionMark mark = true)
    (hmarks : query.toList.countP isRepetitionMark ≤ 16) (evaluator : Arithmetic.Evaluator)
    (mode : Scoring) (tray : Tray σ) :
    (∀ r after, answer evaluator query mode tray = (.ok r, after) ↔
      ∃ parts, r = .repeated query (sumTotals parts) [] parts ∧
        parts.length = repetitionCount count ∧ Answers (answer evaluator inner mode) tray parts after) ∧
    ∀ e after, answer evaluator query mode tray = (.error e, after) ↔
      ∃ parts tray₁, parts.length < repetitionCount count ∧
        Answers (answer evaluator inner mode) tray parts tray₁ ∧
          answer evaluator inner mode tray₁ = (.error e, after) := by
  have hanswer := @answer_eq_repeatAnswer σ _ evaluator mode query inner count mark tray
    hquery hcount hmark hmarks
  constructor
  · intro r after
    simp only [← repeatAnswer_eq_ok_iff, hanswer]
    cases hrepeat : repeatAnswer (answer evaluator inner mode) (repetitionCount count) [] tray with
    | mk outcome tray₁ => cases outcome <;> simp [eq_comm]
  · intro e after
    rw [← repeatAnswer_eq_error_iff, hanswer]
    cases hrepeat : repeatAnswer (answer evaluator inner mode) (repetitionCount count) [] tray with
    | mk outcome tray₁ => cases outcome <;> simp

/-- As many marks as are read, the first of them asking for two answers. -/
theorem answer_repetition_sixteen_marks :
    ∃ parts after,
      answer (fun _ => .ok 0) "2x1x1x1x1x1x1x1x1x1x1x1x1x1x1x1x1d4" .sum (.ofDice (Script.ofList [3, 4])) =
        (.ok (.repeated "2x1x1x1x1x1x1x1x1x1x1x1x1x1x1x1x1d4" (sumTotals parts) [] parts), after) ∧
      parts.length = 2 ∧
        Answers (answer (fun _ => .ok 0) "1x1x1x1x1x1x1x1x1x1x1x1x1x1x1x1d4" .sum)
          (.ofDice (Script.ofList [3, 4])) parts after := by
  have hok : (answer (fun _ => .ok 0) "2x1x1x1x1x1x1x1x1x1x1x1x1x1x1x1x1d4" .sum
      (.ofDice (Script.ofList [3, 4]))).1.toOption.isSome = true := by decide +kernel
  obtain ⟨r, after, h⟩ := exists_of_isSome hok
  have hcount : ∀ c ∈ ['2'], isRepetitionMark c = false := List.forall_mem_singleton.mpr rfl
  have hquery : "2x1x1x1x1x1x1x1x1x1x1x1x1x1x1x1x1d4".toList =
      ['2'] ++ 'x' :: "1x1x1x1x1x1x1x1x1x1x1x1x1x1x1x1d4".toList := by decide
  have hiff := answer_repetition_iff hquery hcount rfl (by decide) (fun _ => .ok 0) .sum
    (.ofDice (Script.ofList [3, 4]))
  obtain ⟨parts, rfl, hlength, hparts⟩ := (hiff.1 r after).mp h
  exact ⟨parts, after, h, hlength, hparts⟩

end Repetition

end Tabletop.Query

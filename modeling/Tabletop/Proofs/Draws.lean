import Tabletop.Proofs.Answering

/-!
No face is lost. A script is drawn from by one leaf after the other, by one pool of a leaf after the other
and by one die of a pool after the other. Main statement: the dice of a result show the first faces of the
script, each once and in its place, and when an answer fails the script has gone as far as the leaf that
fails. How many faces these are is fixed by the query, unless faces explode.
-/

namespace Tabletop.Query

variable {evaluator : Arithmetic.Evaluator} {cs : List Char} {mode : Scoring} {tray tray' : Tray Script}
  {r : Result Roll} {rs : List (Result Roll)}

theorem deals_of_leaf (h : answerWithin evaluator 0 cs mode tray = (.ok r, tray')) :
    Deals tray.dice r.entries tray'.dice := by
  cases hcs : splitRepetition? cs with
  | some split =>
    rw [answerWithin_zero_of_some hcs] at h
    cases h
    exact deals_nil _
  | none =>
    obtain ⟨-, tray₁, hrolls, rfl⟩ := leaf_eq_ok hcs h
    rw [Tray.dice_withTexts]
    exact deals_of_rollAll hrolls

theorem Answers.deals {answer : Tray Script → Except Failure (Result Roll) × Tray Script}
    (h : Answers answer tray rs tray')
    (hdeals : ∀ tray r tray', answer tray = (.ok r, tray') → Deals tray.dice r.entries tray'.dice) :
    Deals tray.dice (rs.flatMap Result.entries) tray'.dice := by
  induction h with
  | nil => exact deals_nil _
  | cons hr _ ih =>
    rw [List.flatMap_cons]
    exact (hdeals _ _ _ hr).append ih

/-- Answering a query draws what the listing of its result shows. -/
theorem deals_of_answer {query : String} (h : answer evaluator query mode tray = (.ok r, tray')) :
    Deals tray.dice r.leafEntries tray'.dice := by
  rw [Result.leafEntries_eq]
  apply (answers_of_answerWithin h).2.deals
  intro tray r tray' hr
  exact deals_of_leaf hr

section Counted

variable {query : String} (hmarks : query.toList.countP isRepetitionMark ≤ maxRepetitions)

include hmarks

/-- The leaves have the rolls of the last segment, as many times as the counts say. -/
theorem rollsOf_of_answer {σ : Type} [DieSource σ] {tray tray' : Tray σ}
    (h : answer evaluator query mode tray = (.ok r, tray')) :
    ∃ leaves : List (Result Roll), leaves.length = (counts query.toList).prod ∧
      r.leafEntries = leaves.flatMap Result.entries ∧
        ∀ leaf ∈ leaves, RollsOf (lastSegment query.toList) mode leaf.entries := by
  obtain ⟨hbehind, hcounts⟩ := behind_maxRepetitions hmarks
  obtain ⟨hlength, hleaves⟩ := answers_of_answerWithin h
  rw [hcounts] at hlength
  rw [hbehind] at hleaves
  refine ⟨r.leaves, hlength, r.leafEntries_eq, hleaves.forall ?_⟩
  intro tray r tray' hr
  obtain ⟨-, tray₁, hrolls, -⟩ := leaf_eq_ok (splitRepetition?_lastSegment _) hr
  exact rollsOf_of_rollAll hrolls

/-- How many faces are drawn does not depend on the faces, unless they explode. -/
theorem length_faces_of_answer {σ : Type} [DieSource σ] {tray tray' : Tray σ} (hmode : mode ≠ .whiteWolf)
    (h : answer evaluator query mode tray = (.ok r, tray')) :
    (r.leafEntries.flatMap Roll.faces).length =
      (counts query.toList).prod *
        ((leafPools (lastSegment query.toList)).map fun p => p.clamped.count).sum := by
  obtain ⟨leaves, hlength, hentries, hrolls⟩ := rollsOf_of_answer hmarks h
  have hfaces := List.map_congr_left fun leaf hleaf => (hrolls leaf hleaf).length_faces hmode
  rw [hentries, List.flatMap_assoc, List.length_flatMap, hfaces, List.map_const',
    List.sum_replicate_nat, hlength]

end Counted

/-- How an answer fails that fails in its arithmetic: some leaves were answered, and then the text of one
has no value. All of them, the last one too, have drawn their rolls from the script. -/
theorem answer_eq_arithmetic_error {query : String} {e : Arithmetic.Error}
    (h : answer evaluator query mode tray = (.error (.arithmetic e), tray')) :
    ∃ (earlier : List (List Roll)) (last : List Roll),
      earlier.length < (counts query.toList).prod ∧
        (∀ rolls ∈ earlier ++ [last], RollsOf (lastSegment query.toList) mode rolls) ∧
        (∀ rolls ∈ earlier, ∃ x, evaluator (leafText (lastSegment query.toList) rolls) = .ok x) ∧
        evaluator (leafText (lastSegment query.toList) last) = .error e ∧
          Deals tray.dice (earlier.flatten ++ last) tray'.dice := by
  obtain ⟨-, leaves, tray₁, hlength, hleaves, hterms⟩ := answer_eq_error h
  cases answerTerms_eq_error hterms with
  | inl hrolls =>
    obtain ⟨p, hp⟩ := Tray.rollAll_eq_error hrolls
    cases hp
  | inr hterms =>
    obtain ⟨hpools, last, tray₂, a, hrolls, hvalue, ha, rfl⟩ := hterms
    cases ha
    have hearlier : ∀ leaf ∈ leaves, RollsOf (lastSegment query.toList) mode leaf.entries ∧
        ∃ x, evaluator (leafText (lastSegment query.toList) leaf.entries) = .ok x := by
      refine hleaves.forall ?_
      intro tray r tray' hr
      obtain ⟨hvalue, tray₁, hrolls, -⟩ := leaf_eq_ok (splitRepetition?_lastSegment _) hr
      exact ⟨rollsOf_of_rollAll hrolls, hvalue hpools⟩
    refine ⟨leaves.map Result.entries, last, ?_, ?_, ?_, hvalue, ?_⟩
    · rwa [List.length_map]
    · intro rolls hmem
      rcases List.mem_append.mp hmem with hmem | hmem
      · obtain ⟨leaf, hleaf, rfl⟩ := List.mem_map.mp hmem
        exact (hearlier leaf hleaf).1
      · rw [List.mem_singleton.mp hmem]
        exact rollsOf_of_rollAll hrolls
    · intro rolls hmem
      obtain ⟨leaf, hleaf, rfl⟩ := List.mem_map.mp hmem
      exact (hearlier leaf hleaf).2
    · rw [← List.flatMap_def]
      apply Deals.append
      · apply hleaves.deals
        intro tray r tray' hr
        exact deals_of_leaf hr
      · rw [Tray.dice_withTexts]
        exact deals_of_rollAll hrolls

/-- What an answer does to a script. The dice of a result show the first faces of its stream, each brought
within its die, and the script moves on by as many; in all modes but one their number is the product of
the counts times the dice of the last segment. Of an answer that fails in its arithmetic the same is true
of the leaves up to the one that fails. -/
theorem answer_draws (evaluator : Arithmetic.Evaluator) (query : String) (mode : Scoring)
    (tray : Tray Script) :
    (∀ r after, answer evaluator query mode tray = (.ok r, after) →
      Deals tray.dice r.leafEntries after.dice ∧
        after.dice.remaining + min (r.leafEntries.flatMap Roll.faces).length tray.dice.remaining =
          tray.dice.remaining ∧
        (query.toList.countP isRepetitionMark ≤ 16 →
          (∃ leaves : List (List Roll), r.leafEntries = leaves.flatten ∧
            leaves.length = (counts query.toList).prod ∧
              ∀ rolls ∈ leaves, RollsOf (lastSegment query.toList) mode rolls) ∧
          (mode ≠ .whiteWolf → (r.leafEntries.flatMap Roll.faces).length =
            (counts query.toList).prod *
              ((leafPools (lastSegment query.toList)).map fun p => p.clamped.count).sum))) ∧
    ∀ e after, answer evaluator query mode tray = (.error (.arithmetic e), after) →
      ∃ (earlier : List (List Roll)) (last : List Roll),
        earlier.length < (counts query.toList).prod ∧
          (∀ rolls ∈ earlier ++ [last], RollsOf (lastSegment query.toList) mode rolls) ∧
          (∀ rolls ∈ earlier, ∃ x, evaluator (leafText (lastSegment query.toList) rolls) = .ok x) ∧
          evaluator (leafText (lastSegment query.toList) last) = .error e ∧
          Deals tray.dice (earlier.flatten ++ last) after.dice ∧
          after.dice.remaining +
              min ((earlier.flatten ++ last).flatMap Roll.faces).length tray.dice.remaining =
            tray.dice.remaining := by
  constructor
  · intro r after h
    have hdeals := deals_of_answer h
    refine ⟨hdeals, hdeals.remaining, ?_⟩
    intro hmarks
    constructor
    · obtain ⟨leaves, hlength, hentries, hrolls⟩ := rollsOf_of_answer hmarks h
      refine ⟨leaves.map Result.entries, hentries, by rwa [List.length_map], ?_⟩
      intro rolls hmem
      obtain ⟨leaf, hleaf, rfl⟩ := List.mem_map.mp hmem
      exact hrolls leaf hleaf
    · intro hmode
      exact length_faces_of_answer hmarks hmode h
  · intro e after h
    obtain ⟨earlier, last, hlength, hrolls, hvalues, hvalue, hdeals⟩ := answer_eq_arithmetic_error h
    exact ⟨earlier, last, hlength, hrolls, hvalues, hvalue, hdeals, hdeals.remaining⟩

/-- Two dice are rolled; in the second script the other one fails, since its text is one. -/
theorem answer_draws_two_dice :
    ∃ evaluator : Arithmetic.Evaluator,
      (∃ r after, answer evaluator "2x1d6" .sum (.ofDice (Script.ofList [9, 3])) = (.ok r, after) ∧
        Deals (.ofList [9, 3]) r.leafEntries after.dice ∧
          (r.leafEntries.flatMap Roll.faces).length = 2) ∧
      ∃ e after, answer evaluator "2x1d6" .sum (.ofDice (Script.ofList [9, 1])) =
          (.error (.arithmetic e), after) ∧
        ∃ (earlier : List (List Roll)) (last : List Roll), earlier.length < 2 ∧
          Deals (.ofList [9, 1]) (earlier.flatten ++ last) after.dice := by
  let evaluator : Arithmetic.Evaluator := fun text => if text = "1" then .error ⟨.empty, none⟩ else .ok 0
  refine ⟨evaluator, ?_, ?_⟩
  · have hok : (answer evaluator "2x1d6" .sum
        (.ofDice (Script.ofList [9, 3]))).1.toOption.isSome = true := by decide +kernel
    obtain ⟨r, after, h⟩ := exists_of_isSome hok
    obtain ⟨hdeals, -, hcount⟩ := (answer_draws _ _ _ _).1 r after h
    have hlength := (hcount (by decide)).2 (by decide)
    have hproduct : (counts "2x1d6".toList).prod *
        ((leafPools (lastSegment "2x1d6".toList)).map fun p => p.clamped.count).sum = 2 := by
      decide +kernel
    exact ⟨r, after, h, hdeals, hlength.trans hproduct⟩
  · cases h : answer evaluator "2x1d6" .sum (.ofDice (Script.ofList [9, 1])) with
    | mk outcome after =>
      have hfault : (match (answer evaluator "2x1d6" .sum (.ofDice (Script.ofList [9, 1]))).1 with
          | .ok _ => none
          | .error e => some e) = some (.arithmetic ⟨.empty, none⟩) := by decide +kernel
      rw [h] at hfault
      cases outcome with
      | ok r => cases hfault
      | error e =>
        cases hfault
        obtain ⟨earlier, last, hlength, -, -, -, hdeals, -⟩ := (answer_draws _ _ _ _).2 _ after h
        exact ⟨_, after, rfl, earlier, last, hlength, hdeals⟩

end Tabletop.Query

import Tabletop.Proofs.Lines

/-!
Successes that are set off. In the modes that count successes a reply emphasises the successful faces up to ten, and a
die with more sides has successful faces above. Main statement: the total of a roll is the number of its emphasised
faces, of its faces above ten and, where a ten counts twice, of its tens; on dice with no more than ten sides nothing
but the emphasised faces and these tens is left.
-/

namespace Tabletop

open Arithmetic

section Successes

variable {mode : Scoring} {face : Nat}

/-- The faces that are emphasised are worth something and not above ten. -/
theorem Scoring.highlights_iff (hmode : mode = .whiteWolf ∨ mode = .scion) :
    mode.highlights face = true ↔ 0 < mode.score face ∧ face ≤ 10 := by
  rcases hmode with rfl | rfl
  · simp only [highlights, score, decide_eq_true_eq]
    split <;> omega
  · simp only [highlights, score, decide_eq_true_eq]
    repeat' split
    all_goals omega

/-- What a face is worth: one if it is emphasised or above ten, and one more if it is a ten that counts twice. -/
theorem Scoring.score_eq (hmode : mode = .whiteWolf ∨ mode = .scion) :
    mode.score face = (if mode.highlights face then 1 else 0) + (if 10 < face then 1 else 0) +
      if mode = .scion ∧ face = 10 then 1 else 0 := by
  rcases hmode with rfl | rfl
  · simp only [highlights, score, decide_eq_true_eq, reduceCtorEq, false_and, if_false]
    repeat' split
    all_goals omega
  · simp only [highlights, score, decide_eq_true_eq, true_and]
    repeat' split
    all_goals omega

theorem Scoring.sum_score (hmode : mode = .whiteWolf ∨ mode = .scion) (faces : List Nat) :
    (faces.map mode.score).sum = ((faces.countP mode.highlights + faces.countP (10 < ·) +
      if mode = .scion then faces.count 10 else 0 : Nat) : Int) := by
  induction faces with
  | nil => simp
  | cons face faces ih =>
    rw [List.map_cons, List.sum_cons, ih, score_eq hmode, List.countP_cons, List.countP_cons, List.count_cons]
    by_cases hscion : mode = .scion
    · simp only [hscion, true_and, if_true, beq_iff_eq, decide_eq_true_eq]
      repeat' split
      all_goals omega
    · simp only [hscion, false_and, if_false, decide_eq_true_eq]
      repeat' split
      all_goals omega

theorem Roll.faceText_eq (hmode : mode = .whiteWolf ∨ mode = .scion) (markup : Markup) :
    faceText markup mode face =
      if 0 < mode.score face ∧ face ≤ 10 then markup.emphasize (Nat.repr face) else Nat.repr face := by
  have htext : faceText markup mode face =
      if mode.highlights face then markup.emphasize (Nat.repr face) else Nat.repr face := by
    rcases hmode with rfl | rfl <;> rfl
  rw [htext]
  exact if_congr (Scoring.highlights_iff hmode) rfl rfl

end Successes

namespace Query

theorem exists_leaf_of_leaves {α : Type} {r : Result α} {input : String} {entries : List α}
    (h : (r.leaves.map fun leaf => (leaf.input, leaf.entries)) = [(input, entries)]) :
    ∃ leaf ∈ r.leaves, leaf.input = input ∧ leaf.entries = entries := by
  have hmem : (input, entries) ∈ r.leaves.map fun leaf => (leaf.input, leaf.entries) := by
    rw [h]
    exact List.mem_cons_self
  obtain ⟨leaf, hleaf, heq⟩ := List.mem_map.mp hmem
  exact ⟨leaf, hleaf, congrArg Prod.fst heq, congrArg Prod.snd heq⟩

variable {σ : Type} [DieSource σ] {evaluator : Evaluator} {query : String} {mode : Scoring} {tray tray' : Tray σ}
  {r : Result Roll}

/-- In a leaf without Fate dice, the lines of a mode that counts successes emphasise each face that adds to the total
and is not above ten, and no other face. The total is the number of these faces and of those above ten, of which
there are none on dice with no more than ten sides, and in the Scion mode also of the tens. -/
theorem answer_emphasized (hmode : mode = .whiteWolf ∨ mode = .scion)
    (h : answer evaluator query mode tray = (.ok r, tray')) :
    (∀ markup display, Responder.answer ⟨markup, display, evaluator⟩ query mode tray =
      (.ok (r.map (Roll.line markup)), tray')) ∧
    ∀ leaf ∈ r.leaves, hasFateMarker leaf.input.toList = false → ∀ roll ∈ leaf.entries,
      (∀ markup : Markup, roll.line markup = roll.pool.text ++ ": " ++
        " ".intercalate (roll.faces.map fun face =>
          if 0 < mode.score face ∧ face ≤ 10 then markup.emphasize (Nat.repr face) else Nat.repr face) ++
          " = " ++ intText roll.total) ∧
      roll.total = ((roll.faces.countP (fun face => 0 < mode.score face ∧ face ≤ 10) +
        roll.faces.countP (10 < ·) + if mode = .scion then roll.faces.count 10 else 0 : Nat) : Int) ∧
      (LawfulDieSource σ → roll.pool.sides ≤ 10 → roll.faces.countP (10 < ·) = 0) := by
  constructor
  · intro markup display
    rw [Responder.answer, h]
    rfl
  · intro leaf hleaf hfate roll hroll
    obtain ⟨p, s, s', hp⟩ := rolled_of_answer h leaf hleaf roll hroll
    have hrolled : roll.mode = mode := by
      rw [(Pool.roll?_eq_some hp).2.1, rolledMode, if_neg (by simp [hfate])]
    refine ⟨?_, ?_, ?_⟩
    · intro markup
      rw [Roll.line, hrolled, List.map_congr_left fun face _ => Roll.faceText_eq hmode markup]
    · rw [Roll.total_eq_sum, hrolled, Scoring.sum_score hmode]
      rw [List.countP_congr fun face _ => (Scoring.highlights_iff hmode).trans decide_eq_true_iff.symm]
    · intro hlawful hsides
      refine List.countP_eq_zero.mpr ?_
      intro face hface
      have hrange := Pool.mem_range_of_roll? hp face hface
      simp only [decide_eq_true_eq]
      omega

/-- Of three faces on dice with twenty sides the first is not emphasised, and the ten counts twice. -/
theorem answer_emphasized_three_dice :
    ∃ r after, answer evaluate "3d20" .scion (.ofDice (Script.ofList [15, 10, 7])) = (.ok r, after) ∧
      ∃ leaf ∈ r.leaves, ∃ roll ∈ leaf.entries,
        roll.line .stars = "3d20: 15 *10* *7* = 4" ∧ roll.total = ((2 + 1 + 1 : Nat) : Int) := by
  have hentries : ((answer evaluate "3d20" .scion (.ofDice (Script.ofList [15, 10, 7]))).1.toOption.map
      fun r => r.leaves.map fun leaf => (leaf.input, leaf.entries)) =
        some [("3d20", [⟨⟨3, 20⟩, .scion, [15, 10, 7]⟩])] := by
    decide +kernel
  obtain ⟨r, after, h, hleaves⟩ := exists_of_map_toOption hentries
  obtain ⟨leaf, hleaf, hinput, hrolls⟩ := exists_leaf_of_leaves hleaves
  have hfate : hasFateMarker leaf.input.toList = false := by
    rw [hinput]
    decide
  obtain ⟨hline, htotal, -⟩ := (answer_emphasized (.inr rfl) h).2 leaf hleaf hfate ⟨⟨3, 20⟩, .scion, [15, 10, 7]⟩
    (by rw [hrolls]; exact List.mem_cons_self)
  exact ⟨r, after, h, leaf, hleaf, _, by rw [hrolls]; exact List.mem_cons_self, hline .stars, htotal⟩

/-- A face above ten adds to the total and is not emphasised. -/
theorem answer_not_emphasized_fifteen :
    ∃ r after, answer evaluate "1d20" .whiteWolf (.ofDice (Script.ofList [15])) = (.ok r, after) ∧
      ∃ leaf ∈ r.leaves, hasFateMarker leaf.input.toList = false ∧ ∃ roll ∈ leaf.entries,
        roll.line .stars = "1d20: 15 = 1" ∧
        (∃ face ∈ roll.faces, 0 < Scoring.whiteWolf.score face ∧
          Roll.faceText .stars .whiteWolf face ≠ Markup.stars.emphasize (Nat.repr face)) ∧
        roll.total ≠ roll.faces.countP Scoring.whiteWolf.highlights := by
  have hentries : ((answer evaluate "1d20" .whiteWolf (.ofDice (Script.ofList [15]))).1.toOption.map
      fun r => r.leaves.map fun leaf => (leaf.input, leaf.entries)) =
        some [("1d20", [⟨⟨1, 20⟩, .whiteWolf, [15]⟩])] := by
    decide +kernel
  obtain ⟨r, after, h, hleaves⟩ := exists_of_map_toOption hentries
  obtain ⟨leaf, hleaf, hinput, hrolls⟩ := exists_leaf_of_leaves hleaves
  refine ⟨r, after, h, leaf, hleaf, ?_, ⟨⟨1, 20⟩, .whiteWolf, [15]⟩, ?_, ?_, ?_, ?_⟩
  · rw [hinput]
    decide
  · rw [hrolls]
    exact List.mem_cons_self
  · decide +kernel
  · exact ⟨15, List.mem_cons_self, by decide, by decide +kernel⟩
  · decide

end Query

end Tabletop

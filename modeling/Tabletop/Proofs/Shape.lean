import Tabletop.Proofs.Answering

/-!
The shape of a result. A result is a tree whose inner nodes are repetitions. How it branches, what its nodes
repeat of the query and how many entries they have is fixed by the query, whatever dice are rolled, in
whatever mode, and whatever they are worth. Main statement: the nodes of a tree level by level, in
particular those on the last level that is answered.
-/

namespace Tabletop

namespace Result

variable {α : Type}

/-- The nodes that stand `i` levels below the root. -/
def nodesAt : Nat → Result α → List (Result α)
  | 0, r => [r]
  | i + 1, r => (r.parts?.getD []).flatMap (nodesAt i)

mutual

/-- A result without its numbers: totals are dropped, and of the entries only their number is kept. -/
def outline : Result α → Result Unit
  | leaf input _ entries => leaf input 0 (List.replicate entries.length ())
  | repeated input _ entries parts =>
    repeated input 0 (List.replicate entries.length ()) (outlineAll parts)

def outlineAll : List (Result α) → List (Result Unit)
  | [] => []
  | r :: rs => outline r :: outlineAll rs

end

theorem outlineAll_eq (rs : List (Result α)) : outlineAll rs = rs.map outline := by
  induction rs with
  | nil => rfl
  | cons r rs ih => rw [outlineAll, ih, List.map_cons]

end Result

namespace Query

variable {levels times i : Nat} {cs inner : List Char} {r : Result Roll}

/-- The number of entries of a leaf: one for each pool of a query that is worth reading. -/
def entryCount (cs : List Char) : Nat := if isWorthReading cs then (leafPools cs).length else 0

/-- The results that a query may have in which repetitions are read `levels` deep. -/
inductive Shaped : Nat → List Char → Result Roll → Prop
  | leaf {levels : Nat} {cs : List Char} {total : Float} {entries : List Roll} :
      splitRepetition? cs = none → entries.length = entryCount cs →
        Shaped levels cs (.leaf (String.ofList cs) total entries)
  | cut {times : Nat} {cs inner : List Char} :
      splitRepetition? cs = some (times, inner) → Shaped 0 cs (.empty (String.ofList cs))
  | repeated {levels times : Nat} {cs inner : List Char} {parts : List (Result Roll)} :
      splitRepetition? cs = some (times, inner) → parts.length = times →
        (∀ part ∈ parts, Shaped levels inner part) →
          Shaped (levels + 1) cs (.repeated (String.ofList cs) (sumTotals parts) [] parts)

section Answered

variable {σ : Type} [DieSource σ] {evaluator : Arithmetic.Evaluator} {mode : Scoring}
  {tray tray' : Tray σ}

theorem shaped_of_none (hcs : splitRepetition? cs = none)
    (h : answerWithin evaluator levels cs mode tray = (.ok r, tray')) : Shaped levels cs r := by
  rw [answerWithin_of_none hcs] at h
  split at h
  · next hworth =>
    obtain ⟨hinput, hparts, -, tray₁, hrolls, -⟩ := answerTerms_eq_ok h
    cases r with
    | repeated => cases hparts
    | leaf input total entries =>
      cases hinput
      apply Shaped.leaf hcs
      rw [entryCount, if_pos hworth]
      exact Tray.length_of_rollAll hrolls
  · next hworth =>
    cases h
    apply Shaped.leaf hcs
    rw [entryCount, if_neg hworth]
    rfl

/-- Every result has the shape that its query prescribes. -/
theorem shaped_of_answerWithin (h : answerWithin evaluator levels cs mode tray = (.ok r, tray')) :
    Shaped levels cs r := by
  induction levels generalizing cs r tray tray' with
  | zero =>
    cases hcs : splitRepetition? cs with
    | none => exact shaped_of_none hcs h
    | some split =>
      rw [answerWithin_zero_of_some hcs] at h
      cases h
      exact .cut hcs
  | succ levels ih =>
    cases hcs : splitRepetition? cs with
    | none => exact shaped_of_none hcs h
    | some split =>
      obtain ⟨times, inner⟩ := split
      rw [answerWithin_succ_of_some hcs] at h
      split at h
      · cases h
      · next parts tray₁ hrepeat =>
        cases h
        obtain ⟨parts, rfl, hlength, hanswers⟩ := answers_of_repeatAnswer hrepeat
        refine .repeated hcs hlength (hanswers.forall ?_)
        intro tray r tray' hr
        exact ih hr

end Answered

/-- The outline that all results of a query share. -/
def queryOutline : Nat → List Char → Result Unit
  | levels, cs =>
    match splitRepetition? cs with
    | none => .leaf (String.ofList cs) 0 (List.replicate (entryCount cs) ())
    | some (times, inner) =>
      match levels with
      | 0 => .empty (String.ofList cs)
      | levels + 1 => .repeated (String.ofList cs) 0 [] (List.replicate times (queryOutline levels inner))

theorem Shaped.outline_eq (h : Shaped levels cs r) : r.outline = queryOutline levels cs := by
  induction h with
  | leaf hcs hlength =>
    rw [queryOutline]
    simp only [hcs, Result.outline, hlength]
  | cut hcs =>
    rw [queryOutline]
    simp only [hcs]
    rfl
  | @repeated levels times cs inner parts hcs hlength _ ih =>
    rw [queryOutline]
    simp only [hcs, Result.outline, Result.outlineAll_eq]
    rw [List.map_congr_left ih, List.map_const', hlength]
    rfl

theorem Shaped.input_eq (h : Shaped levels cs r) : r.input = String.ofList cs := by cases h <;> rfl

/-- Each level of a tree of results has the shapes of the query behind one mark more. -/
theorem Shaped.of_mem_nodesAt {node : Result Roll} (h : Shaped levels cs r) (hnode : node ∈ r.nodesAt i) :
    i ≤ levels ∧ i ≤ (counts cs).length ∧ Shaped (levels - i) (behind i cs) node := by
  induction i generalizing levels cs r with
  | zero =>
    rw [List.mem_singleton.mp hnode]
    exact ⟨Nat.zero_le _, Nat.zero_le _, h⟩
  | succ i ih =>
    cases h with
    | leaf => cases hnode
    | cut => cases hnode
    | @repeated levels times cs inner parts hcs hlength hparts =>
      obtain ⟨part, hpart, hnode⟩ := List.mem_flatMap.mp hnode
      obtain ⟨hlevels, hmarks, hshaped⟩ := ih (hparts part hpart) hnode
      rw [counts_of_some hcs, List.length_cons, behind_of_some hcs, Nat.add_sub_add_right]
      exact ⟨Nat.succ_le_succ hlevels, Nat.succ_le_succ hmarks, hshaped⟩

theorem Shaped.of_none (h : Shaped levels cs r) (hcs : splitRepetition? cs = none) :
    r.parts? = none ∧ r.entries.length = entryCount cs := by
  cases h with
  | leaf _ hlength => exact ⟨rfl, hlength⟩
  | cut hsome => simp [hcs] at hsome
  | repeated hsome => simp [hcs] at hsome

theorem Shaped.of_zero (h : Shaped 0 cs r) (hcs : splitRepetition? cs ≠ none) :
    r = .empty (String.ofList cs) := by
  cases h with
  | leaf hnone => exact absurd hnone hcs
  | cut => rfl

theorem Shaped.of_some (h : Shaped (levels + 1) cs r) (hcs : splitRepetition? cs = some (times, inner)) :
    r.entries = [] ∧
      ∃ parts, r.parts? = some parts ∧ parts.length = times ∧ r.total = sumTotals parts := by
  cases h with
  | leaf hnone => simp [hcs] at hnone
  | @repeated _ _ _ _ parts hsome hlength _ =>
    rw [hcs] at hsome
    cases hsome
    exact ⟨rfl, parts, rfl, hlength, rfl⟩

section Answered

variable {σ : Type} [DieSource σ] {evaluator : Arithmetic.Evaluator} {query : String} {mode : Scoring}
  {tray tray' : Tray σ}

/-- The tree of a result, level by level. Down to the last mark that is read its nodes are repetitions, each
of what is behind one mark more and as many as the count before it says; on the last level are either the
leaves with their entries or, if there are too many marks, nodes that are not answered. All results of a
query have the same outline, and so have all nodes on one level. -/
theorem nodes_of_answer (h : answer evaluator query mode tray = (.ok r, tray')) :
    (∀ i < min (query.toList.countP isRepetitionMark) 16, ∀ node ∈ r.nodesAt i,
      node.input = String.ofList (behind i query.toList) ∧ node.entries = [] ∧
        ∃ parts, node.parts? = some parts ∧ (counts query.toList)[i]? = some parts.length ∧
          node.total = parts.foldl (fun sum part => sum + part.total) 0) ∧
    (query.toList.countP isRepetitionMark ≤ 16 →
      ∀ node ∈ r.nodesAt (query.toList.countP isRepetitionMark),
        node.input = String.ofList (lastSegment query.toList) ∧ node.parts? = none ∧
          node.entries.length = entryCount (lastSegment query.toList)) ∧
    (16 < query.toList.countP isRepetitionMark →
      ∀ node ∈ r.nodesAt 16, node = .empty (String.ofList (behind 16 query.toList))) ∧
    (∀ i, ∀ node ∈ r.nodesAt i, ∀ node' ∈ r.nodesAt i, node.outline = node'.outline) ∧
    ∀ {σ' : Type} [DieSource σ'] (evaluator' : Arithmetic.Evaluator) (mode' : Scoring)
      (tray₁ tray₂ : Tray σ') (r' : Result Roll),
        answer evaluator' query mode' tray₁ = (.ok r', tray₂) → r'.outline = r.outline := by
  have hshaped : Shaped 16 query.toList r := shaped_of_answerWithin h
  rw [← length_counts]
  refine ⟨?_, ?_, ?_, ?_, ?_⟩
  · intro i hi node hnode
    obtain ⟨-, -, hlevel⟩ := hshaped.of_mem_nodesAt hnode
    obtain ⟨⟨times, inner⟩, hsome⟩ := Option.ne_none_iff_exists'.mp
      (mt splitRepetition?_behind_eq_none_iff.mp (by omega : ¬(counts query.toList).length ≤ i))
    -- A level is left to go down, since `i` is less than all of them.
    obtain ⟨j, hj⟩ : ∃ j, 16 - i = j + 1 := ⟨15 - i, by omega⟩
    rw [hj] at hlevel
    obtain ⟨hentries, parts, hparts, hlength, htotal⟩ := hlevel.of_some hsome
    have hcount : (counts query.toList)[i]? = some parts.length := by
      have hdrop := @List.getElem?_drop _ (counts query.toList) i 0
      rw [← counts_behind, counts_of_some hsome, List.getElem?_cons_zero, Nat.add_zero] at hdrop
      rw [← hdrop, hlength]
    exact ⟨hlevel.input_eq, hentries, parts, hparts, hcount, htotal⟩
  · intro _ node hnode
    obtain ⟨-, -, hlevel⟩ := hshaped.of_mem_nodesAt hnode
    rw [behind_eq_lastSegment le_rfl] at hlevel
    obtain ⟨hparts, hentries⟩ := hlevel.of_none (splitRepetition?_lastSegment _)
    exact ⟨hlevel.input_eq, hparts, hentries⟩
  · intro hmarks node hnode
    obtain ⟨-, -, hlevel⟩ := hshaped.of_mem_nodesAt hnode
    exact hlevel.of_zero (mt splitRepetition?_behind_eq_none_iff.mp (Nat.not_le.mpr hmarks))
  · intro i node hnode node' hnode'
    obtain ⟨-, -, hlevel⟩ := hshaped.of_mem_nodesAt hnode
    obtain ⟨-, -, hlevel'⟩ := hshaped.of_mem_nodesAt hnode'
    rw [hlevel.outline_eq, hlevel'.outline_eq]
  · intro σ' _ evaluator' mode' tray₁ tray₂ r' h'
    rw [(shaped_of_answerWithin h').outline_eq, hshaped.outline_eq]
    rfl

/-- Two leaves with one pool each. -/
theorem nodes_of_answer_two_dice :
    ∃ r after, answer (fun _ => .ok 0) "2x1d6" .sum (.ofDice (Script.ofList [9, 3])) = (.ok r, after) ∧
      (∃ parts, r.parts? = some parts ∧ parts.length = 2) ∧
        ∀ node ∈ r.nodesAt 1, node.input = "1d6" ∧ node.parts? = none ∧ node.entries.length = 1 := by
  have hok : (answer (fun _ => .ok 0) "2x1d6" .sum
      (.ofDice (Script.ofList [9, 3]))).1.toOption.isSome = true := by decide +kernel
  obtain ⟨r, after, h⟩ := exists_of_isSome hok
  obtain ⟨hinner, hlast, -⟩ := nodes_of_answer h
  obtain ⟨-, -, parts, hparts, hlength, -⟩ := hinner 0 (by decide) r List.mem_cons_self
  have hinput : String.ofList (lastSegment "2x1d6".toList) = "1d6" := by decide +kernel
  have hcount : entryCount (lastSegment "2x1d6".toList) = 1 := by decide +kernel
  refine ⟨r, after, h, ⟨parts, hparts, (Option.some.inj hlength).symm⟩, ?_⟩
  intro node hnode
  obtain ⟨hnodeInput, hnodeParts, hentries⟩ := hlast (by decide) node hnode
  exact ⟨hnodeInput.trans hinput, hnodeParts, hentries.trans hcount⟩

end Answered

end Query

end Tabletop

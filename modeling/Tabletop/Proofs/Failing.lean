import Tabletop.Proofs.Answering
import Mathlib.Algebra.BigOperators.Ring.List

/-!
When an answer fails. A query all of whose marks are read comes to copies of its last segment: the pools of one
copy after the other are rolled, and each copy leaves a text. Main statement: an answer fails iff one of these
texts has no value, and then with the fault of the first of them; behind that copy nothing is rolled and nothing
evaluated. Where no copy has pools an answer cannot fail.
-/

namespace Tabletop.Query

variable {σ : Type} [DieSource σ] {evaluator : Arithmetic.Evaluator} {cs : List Char} {mode : Scoring}
  {tray tray₁ tray' : Tray σ} {rolls : List Roll} {copies more : List (List Roll)}
  {leaves : List (Result Roll)} {r : Result Roll}

/-- The pools of a query are rolled for one copy after the other. -/
inductive Copies (cs : List Char) (mode : Scoring) : Tray σ → List (List Roll) → Tray σ → Prop
  | nil (tray : Tray σ) : Copies cs mode tray [] tray
  | cons {tray tray₁ tray' : Tray σ} {rolls : List Roll} {copies : List (List Roll)} :
      tray.rollAll (rolledMode cs mode) (leafPools cs) = (.ok rolls, tray₁) →
        Copies cs mode tray₁ copies tray' → Copies cs mode tray (rolls :: copies) tray'

theorem Copies.concat (h : Copies cs mode tray copies tray₁)
    (hrolls : tray₁.rollAll (rolledMode cs mode) (leafPools cs) = (.ok rolls, tray')) :
    Copies cs mode tray (copies ++ [rolls]) tray' := by
  induction h with
  | nil tray => exact .cons hrolls (.nil tray')
  | cons hr _ ih => exact .cons hr (ih hrolls)

/-- The dice decide what is rolled for a copy, and not how many copies there are. -/
theorem Copies.isPrefix {tray'' : Tray σ} (h : Copies cs mode tray copies tray')
    (h' : Copies cs mode tray more tray'') (hle : copies.length ≤ more.length) : copies <+: more := by
  induction h generalizing more with
  | nil tray => exact List.nil_prefix
  | cons hr _ ih =>
    cases h' with
    | nil => cases hle
    | cons hr' hmore =>
      rw [hr, Prod.mk.injEq, Except.ok.injEq] at hr'
      obtain ⟨rfl, rfl⟩ := hr'
      exact List.cons_prefix_cons.mpr ⟨rfl, ih hmore (Nat.le_of_succ_le_succ hle)⟩

/-- Leaves that have pools are copies, and all of their texts have values and were evaluated. -/
theorem copies_of_answers (hcs : splitRepetition? cs = none) (hpools : leafPools cs ≠ [])
    {texts : List String}
    (h : Answers (answerWithin evaluator 0 cs mode) (tray.withTexts texts) leaves tray') :
    (∀ leaf ∈ leaves, ∃ x, evaluator (leafText cs leaf.entries) = .ok x) ∧
      ∃ tray₁, Copies cs mode tray (leaves.map Result.entries) tray₁ ∧
        tray' = tray₁.withTexts (texts ++ leaves.map fun leaf => leafText cs leaf.entries) := by
  have hworth := isWorthReading_of_leafPools_ne_nil hpools
  induction leaves generalizing tray texts with
  | nil =>
    cases h
    exact ⟨List.forall_mem_nil _, tray, .nil tray, by rw [List.map_nil, List.append_nil]⟩
  | cons leaf leaves ih =>
    cases h with
    | cons hleaf hleaves =>
      obtain ⟨hvalue, tray₁, hrolls, rfl⟩ := leaf_eq_ok hcs hleaf
      obtain ⟨tray₂, hrolls', rfl⟩ := Tray.rollAll_of_withTexts hrolls
      rw [if_pos hworth, Tray.withTexts_withTexts] at hleaves
      obtain ⟨hvalues, tray₃, hcopies, rfl⟩ := ih hleaves
      refine ⟨List.forall_mem_cons.mpr ⟨hvalue hpools, hvalues⟩, tray₃, .cons hrolls' hcopies, ?_⟩
      rw [List.append_assoc, List.map_cons, List.singleton_append]

/-- Whether a leaf has a text evaluated: if its query is worth reading and was not cut off, which leaves marks
in it. -/
def isEvaluated (leaf : Result Roll) : Bool :=
  isWorthReading leaf.input.toList && leaf.input.toList.all (!isRepetitionMark ·)

/-- The text of a leaf that has one evaluated. -/
def resultText (leaf : Result Roll) : String := leafText leaf.input.toList leaf.entries

theorem evaluated_of_leaf (h : answerWithin evaluator 0 cs mode tray = (.ok r, tray')) :
    tray'.evaluated = tray.evaluated ++ ([r].filter isEvaluated).map resultText := by
  have hinput : r.input.toList = cs := by
    rw [(answerWithin_zero_eq_ok h).1, String.toList_ofList]
  cases hcs : splitRepetition? cs with
  | some split =>
    have hmark : cs.all (!isRepetitionMark ·) = false := by
      apply Bool.eq_false_iff.mpr
      intro hall
      rw [splitRepetition?_eq_none_iff.mpr (by simpa using hall)] at hcs
      cases hcs
    rw [answerWithin_zero_of_some hcs] at h
    cases h
    simp [isEvaluated, hinput, hmark]
  | none =>
    have hmarks : cs.all (!isRepetitionMark ·) = true := by
      simpa using splitRepetition?_eq_none_iff.mp hcs
    obtain ⟨-, tray₁, hrolls, rfl⟩ := leaf_eq_ok hcs h
    rw [Tray.evaluated_withTexts, Tray.evaluated_of_rollAll hrolls]
    cases hworth : isWorthReading cs <;> simp [isEvaluated, resultText, hinput, hmarks, hworth]

theorem evaluated_of_answers (h : Answers (answerWithin evaluator 0 cs mode) tray leaves tray') :
    tray'.evaluated = tray.evaluated ++ (leaves.filter isEvaluated).map resultText := by
  induction h with
  | nil tray => simp
  | @cons tray tray₁ tray' r leaves hr _ ih =>
    have hfilter : (r :: leaves).filter isEvaluated =
        [r].filter isEvaluated ++ leaves.filter isEvaluated := List.filter_append [r] leaves
    rw [ih, evaluated_of_leaf hr, hfilter, List.map_append]
    exact Array.ext' (by simp)

variable {query : String} {e : Failure} {after : Tray σ}

/-- What is known of an answer that fails in its arithmetic. -/
theorem copies_of_answer_error {a : Arithmetic.Error}
    (h : answer evaluator query mode tray = (.error (.arithmetic a), after)) :
    leafPools (lastSegment query.toList) ≠ [] ∧
      ∃ earlier last tray₁, earlier.length < (counts query.toList).prod ∧
        Copies (lastSegment query.toList) mode tray (earlier ++ [last]) tray₁ ∧
          (∀ rolls ∈ earlier, ∃ x, evaluator (leafText (lastSegment query.toList) rolls) = .ok x) ∧
            evaluator (leafText (lastSegment query.toList) last) = .error a ∧
              after = tray₁.withTexts ((earlier ++ [last]).map (leafText (lastSegment query.toList))) := by
  obtain ⟨-, leaves, tray₀, hlength, hleaves, hterms⟩ := answer_eq_error h
  rcases answerTerms_eq_error hterms with hrolls | ⟨hpools, last, tray₂, b, hrolls, hvalue, hb, rfl⟩
  · obtain ⟨p, hp⟩ := Tray.rollAll_eq_error hrolls
    cases hp
  · cases hb
    rw [← Tray.withTexts_nil tray] at hleaves
    obtain ⟨hvalues, tray₁, hcopies, rfl⟩ :=
      copies_of_answers (splitRepetition?_lastSegment _) hpools hleaves
    obtain ⟨tray₃, hlast, rfl⟩ := Tray.rollAll_of_withTexts hrolls
    refine ⟨hpools, leaves.map Result.entries, last, tray₃, ?_, hcopies.concat hlast, ?_, hvalue, ?_⟩
    · rwa [List.length_map]
    · intro rolls hmem
      obtain ⟨leaf, hleaf, rfl⟩ := List.mem_map.mp hmem
      exact hvalues leaf hleaf
    · simp [Function.comp_def]

/-- A copy whose text has no value makes the answer fail. -/
theorem answer_ne_ok_of_copies {earlier : List (List Roll)} {last : List Roll} {a : Arithmetic.Error}
    (hmarks : query.toList.countP isRepetitionMark ≤ maxRepetitions)
    (hpools : leafPools (lastSegment query.toList) ≠ [])
    (hlength : earlier.length < (counts query.toList).prod)
    (hcopies : Copies (lastSegment query.toList) mode tray (earlier ++ [last]) tray₁)
    (hvalue : evaluator (leafText (lastSegment query.toList) last) = .error a) :
    answer evaluator query mode tray ≠ (.ok r, after) := by
  intro h
  obtain ⟨hbehind, hcounts⟩ := behind_maxRepetitions hmarks
  obtain ⟨hleaves, hanswers⟩ := answers_of_answerWithin h
  rw [hcounts] at hleaves
  rw [hbehind, ← Tray.withTexts_nil tray] at hanswers
  obtain ⟨hvalues, tray₂, hall, -⟩ :=
    copies_of_answers (splitRepetition?_lastSegment _) hpools hanswers
  have hprefix : earlier ++ [last] <+: r.leaves.map Result.entries := by
    apply hcopies.isPrefix hall
    rwa [List.length_append, List.length_singleton, List.length_map, hleaves]
  have hmem : last ∈ r.leaves.map Result.entries := hprefix.subset (by simp)
  obtain ⟨leaf, hleaf, rfl⟩ := List.mem_map.mp hmem
  obtain ⟨x, hx⟩ := hvalues leaf hleaf
  rw [hx] at hvalue
  cases hvalue

theorem one_le_of_lt_prod {ns : List Nat} {k : Nat} (h : k < ns.prod) : ∀ n ∈ ns, 1 ≤ n := by
  intro n hn
  rcases Nat.eq_zero_or_pos n with rfl | hpos
  · exact absurd (List.prod_eq_zero hn) (Nat.ne_zero_of_lt h)
  · exact hpos

/-- What every failure needs, whatever is evaluated to what: pools, and marks that ask for them. -/
theorem pools_of_answer_error (h : answer evaluator query mode tray = (.error e, after)) :
    query.toList.countP isRepetitionMark ≤ 16 ∧ (∀ n ∈ counts query.toList, 1 ≤ n) ∧
      isWorthReading (lastSegment query.toList) = true ∧ leafPools (lastSegment query.toList) ≠ [] := by
  obtain ⟨hmarks, leaves, tray₁, hlength, -, hterms⟩ := answer_eq_error h
  have hpools : leafPools (lastSegment query.toList) ≠ [] := by
    intro hnil
    rcases answerTerms_eq_error hterms with hrolls | ⟨hpools, -⟩
    · rw [hnil] at hrolls
      cases hrolls
    · exact hpools hnil
  exact ⟨hmarks, one_le_of_lt_prod hlength, isWorthReading_of_leafPools_ne_nil hpools, hpools⟩

/-- An answer whose rolls end fails iff all marks of the query are read, every count asks for a copy, the last
segment has pools, and some copy leaves a text without a value. The failure is the fault of the first such text,
and the tray is the one on which the copies up to this one were rolled and their texts evaluated. Without
pools, without copies and with too many marks there is an answer whatever the evaluator says. An answer has
evaluated the texts of its leaves, each once, and no others. -/
theorem answer_error_iff (evaluator : Arithmetic.Evaluator) (query : String) (mode : Scoring)
    (tray : Tray σ) (hends : ∀ p after, answer evaluator query mode tray ≠ (.error (.endless p), after)) :
    ((∃ e after, answer evaluator query mode tray = (.error e, after)) ↔
      query.toList.countP isRepetitionMark ≤ 16 ∧ (∀ n ∈ counts query.toList, 1 ≤ n) ∧
        leafPools (lastSegment query.toList) ≠ [] ∧
          ∃ earlier last tray₁ a, earlier.length < (counts query.toList).prod ∧
            Copies (lastSegment query.toList) mode tray (earlier ++ [last]) tray₁ ∧
              evaluator (leafText (lastSegment query.toList) last) = .error a) ∧
    (∀ e after, answer evaluator query mode tray = (.error e, after) →
      ∃ earlier last tray₁ a, e = .arithmetic a ∧ earlier.length < (counts query.toList).prod ∧
        Copies (lastSegment query.toList) mode tray (earlier ++ [last]) tray₁ ∧
          (∀ rolls ∈ earlier, ∃ x, evaluator (leafText (lastSegment query.toList) rolls) = .ok x) ∧
            evaluator (leafText (lastSegment query.toList) last) = .error a ∧
              after = tray₁.withTexts ((earlier ++ [last]).map (leafText (lastSegment query.toList)))) ∧
    (16 < query.toList.countP isRepetitionMark ∨ (∃ n ∈ counts query.toList, n = 0) ∨
        isWorthReading (lastSegment query.toList) = false ∨ leafPools (lastSegment query.toList) = [] →
      ∀ evaluator', ∃ r after, answer evaluator' query mode tray = (.ok r, after)) ∧
    ∀ r after, answer evaluator query mode tray = (.ok r, after) →
      after.evaluated = tray.evaluated ++ (r.leaves.filter isEvaluated).map resultText := by
  have hfirst : ∀ e after, answer evaluator query mode tray = (.error e, after) →
      ∃ a, e = .arithmetic a := by
    intro e after h
    obtain ⟨-, leaves, tray₁, -, -, hterms⟩ := answer_eq_error h
    rcases answerTerms_eq_error hterms with hrolls | ⟨-, -, -, a, -, -, ha, -⟩
    · obtain ⟨p, rfl⟩ := Tray.rollAll_eq_error hrolls
      exact absurd h (hends p after)
    · exact ⟨a, ha⟩
  refine ⟨⟨?_, ?_⟩, ?_, ?_, ?_⟩
  · rintro ⟨e, after, h⟩
    obtain ⟨hmarks, hcounts, -, hpools⟩ := pools_of_answer_error h
    obtain ⟨a, rfl⟩ := hfirst e after h
    obtain ⟨-, earlier, last, tray₁, hlength, hcopies, -, hvalue, -⟩ := copies_of_answer_error h
    exact ⟨hmarks, hcounts, hpools, earlier, last, tray₁, a, hlength, hcopies, hvalue⟩
  · rintro ⟨hmarks, -, hpools, earlier, last, tray₁, a, hlength, hcopies, hvalue⟩
    cases h : answer evaluator query mode tray with
    | mk outcome after =>
      cases outcome with
      | error e => exact ⟨e, after, rfl⟩
      | ok r => exact absurd h (answer_ne_ok_of_copies hmarks hpools hlength hcopies hvalue)
  · intro e after h
    obtain ⟨a, rfl⟩ := hfirst e after h
    obtain ⟨-, earlier, last, tray₁, hcopies⟩ := copies_of_answer_error h
    exact ⟨earlier, last, tray₁, a, rfl, hcopies⟩
  · intro hnone evaluator'
    cases h : answer evaluator' query mode tray with
    | mk outcome after =>
      cases outcome with
      | ok r => exact ⟨r, after, rfl⟩
      | error e =>
        obtain ⟨hmarks, hcounts, hworth, hpools⟩ := pools_of_answer_error h
        rcases hnone with hmany | ⟨n, hn, rfl⟩ | hworthless | hnil
        · omega
        · exact absurd (hcounts 0 hn) (by decide)
        · rw [hworth] at hworthless
          cases hworthless
        · exact absurd hnil hpools
  · intro r after h
    exact evaluated_of_answers (answers_of_answerWithin h).2

/-- The second of three copies leaves the text that has no value. -/
theorem answer_error_second_copy :
    ∃ evaluator : Arithmetic.Evaluator, ∃ a after,
      answer evaluator "3x1d6" .sum (.ofDice (Script.ofList [3, 1, 2])) = (.error (.arithmetic a), after) ∧
        ∃ earlier last tray₁, earlier.length < 3 ∧
          Copies ['1', 'd', '6'] .sum (.ofDice (Script.ofList [3, 1, 2])) (earlier ++ [last]) tray₁ ∧
            evaluator (leafText ['1', 'd', '6'] last) = .error a ∧
              after = tray₁.withTexts ((earlier ++ [last]).map (leafText ['1', 'd', '6'])) := by
  let evaluator : Arithmetic.Evaluator := fun text => if text = "1" then .error ⟨.empty, none⟩ else .ok 0
  have hfailure : (match (answer evaluator "3x1d6" .sum (.ofDice (Script.ofList [3, 1, 2]))).1 with
      | .ok _ => none
      | .error e => some e) = some (.arithmetic ⟨.empty, none⟩) := by decide +kernel
  cases h : answer evaluator "3x1d6" .sum (.ofDice (Script.ofList [3, 1, 2])) with
  | mk outcome after =>
    rw [h] at hfailure
    cases outcome with
    | ok r => cases hfailure
    | error e =>
      cases hfailure
      have hends : ∀ p after, answer evaluator "3x1d6" .sum (.ofDice (Script.ofList [3, 1, 2])) ≠
          (.error (.endless p), after) := by simp [h]
      have hsegment : lastSegment "3x1d6".toList = ['1', 'd', '6'] := by decide +kernel
      have hproduct : (counts "3x1d6".toList).prod = 3 := by decide +kernel
      obtain ⟨earlier, last, tray₁, a, ha, hlength, hcopies, -, hvalue, hafter⟩ :=
        (answer_error_iff evaluator "3x1d6" .sum _ hends).2.1 _ after h
      cases ha
      rw [hproduct] at hlength
      rw [hsegment] at hcopies hvalue hafter
      exact ⟨evaluator, _, after, h, earlier, last, tray₁, hlength, hcopies, hvalue, hafter⟩

end Tabletop.Query

import Tabletop.Proofs.Rolling
import Tabletop.Proofs.Segments
import Tabletop.Proofs.Terms
import Tabletop.Query.Answer
import Mathlib.Algebra.GroupWithZero.Nat

/-!
What an answer does. Repetitions inside each other come to one repetition of the innermost query: the leaves
of a result are its answers one after the other, each given on the tray that the one before left. An answer
to a query without a mark rolls its pools from left to right and has the text evaluated that their totals
leave.
-/

namespace Tabletop

namespace Result

variable {α : Type}

mutual

/-- The results below a result that are not repetitions, from left to right. -/
def leaves : Result α → List (Result α)
  | leaf input total entries => [leaf input total entries]
  | repeated _ _ _ parts => leavesAll parts

def leavesAll : List (Result α) → List (Result α)
  | [] => []
  | r :: rs => leaves r ++ leavesAll rs

end

theorem leavesAll_eq (rs : List (Result α)) : leavesAll rs = rs.flatMap leaves := by
  induction rs with
  | nil => rfl
  | cons r rs ih => rw [leavesAll, ih, List.flatMap_cons]

@[simp] theorem leaves_repeated (input : String) (total : Float) (entries : List α)
    (parts : List (Result α)) :
    (repeated input total entries parts).leaves = parts.flatMap leaves := by
  rw [leaves, leavesAll_eq]

theorem leaves_of_parts? {r : Result α} (h : r.parts? = none) : r.leaves = [r] := by
  cases r with
  | leaf => rfl
  | repeated => cases h

theorem leafEntries_eq (r : Result α) : r.leafEntries = r.leaves.flatMap entries := by
  induction r with
  | leaf => exact (List.append_nil _).symm
  | repeated input total entries parts ih =>
    rw [leafEntries_repeated, leaves_repeated, List.flatMap_assoc]
    exact List.flatMap_congr ih

end Result

namespace Query

variable {σ : Type}

/-- What has a value has one, and leaves a tray. -/
theorem exists_of_isSome {α ε : Type} {outcome : Except ε α × Tray σ}
    (h : outcome.1.toOption.isSome = true) : ∃ a after, outcome = (.ok a, after) := by
  obtain ⟨value, after⟩ := outcome
  cases value with
  | error e => cases h
  | ok a => exact ⟨a, after, rfl⟩

section Repeated

variable {answer answer' : Tray σ → Except Failure (Result Roll) × Tray σ}
  {tray tray₁ tray₂ tray' : Tray σ} {r : Result Roll} {rs rs' done : List (Result Roll)} {times : Nat}
  {e : Failure}

/-- Answers one after the other, each on the tray that the one before left. -/
inductive Answers (answer : Tray σ → Except Failure (Result Roll) × Tray σ) :
    Tray σ → List (Result Roll) → Tray σ → Prop
  | nil (tray : Tray σ) : Answers answer tray [] tray
  | cons {tray tray₁ tray' : Tray σ} {r : Result Roll} {rs : List (Result Roll)} :
      answer tray = (.ok r, tray₁) → Answers answer tray₁ rs tray' → Answers answer tray (r :: rs) tray'

theorem Answers.append (h : Answers answer tray rs tray₁) (h' : Answers answer tray₁ rs' tray₂) :
    Answers answer tray (rs ++ rs') tray₂ := by
  induction h with
  | nil => exact h'
  | cons hr _ ih => exact .cons hr (ih h')

theorem answers_of_repeatAnswer (h : repeatAnswer answer times done tray = (.ok rs, tray')) :
    ∃ more, rs = done.reverse ++ more ∧ more.length = times ∧ Answers answer tray more tray' := by
  induction times generalizing done tray with
  | zero =>
    cases h
    exact ⟨[], (List.append_nil _).symm, rfl, .nil _⟩
  | succ times ih =>
    rw [repeatAnswer] at h
    split at h
    · cases h
    · next r tray₁ hr =>
      obtain ⟨more, rfl, hlength, hmore⟩ := ih h
      refine ⟨r :: more, ?_, by rw [List.length_cons, hlength], .cons hr hmore⟩
      rw [List.reverse_cons, List.append_assoc, List.singleton_append]

/-- A repetition fails with the first of its answers that does. -/
theorem answers_of_repeatAnswer_error (h : repeatAnswer answer times done tray = (.error e, tray')) :
    ∃ more tray₁, more.length < times ∧ Answers answer tray more tray₁ ∧
      answer tray₁ = (.error e, tray') := by
  induction times generalizing done tray with
  | zero => cases h
  | succ times ih =>
    rw [repeatAnswer] at h
    split at h
    · next e' tray₁ he =>
      cases h
      exact ⟨[], tray, Nat.zero_lt_succ times, .nil tray, he⟩
    · next r tray₁ hr =>
      obtain ⟨more, tray₂, hlength, hmore, hfail⟩ := ih h
      exact ⟨r :: more, tray₂, by rw [List.length_cons]; omega, .cons hr hmore, hfail⟩

theorem Answers.forall {P : Result Roll → Prop} (h : Answers answer tray rs tray')
    (hP : ∀ tray r tray', answer tray = (.ok r, tray') → P r) : ∀ r ∈ rs, P r := by
  induction h with
  | nil => exact List.forall_mem_nil _
  | cons hr _ ih => exact List.forall_mem_cons.mpr ⟨hP _ _ _ hr, ih⟩

/-- Answers that consist of answers, each of the same number `n`, are these one after the other. -/
theorem Answers.flatten {n : Nat} (h : Answers answer tray rs tray')
    (hsteps : ∀ tray r tray', answer tray = (.ok r, tray') →
      r.leaves.length = n ∧ Answers answer' tray r.leaves tray') :
    (rs.flatMap Result.leaves).length = rs.length * n ∧
      Answers answer' tray (rs.flatMap Result.leaves) tray' := by
  induction h with
  | nil tray => exact ⟨(Nat.zero_mul n).symm, .nil tray⟩
  | cons hr _ ih =>
    obtain ⟨hlength, hleaves⟩ := hsteps _ _ _ hr
    obtain ⟨hlength', hmore⟩ := ih
    rw [List.flatMap_cons]
    refine ⟨?_, hleaves.append hmore⟩
    rw [List.length_append, hlength, hlength', List.length_cons, Nat.succ_mul, Nat.add_comm]

end Repeated

/-- The text of a query in which pools are looked for. -/
def rolledText (cs : List Char) : List Char := if hasFateMarker cs then expandFateMarkers cs else cs

/-- The mode in which the pools of a query are rolled. -/
def rolledMode (cs : List Char) (mode : Scoring) : Scoring := if hasFateMarker cs then .fate else mode

theorem effective_eq (cs : List Char) (mode : Scoring) :
    effective cs mode = (rolledText cs, rolledMode cs mode) := by
  unfold effective rolledText rolledMode
  split <;> rfl

/-- The pools of a query without a mark. -/
def leafPools (cs : List Char) : List Pool := pools (pieces (rolledText cs))

/-- What is evaluated when the pools were rolled. -/
def leafText (cs : List Char) (rolls : List Roll) : String :=
  String.ofList (splice (pieces (rolledText cs)) (rolls.map Roll.total))

theorem leafText_nil {cs : List Char} (h : leafPools cs = []) :
    leafText cs [] = String.ofList (rolledText cs) := by
  have hsplice := @splice_append _ [] h []
  rw [List.append_nil, flatMap_chars_pieces, splice, List.append_nil] at hsplice
  rw [leafText, List.map_nil, hsplice]

theorem dieLetter_of_hasFateMarker {cs : List Char} (h : hasFateMarker cs = true) :
    ∃ c ∈ cs, isDieLetter c = true := by
  fun_induction hasFateMarker cs with
  | case1 c c' cs ih =>
    rw [Bool.or_eq_true, Bool.and_eq_true] at h
    rcases h with ⟨hc, -⟩ | h
    · exact ⟨c, List.mem_cons_self, hc⟩
    · obtain ⟨x, hx, hletter⟩ := ih h
      exact ⟨x, List.mem_cons_of_mem c hx, hletter⟩
  | case2 => cases h

theorem isWorthReading_of_leafPools_ne_nil {cs : List Char} (h : leafPools cs ≠ []) :
    isWorthReading cs = true := by
  by_cases hfate : hasFateMarker cs = true
  · exact isWorthReading_of_dieLetter (dieLetter_of_hasFateMarker hfate)
  · rw [leafPools, rolledText, if_neg hfate] at h
    exact isWorthReading_of_pools_ne_nil h

/-- Rolls of a query without a mark: each of its pools once, in order and in the mode of the query. -/
structure RollsOf (cs : List Char) (mode : Scoring) (rolls : List Roll) : Prop where
  pools : rolls.map Roll.pool = (leafPools cs).map Pool.clamped
  modes : ∀ r ∈ rolls, r.mode = rolledMode cs mode
  lengths : rolledMode cs mode ≠ .whiteWolf → ∀ r ∈ rolls, r.faces.length = r.pool.count

theorem rolledMode_ne_whiteWolf {mode : Scoring} (h : mode ≠ .whiteWolf) (cs : List Char) :
    rolledMode cs mode ≠ .whiteWolf := by
  unfold rolledMode
  split
  · decide
  · exact h

/-- Unless faces explode, as many dice are rolled as the pools have within their limits. -/
theorem RollsOf.length_faces {cs : List Char} {mode : Scoring} {rolls : List Roll}
    (h : RollsOf cs mode rolls) (hmode : mode ≠ .whiteWolf) :
    (rolls.flatMap Roll.faces).length = ((leafPools cs).map fun p => p.clamped.count).sum := by
  have hlengths := List.map_congr_left (h.lengths (rolledMode_ne_whiteWolf hmode cs))
  have hcounts := congrArg (List.map Pool.count) h.pools
  rw [List.map_map, List.map_map] at hcounts
  rw [List.length_flatMap, hlengths]
  exact congrArg List.sum hcounts

section Within

variable [DieSource σ] {evaluator : Arithmetic.Evaluator} {levels times : Nat} {cs inner : List Char}
  {mode : Scoring} {tray tray' : Tray σ} {r : Result Roll} {e : Failure}

theorem rollsOf_of_rollAll {rolls : List Roll}
    (h : tray.rollAll (rolledMode cs mode) (leafPools cs) = (.ok rolls, tray')) :
    RollsOf cs mode rolls where
  pools := Tray.pools_of_rollAll h
  modes := Tray.forall_of_rollAll h fun _ _ _ _ hr => (Pool.roll?_eq_some hr).2.1
  lengths hmode := Tray.forall_of_rollAll h fun _ _ _ _ hr => Pool.length_of_roll? hr hmode

/-- When the pools were rolled one text is evaluated. Without pools no value is no failure. -/
theorem answerTerms_of_rollAll {rolls : List Roll} {tray₁ : Tray σ}
    (h : tray.rollAll (rolledMode cs mode) (leafPools cs) = (.ok rolls, tray₁)) :
    answerTerms evaluator cs mode tray =
      (match evaluator (leafText cs rolls) with
        | .ok total => .ok (.leaf (String.ofList cs) total rolls)
        | .error e =>
          if leafPools cs = [] then .ok (.empty (String.ofList cs)) else .error (.arithmetic e),
        { tray₁ with evaluated := tray₁.evaluated.push (leafText cs rolls) }) := by
  simp only [answerTerms, effective_eq, Tray.evaluate]
  cases hpools : leafPools cs with
  | nil =>
    rw [hpools] at h
    cases h
    rw [leafText_nil hpools]
    rw [leafPools] at hpools
    simp only [hpools, if_true]
    cases evaluator (String.ofList (rolledText cs)) <;> rfl
  | cons p ps =>
    rw [hpools] at h
    rw [leafPools] at hpools
    simp only [hpools, h, reduceCtorEq, if_false, leafText]
    cases evaluator _ <;> rfl

theorem answerTerms_of_rollAll_error
    (h : tray.rollAll (rolledMode cs mode) (leafPools cs) = (.error e, tray')) :
    answerTerms evaluator cs mode tray = (.error e, tray') := by
  simp only [answerTerms, effective_eq]
  cases hpools : leafPools cs with
  | nil =>
    rw [hpools] at h
    cases h
  | cons p ps =>
    rw [hpools] at h
    rw [leafPools] at hpools
    simp only [hpools, h]

theorem answerTerms_eq_ok (h : answerTerms evaluator cs mode tray = (.ok r, tray')) :
    r.input = String.ofList cs ∧ r.parts? = none ∧
      (leafPools cs ≠ [] → ∃ x, evaluator (leafText cs r.entries) = .ok x) ∧
        ∃ tray₁, tray.rollAll (rolledMode cs mode) (leafPools cs) = (.ok r.entries, tray₁) ∧
          tray' = tray₁.withTexts [leafText cs r.entries] := by
  cases hrolls : tray.rollAll (rolledMode cs mode) (leafPools cs) with
  | mk outcome tray₁ =>
    cases outcome with
    | error e =>
      rw [answerTerms_of_rollAll_error hrolls] at h
      cases h
    | ok rolls =>
      rw [answerTerms_of_rollAll hrolls, ← Tray.withTexts_singleton] at h
      cases hvalue : evaluator (leafText cs rolls) with
      | ok total =>
        rw [hvalue] at h
        cases h
        exact ⟨rfl, rfl, fun _ => ⟨total, hvalue⟩, tray₁, rfl, rfl⟩
      | error e =>
        simp only [hvalue] at h
        split at h
        · next hpools =>
          cases h
          rw [hpools] at hrolls
          cases hrolls
          exact ⟨rfl, rfl, fun hne => absurd hpools hne, tray, rfl, rfl⟩
        · cases h

/-- An answer to a query without a mark fails where a roll does not end or where the text has no value. -/
theorem answerTerms_eq_error (h : answerTerms evaluator cs mode tray = (.error e, tray')) :
    tray.rollAll (rolledMode cs mode) (leafPools cs) = (.error e, tray') ∨
      leafPools cs ≠ [] ∧ ∃ rolls tray₁ a,
        tray.rollAll (rolledMode cs mode) (leafPools cs) = (.ok rolls, tray₁) ∧
          evaluator (leafText cs rolls) = .error a ∧ e = .arithmetic a ∧
            tray' = tray₁.withTexts [leafText cs rolls] := by
  cases hrolls : tray.rollAll (rolledMode cs mode) (leafPools cs) with
  | mk outcome tray₁ =>
    cases outcome with
    | error e' =>
      rw [answerTerms_of_rollAll_error hrolls] at h
      cases h
      exact .inl rfl
    | ok rolls =>
      rw [answerTerms_of_rollAll hrolls, ← Tray.withTexts_singleton] at h
      cases hvalue : evaluator (leafText cs rolls) with
      | ok total =>
        rw [hvalue] at h
        cases h
      | error a =>
        simp only [hvalue] at h
        split at h
        · cases h
        · next hpools =>
          cases h
          exact .inr ⟨hpools, rolls, tray₁, a, rfl, hvalue, rfl, rfl⟩

theorem answerWithin_of_none (h : splitRepetition? cs = none) :
    answerWithin evaluator levels cs mode tray =
      if isWorthReading cs then answerTerms evaluator cs mode tray
      else (.ok (.empty (String.ofList cs)), tray) := by
  cases levels <;> simp only [answerWithin, h]

theorem answerWithin_zero_of_some (h : splitRepetition? cs = some (times, inner)) :
    answerWithin evaluator 0 cs mode tray = (.ok (.empty (String.ofList cs)), tray) := by
  simp only [answerWithin, h, ite_self]

theorem answerWithin_succ_of_some (h : splitRepetition? cs = some (times, inner)) :
    answerWithin evaluator (levels + 1) cs mode tray =
      match repeatAnswer (answerWithin evaluator levels inner mode) times [] tray with
      | (.error e, tray) => (.error e, tray)
      | (.ok parts, tray) => (.ok (.repeated (String.ofList cs) (sumTotals parts) [] parts), tray) := by
  cases hrepeat : repeatAnswer (answerWithin evaluator levels inner mode) times [] tray with
  | mk outcome after =>
    cases outcome <;> simp only [answerWithin, isWorthReading_of_some h, if_true, h, hrepeat]

theorem answerWithin_zero_eq_ok (h : answerWithin evaluator 0 cs mode tray = (.ok r, tray')) :
    r.input = String.ofList cs ∧ r.parts? = none := by
  cases hsplit : splitRepetition? cs with
  | some split =>
    rw [answerWithin_zero_of_some hsplit] at h
    cases h
    exact ⟨rfl, rfl⟩
  | none =>
    rw [answerWithin_of_none hsplit] at h
    split at h
    · obtain ⟨hinput, hparts, -⟩ := answerTerms_eq_ok h
      exact ⟨hinput, hparts⟩
    · cases h
      exact ⟨rfl, rfl⟩

/-- A leaf without a mark has the rolls of its query, and if there are any also a value. -/
theorem leaf_eq_ok (hcs : splitRepetition? cs = none)
    (h : answerWithin evaluator 0 cs mode tray = (.ok r, tray')) :
    (leafPools cs ≠ [] → ∃ x, evaluator (leafText cs r.entries) = .ok x) ∧
      ∃ tray₁, tray.rollAll (rolledMode cs mode) (leafPools cs) = (.ok r.entries, tray₁) ∧
        tray' = tray₁.withTexts (if isWorthReading cs then [leafText cs r.entries] else []) := by
  rw [answerWithin_of_none hcs] at h
  split at h
  · next hworth =>
    obtain ⟨-, -, hvalue, hrolls⟩ := answerTerms_eq_ok h
    rw [if_pos hworth]
    exact ⟨hvalue, hrolls⟩
  · next hworth =>
    cases h
    have hpools : leafPools cs = [] := by
      by_contra hne
      exact hworth (isWorthReading_of_leafPools_ne_nil hne)
    rw [hpools, if_neg hworth]
    exact ⟨fun hne => absurd rfl hne, tray, rfl, tray.withTexts_nil.symm⟩

theorem leaf_eq_error (h : answerWithin evaluator 0 cs mode tray = (.error e, tray')) :
    splitRepetition? cs = none ∧ answerTerms evaluator cs mode tray = (.error e, tray') := by
  cases hsplit : splitRepetition? cs with
  | some split =>
    rw [answerWithin_zero_of_some hsplit] at h
    cases h
  | none =>
    rw [answerWithin_of_none hsplit] at h
    split at h
    · exact ⟨rfl, h⟩
    · cases h

theorem answers_leaf (h : answerWithin evaluator 0 cs mode tray = (.ok r, tray')) :
    r.leaves.length = 1 ∧ Answers (answerWithin evaluator 0 cs mode) tray r.leaves tray' := by
  rw [Result.leaves_of_parts? (answerWithin_zero_eq_ok h).2]
  exact ⟨rfl, .cons h (.nil _)⟩

/-- The leaves of a result answer the innermost query, as often as the counts say. -/
theorem answers_of_answerWithin (h : answerWithin evaluator levels cs mode tray = (.ok r, tray')) :
    r.leaves.length = ((counts cs).take levels).prod ∧
      Answers (answerWithin evaluator 0 (behind levels cs) mode) tray r.leaves tray' := by
  induction levels generalizing cs tray r tray' with
  | zero => exact answers_leaf h
  | succ levels ih =>
    cases hsplit : splitRepetition? cs with
    | none =>
      rw [counts_of_none hsplit, behind_of_none hsplit]
      rw [answerWithin_of_none hsplit, ← @answerWithin_of_none _ _ _ 0 _ _ _ hsplit] at h
      exact answers_leaf h
    | some split =>
      obtain ⟨times, inner⟩ := split
      rw [answerWithin_succ_of_some hsplit] at h
      split at h
      · cases h
      · next parts tray₁ hparts =>
        cases h
        obtain ⟨parts, rfl, hlength, hanswers⟩ := answers_of_repeatAnswer hparts
        obtain ⟨hleaves, hsteps⟩ := hanswers.flatten fun _ _ _ hr => ih hr
        rw [counts_of_some hsplit, List.take_succ_cons, List.prod_cons, behind_of_some hsplit,
          Result.leaves_repeated]
        exact ⟨by rw [← hlength]; exact hleaves, hsteps⟩

/-- An answer fails with a leaf, when all leaves before it were answered. -/
theorem answers_of_answerWithin_error
    (h : answerWithin evaluator levels cs mode tray = (.error e, tray')) :
    ∃ leaves tray₁, leaves.length < ((counts cs).take levels).prod ∧
      Answers (answerWithin evaluator 0 (behind levels cs) mode) tray leaves tray₁ ∧
        answerWithin evaluator 0 (behind levels cs) mode tray₁ = (.error e, tray') := by
  induction levels generalizing cs tray tray' with
  | zero => exact ⟨[], tray, by simp, .nil tray, h⟩
  | succ levels ih =>
    cases hsplit : splitRepetition? cs with
    | none =>
      rw [counts_of_none hsplit, behind_of_none hsplit]
      rw [answerWithin_of_none hsplit, ← @answerWithin_of_none _ _ _ 0 _ _ _ hsplit] at h
      exact ⟨[], tray, by simp, .nil tray, h⟩
    | some split =>
      obtain ⟨times, inner⟩ := split
      rw [answerWithin_succ_of_some hsplit] at h
      split at h
      · next e' tray₁ hparts =>
        cases h
        obtain ⟨parts, tray₁, hlength, hanswers, hfail⟩ := answers_of_repeatAnswer_error hparts
        obtain ⟨hleaves, hsteps⟩ := hanswers.flatten fun _ _ _ hr => answers_of_answerWithin hr
        obtain ⟨more, tray₂, hmore, hsteps', hlast⟩ := ih hfail
        -- The part that fails is one of `times`, and its own leaves come behind those of the parts before it.
        rw [counts_of_some hsplit, List.take_succ_cons, List.prod_cons, behind_of_some hsplit]
        refine ⟨parts.flatMap Result.leaves ++ more, tray₂, ?_, hsteps.append hsteps', hlast⟩
        calc (parts.flatMap Result.leaves ++ more).length
          _ < parts.length * ((counts inner).take levels).prod + ((counts inner).take levels).prod := by
            rw [List.length_append, hleaves]
            omega
          _ = (parts.length + 1) * ((counts inner).take levels).prod := (Nat.succ_mul ..).symm
          _ ≤ times * ((counts inner).take levels).prod := Nat.mul_le_mul_right _ hlength
      · cases h

theorem behind_maxRepetitions {query : String}
    (hmarks : query.toList.countP isRepetitionMark ≤ maxRepetitions) :
    behind maxRepetitions query.toList = lastSegment query.toList ∧
      (counts query.toList).take maxRepetitions = counts query.toList := by
  rw [← length_counts] at hmarks
  exact ⟨behind_eq_lastSegment hmarks, List.take_of_length_le hmarks⟩

/-- Only a query all of whose marks are read can fail, and it fails with one of its last segments. -/
theorem answer_eq_error {query : String} (h : answer evaluator query mode tray = (.error e, tray')) :
    query.toList.countP isRepetitionMark ≤ maxRepetitions ∧
      ∃ leaves tray₁, leaves.length < (counts query.toList).prod ∧
        Answers (answerWithin evaluator 0 (lastSegment query.toList) mode) tray leaves tray₁ ∧
          answerTerms evaluator (lastSegment query.toList) mode tray₁ = (.error e, tray') := by
  obtain ⟨leaves, tray₁, hlength, hleaves, hfail⟩ := answers_of_answerWithin_error h
  obtain ⟨hcs, hterms⟩ := leaf_eq_error hfail
  have hmarks : query.toList.countP isRepetitionMark ≤ maxRepetitions := by
    rw [← length_counts]
    exact splitRepetition?_behind_eq_none_iff.mp hcs
  obtain ⟨hbehind, hcounts⟩ := behind_maxRepetitions hmarks
  rw [hcounts] at hlength
  rw [hbehind] at hleaves hterms
  exact ⟨hmarks, leaves, tray₁, hlength, hleaves, hterms⟩

end Within

end Query

end Tabletop
